import FlowRegions.Proofs.DirectiveFilters

/-!
# The first logger stays

Two things happen only once in a process, and not to the same calls: a process accepts one logger,
which any call may offer, and it is initialised once, which the calls for tests and for a logger of
the host leave alone. A call passes over a refusal of its logger (`perform_eq`), so steps never fail
(`Ready.run_eq`). What is left of a history is the first logger that was offered
(`Ready.active_foldl`) and whether there was an initialising call (`initialized_foldl`): an
initialised process always has a logger (`Ready`), so that no step changes it.

What the loggers of the calls show follows from the laws of their library (`Laws.loggersWrite`). A
filter with a directive for all targets shows what that directive lets through
(`Laws.shows_general`) except where one for a module decides (`Laws.decides_direct`).
-/

namespace FlowRegions

namespace Log

/-- Why a process does not accept a logger. -/
inductive Refusal where
  /-- It has accepted another one before. -/
  | taken
deriving DecidableEq, Repr

/-- What may happen to the log of a process. -/
inductive LogStep (lib : LoggerLibrary) where
  | setup (call : SetupCall lib)
  /-- A record is emitted. -/
  | emit (record : Record)

variable {lib : LoggerLibrary}

namespace SetupCall

/-- The logger that a call has to offer. -/
def logger (spec : Option String) : SetupCall lib → Logger lib
  | .init => levelLogger lib (some .warn)
  | .initWithLevel threshold => levelLogger lib threshold
  | .initFromEnvironment => environmentLogger lib spec
  | .initTest => testLogger lib spec
  | .host logger => logger

/-- Whether a call initialises the log. -/
def initialises : SetupCall lib → Bool
  | .init | .initWithLevel _ | .initFromEnvironment => true
  | .initTest | .host _ => false

end SetupCall

namespace LogStep

/-- The logger that a step has to offer. -/
def logger? (spec : Option String) : LogStep lib → Option (Logger lib)
  | .setup call => some (call.logger spec)
  | .emit _ => none

/-- Whether a step initialises the log. -/
def initialises : LogStep lib → Bool
  | .setup call => call.initialises
  | .emit _ => false

end LogStep

/-! ## What the loggers show -/

/-- What the loggers of the calls write for a record in a process with a specification in its
environment. -/
structure LoggersWrite (lib : LoggerLibrary) (spec : Option String) (r : Record) : Prop where
  /-- Warnings and errors, whatever their target. -/
  init : ((SetupCall.init : SetupCall lib).logger spec).write r =
    if r.level = .error ∨ r.level = .warn then
      lib.displayed s!"[{r.level.padded}] {r.target} - {r.text}\n" else ""
  /-- The records of the analysis up to a threshold, and warnings and errors of other modules. -/
  initWithLevel : ∀ t, ((SetupCall.initWithLevel t : SetupCall lib).logger spec).write r =
    if (if Scope.covers (some "hammock") r.target then t else some .warn).allows r.level then
      lib.displayed s!"[{r.level.padded}] {r.target} - {r.text}\n" else ""
  /-- What the specification shows, in the layout of the library. -/
  initFromEnvironment : ((SetupCall.initFromEnvironment : SetupCall lib).logger spec).write r =
    if lib.shows (lib.read (spec.getD "warn")) r then lib.displayed (lib.layout r) else ""
  /-- Without a specification these are warnings and errors. -/
  unspecified : spec = none → (lib.shows (lib.read (spec.getD "warn")) r = true ↔
    r.level = .error ∨ r.level = .warn)
  /-- A directive of the specification that decides about the target says what is shown. -/
  specified : ∀ text scope t, spec = some text → lib.Decides (lib.read text) scope t r.target →
    lib.shows (lib.read (spec.getD "warn")) r =
      (t.allows r.level && lib.admits (lib.read text) r.text)
  /-- For tests a directive of the specification decides if it is for a module. -/
  initTest_module : ∀ text m t, spec = some text → m ≠ "" →
    lib.Decides (lib.read text) (some m) t r.target →
    ((SetupCall.initTest : SetupCall lib).logger spec).write r =
      if t.allows r.level && lib.admits (lib.read text) r.text then
        lib.displayed (lib.layout r) else ""
  /-- Where none is for a module of the target, the logger for tests shows warnings and errors. -/
  initTest_general : (∀ text m, spec = some text →
      (lib.directed? (lib.read text) (some m)).isSome → Scope.covers (some m) r.target = false) →
    ((SetupCall.initTest : SetupCall lib).logger spec).write r =
      if (r.level = .error ∨ r.level = .warn) ∧
          ∀ text, spec = some text → lib.admits (lib.read text) r.text = true then
        lib.displayed (lib.layout r) else ""
  host : ∀ write, ((SetupCall.host (.host write) : SetupCall lib).logger spec).write r = write r

theorem allows_warn {l : Level} :
    Threshold.allows (some .warn) l = true ↔ l = .error ∨ l = .warn := by
  cases l <;> decide

namespace LoggerLibrary.Laws

/-- The records of the analysis up to a threshold, and warnings and errors of other modules. -/
theorem shows_level (hlib : lib.Laws) (t : Threshold) (r : Record) :
    lib.shows (lib.direct (lib.direct lib.blank none (some .warn)) (some analysisModule) t) r =
      (if Scope.covers (some analysisModule) r.target then t else some .warn).allows r.level := by
  generalize hf : lib.direct (lib.direct lib.blank none (some .warn)) (some analysisModule) t = f
  have hdirected : ∀ scope, lib.directed? f scope = if scope = some analysisModule then some t
      else if scope = none then some (some .warn) else none := by
    intro scope
    rw [← hf, hlib.directed?_direct, hlib.directed?_direct, hlib.directed?_blank]
  have hadmits : lib.admits f r.text = true := by
    rw [← hf, hlib.admits_direct, hlib.admits_direct, hlib.admits_blank]
  by_cases hcovers : Scope.covers (some analysisModule) r.target = true
  · have hdecides : lib.Decides f (some analysisModule) t r.target := by
      refine ⟨by rw [hdirected, if_pos rfl], hcovers, fun other hother _ hne => ?_⟩
      rw [hdirected, if_neg hne] at hother
      by_cases hnone : other = none
      · subst hnone
        decide
      · rw [if_neg hnone] at hother
        cases hother
    rw [hlib.shows_of_decides f _ t r hdecides, hadmits, Bool.and_true, if_pos hcovers]
  · have hgeneral : lib.directed? f none = some (some .warn) := by
      rw [hdirected, if_neg (Option.some_ne_none _).symm, if_pos rfl]
    rw [hlib.shows_general hgeneral fun m hm => ?_, hadmits, Bool.and_true, if_neg hcovers]
    by_cases heq : m = analysisModule
    · rw [heq]
      exact Bool.not_eq_true _ ▸ hcovers
    · rw [hdirected, if_neg (by simpa using heq), if_neg (Option.some_ne_none m)] at hm
      cases hm

/-- The logger for tests leaves the decision to the specification only for modules it speaks of. -/
theorem shows_test_general (hlib : lib.Laws) {spec : Option String} {r : Record}
    (hmodules : ∀ text m, spec = some text →
      (lib.directed? (lib.read text) (some m)).isSome → Scope.covers (some m) r.target = false) :
    lib.shows (lib.direct ((spec.map lib.read).getD lib.blank) none (some .warn)) r =
      ((Threshold.allows (some .warn) r.level) &&
        lib.admits ((spec.map lib.read).getD lib.blank) r.text) := by
  rw [hlib.shows_general ((hlib.directed?_direct ..).trans (if_pos rfl)) fun m hm => ?_,
    hlib.admits_direct]
  rw [hlib.directed?_direct, if_neg (Option.some_ne_none m)] at hm
  cases spec with
  | none =>
    rw [Option.map_none, Option.getD_none, hlib.directed?_blank] at hm
    cases hm
  | some text => exact hmodules text m rfl hm

/-- Each logger writes what its call says. -/
theorem loggersWrite (hlib : lib.Laws) (spec : Option String) (r : Record) :
    LoggersWrite lib spec r where
  init := by
    rw [SetupCall.logger, levelLogger, Logger.write, hlib.shows_level, ite_self]
    simp only [allows_warn]
    rfl
  initWithLevel t := by
    rw [SetupCall.logger, levelLogger, Logger.write, hlib.shows_level]
    rfl
  initFromEnvironment := rfl
  unspecified hspec := by
    subst hspec
    rw [Option.getD_none, hlib.shows_general ((hlib.directed?_read_warn none).trans (if_pos rfl))
      fun m hm => ?_, hlib.admits_read_warn, Bool.and_true, allows_warn]
    rw [hlib.directed?_read_warn, if_neg (Option.some_ne_none m)] at hm
    cases hm
  specified text scope t hspec h := by
    subst hspec
    exact hlib.shows_of_decides _ scope t r h
  initTest_module text m t hspec hm h := by
    subst hspec
    have hdecides := hlib.decides_direct hm (some .warn) h
    rw [SetupCall.logger, testLogger, Logger.write, Option.map_some, Option.getD_some,
      hlib.shows_of_decides _ _ t r hdecides, hlib.admits_direct]
  initTest_general hmodules := by
    rw [SetupCall.logger, testLogger, Logger.write, hlib.shows_test_general hmodules]
    simp only [Bool.and_eq_true, allows_warn]
    cases spec with
    | none => simp [hlib.admits_blank]
    | some text => simp
  host _ := rfl

end LoggerLibrary.Laws

namespace ProcessLog

variable {spec : Option String} {s : ProcessLog lib} {step : LogStep lib}
  {steps : List (LogStep lib)}

/-- Offers a logger to the process, which accepts the first one only. -/
def offer (s : ProcessLog lib) (logger : Logger lib) : Except Refusal (ProcessLog lib) :=
  match s.active with
  | none => .ok { s with active := some logger }
  | some _ => .error .taken

/-- Carries out a step in a process with a specification in its environment, with what is written.
Initialising calls are only carried out once, and a refused logger is passed over. -/
def perform (spec : Option String) (s : ProcessLog lib) :
    LogStep lib → Except Refusal (ProcessLog lib × String)
  | .setup call =>
    if call.initialises && s.initialized then .ok (s, "")
    else do
      let offered ← tryCatch (s.offer (call.logger spec)) fun _ => .ok s
      return ({ offered with initialized := s.initialized || call.initialises }, "")
  | .emit r => .ok (s, s.written r.level r.target r.text)

/-- Carries out steps up to the first one that fails, with what each of them has written. -/
def run (spec : Option String) (s : ProcessLog lib) :
    List (LogStep lib) → Except Refusal (ProcessLog lib × List String)
  | [] => .ok (s, [])
  | step :: steps => do
    let (next, text) ← s.perform spec step
    let (last, texts) ← next.run spec steps
    return (last, text :: texts)

/-! ## Single steps -/

/-- The process behind a step. -/
def next (spec : Option String) (s : ProcessLog lib) : LogStep lib → ProcessLog lib
  | .setup call => s.call spec call
  | .emit _ => s

/-- What a logger, if there is one, writes in a step. -/
def shownBy (active : Option (Logger lib)) : LogStep lib → String
  | .setup _ => ""
  | .emit r => active.elim "" (·.write r)

theorem call_eq (spec : Option String) (s : ProcessLog lib) (call : SetupCall lib) :
    s.call spec call = if call.initialises then s.initOnce (call.logger spec)
      else s.install (call.logger spec) := by
  cases call <;> rfl

/-- A refused logger leaves the process as it is. -/
theorem tryCatch_offer (s : ProcessLog lib) (logger : Logger lib) :
    (tryCatch (s.offer logger) fun _ => .ok s) = .ok (s.install logger) := by
  obtain ⟨active, initialized⟩ := s
  cases active <;> rfl

/-- Every step succeeds. -/
theorem perform_eq (spec : Option String) (s : ProcessLog lib) (step : LogStep lib) :
    s.perform spec step = .ok (s.next spec step, shownBy s.active step) := by
  cases step with
  | emit r =>
    show Except.ok (s, s.written r.level r.target r.text) = _
    rw [written]
    cases s.active <;> rfl
  | setup call =>
    rw [perform, tryCatch_offer, next, call_eq, initOnce]
    obtain ⟨active, initialized⟩ := s
    cases call.initialises <;> cases initialized <;> rfl

/-- An initialised process has a logger. -/
def Ready (s : ProcessLog lib) : Prop := s.initialized = true → s.active.isSome = true

/-- In a step a process accepts the logger that it is offered, if it has none. -/
theorem Ready.active_next (hs : s.Ready) :
    (s.next spec step).active = s.active.or (step.logger? spec) := by
  cases step with
  | emit => exact (Option.or_none).symm
  | setup call =>
    rw [next, call_eq, initOnce]
    split
    · split
      · next hinit =>
        -- an initialised process does not even offer the logger, but it has one
        obtain ⟨logger, hlogger⟩ := Option.isSome_iff_exists.1 (hs hinit)
        rw [hlogger, Option.some_or]
      · rfl
    · rfl

theorem initialized_next :
    (s.next spec step).initialized = (s.initialized || step.initialises) := by
  cases step with
  | emit => exact (Bool.or_false _).symm
  | setup call =>
    rw [next, call_eq, initOnce, LogStep.initialises]
    obtain ⟨active, initialized⟩ := s
    cases call.initialises <;> cases initialized <;> rfl

theorem Ready.next (hs : s.Ready) (spec : Option String) (step : LogStep lib) :
    (s.next spec step).Ready := by
  intro hinit
  rw [hs.active_next, Option.isSome_or, Bool.or_eq_true]
  rw [initialized_next, Bool.or_eq_true] at hinit
  refine hinit.imp hs fun hstep => ?_
  cases step with
  | emit => cases hstep
  | setup call => rfl

/-- An initialising call does nothing to an initialised process. -/
theorem next_setup_of_initialized {call : SetupCall lib} (hcall : call.initialises = true)
    (hs : s.initialized = true) : s.next spec (.setup call) = s := by
  rw [next, call_eq, if_pos hcall, initOnce, if_pos hs]

/-! ## Histories -/

theorem run_cons (spec : Option String) (s : ProcessLog lib) (step : LogStep lib)
    (steps : List (LogStep lib)) : s.run spec (step :: steps) =
      ((s.next spec step).run spec steps).map fun p => (p.1, shownBy s.active step :: p.2) := by
  rw [run, perform_eq]
  show ((s.next spec step).run spec steps).bind _ = _
  cases (s.next spec step).run spec steps <;> rfl

theorem run_append (spec : Option String) (s : ProcessLog lib) (steps more : List (LogStep lib)) :
    s.run spec (steps ++ more) = (s.run spec steps).bind fun p =>
      (p.1.run spec more).map fun q => (q.1, p.2 ++ q.2) := by
  induction steps generalizing s with
  | nil =>
    rw [List.nil_append, run]
    show s.run spec more = (s.run spec more).map fun q => (q.1, q.2)
    cases s.run spec more <;> rfl
  | cons step steps ih =>
    rw [List.cons_append, run_cons, run_cons, ih]
    cases (s.next spec step).run spec steps with
    | error e => rfl
    | ok p =>
      show ((p.1.run spec more).map _).map _ = (p.1.run spec more).map _
      cases p.1.run spec more <;> rfl

/-- Steps never fail, and each writes what the logger of its moment writes. -/
theorem Ready.run_eq (hs : s.Ready) (spec : Option String) (steps : List (LogStep lib)) :
    ∃ texts, s.run spec steps = .ok (steps.foldl (ProcessLog.next spec) s, texts) ∧
      texts.length = steps.length ∧
      ∀ before step after, steps = before ++ step :: after → texts[before.length]? =
        some (shownBy (s.active.or (before.findSome? (·.logger? spec))) step) := by
  induction steps generalizing s with
  | nil => exact ⟨[], rfl, rfl, by simp⟩
  | cons step steps ih =>
    obtain ⟨texts, hrun, hlength, htexts⟩ := ih (hs.next spec step)
    refine ⟨shownBy s.active step :: texts, ?_, by simp [hlength], fun before step' after heq => ?_⟩
    · rw [run_cons, hrun]
      rfl
    · cases before with
      | nil =>
        obtain ⟨rfl, _⟩ := List.cons.inj heq
        simp
      | cons first before =>
        obtain ⟨rfl, hrest⟩ := List.cons.inj heq
        have hshown := htexts before step' after hrest
        rw [hs.active_next, Option.or_assoc] at hshown
        rw [List.length_cons, List.getElem?_cons_succ, hshown, List.findSome?_cons]
        cases step.logger? spec <;> rfl

/-- The first logger that is offered stays. -/
theorem Ready.active_foldl (hs : s.Ready) :
    (steps.foldl (ProcessLog.next spec) s).active =
      s.active.or (steps.findSome? (·.logger? spec)) := by
  induction steps generalizing s with
  | nil => exact (Option.or_none).symm
  | cons step steps ih =>
    rw [List.foldl_cons, ih (hs.next spec step), hs.active_next, Option.or_assoc,
      List.findSome?_cons]
    cases step.logger? spec <;> rfl

theorem Ready.foldl (hs : s.Ready) (spec : Option String) (steps : List (LogStep lib)) :
    (steps.foldl (ProcessLog.next spec) s).Ready := by
  induction steps generalizing s with
  | nil => exact hs
  | cons step steps ih => exact ih (hs.next spec step)

/-- A process is initialised once there has been an initialising call. -/
theorem initialized_foldl : (steps.foldl (ProcessLog.next spec) s).initialized =
    (s.initialized || steps.any (·.initialises)) := by
  induction steps generalizing s with
  | nil => exact (Bool.or_false _).symm
  | cons step steps ih => rw [List.foldl_cons, ih, initialized_next, List.any_cons, Bool.or_assoc]

/-- In any history no step fails, and the process is what the calls make of it one after the other.
The logger is the first one that has been offered, each record is written by the logger of its
moment, and nothing that follows replaces it. The process is initialised from the first initialising
call on, whether or not its logger was accepted, and by nothing else. Then an initialising call does
nothing at all. The loggers of the calls write what the calls say. -/
theorem first_logger_stays (hlib : lib.Laws) (spec : Option String) (steps : List (LogStep lib)) :
    (∀ r, LoggersWrite lib spec r) ∧ ∃ s texts, run spec {} steps = .ok (s, texts) ∧
      s = steps.foldl (ProcessLog.next spec) {} ∧
      s.active = steps.findSome? (·.logger? spec) ∧
      (s.initialized = true ↔ ∃ step ∈ steps, step.initialises = true) ∧
      (texts.length = steps.length ∧ ∀ before step after, steps = before ++ step :: after →
        texts[before.length]? = some (shownBy (before.findSome? (·.logger? spec)) step)) ∧
      (s.initialized = true → ∀ call, call.initialises = true →
        s.call spec call = s ∧ s.perform spec (.setup call) = .ok (s, "")) ∧
      ∀ more, ∃ s' texts', run spec {} (steps ++ more) = .ok (s', texts ++ texts') ∧
        (∀ logger, s.active = some logger → s'.active = some logger) ∧
        (s.initialized = true → s'.initialized = true) := by
  have hfresh : ({} : ProcessLog lib).Ready := fun h => absurd h Bool.false_ne_true
  obtain ⟨texts, hrun, hlength, htexts⟩ := hfresh.run_eq spec steps
  have hready := hfresh.foldl spec steps
  refine ⟨hlib.loggersWrite spec, _, texts, hrun, rfl, hfresh.active_foldl, ?_, ⟨hlength, htexts⟩,
    fun hinit call hcall => ?_, fun more => ?_⟩
  · rw [initialized_foldl, Bool.false_or, List.any_eq_true]
  · have hnext : ProcessLog.next spec _ (.setup call) = _ := next_setup_of_initialized hcall hinit
    refine ⟨hnext, ?_⟩
    rw [perform_eq, hnext]
    rfl
  · obtain ⟨texts', hrun', _⟩ := hready.run_eq spec more
    refine ⟨more.foldl (ProcessLog.next spec) (steps.foldl (ProcessLog.next spec) {}), texts', ?_,
      fun logger hlogger => ?_, fun hinit => ?_⟩
    · rw [run_append, hrun]
      show (run spec _ more).map _ = _
      rw [hrun']
      rfl
    · rw [hready.active_foldl, hlogger, Option.some_or]
    · rw [initialized_foldl, hinit, Bool.true_or]

/-- Where the logger for tests comes first it stays, and the next initialising call still counts, so
that the environment is not consulted again. The other way round the logger for tests is refused,
and the records of the analysis are shown. A specification with a slash shows the texts in which
what stands behind the slash occurs. -/
theorem logger_for_tests_first_and_second :
    (LoggerLibrary.standard literal?).Laws ∧
    (∃ s texts, run (some "off") ({} : LogState) [.emit ⟨.error, "hammock", "early"⟩,
        .setup .initTest, .setup (.initWithLevel (some .trace)), .setup (.host .silent)] =
          .ok (s, texts) ∧
      s.active = some (testLogger _ (some "off")) ∧ s.initialized = true ∧
      s.call (some "off") .initFromEnvironment = s) ∧
    (∃ s texts, run none ({} : LogState) [.setup (.initWithLevel (some .debug)), .setup .initTest,
        .emit ⟨.debug, "hammock::net", "ready"⟩] = .ok (s, texts) ∧
      texts[2]? = some "[DEBUG] hammock::net - ready\n") ∧
    (∃ s texts, run (some "warn/") ({} : LogState) [.setup .initFromEnvironment,
        .emit ⟨.warn, "host", "late"⟩] = .ok (s, texts) ∧
      texts[1]? = some "[WARN  host] late\n") ∧
    ∃ s texts, run (some "hammock::region=trace/nests") ({} : LogState)
        [.setup .initFromEnvironment, .emit ⟨.trace, "hammock::region::tree", "h1 nests in h2"⟩,
          .emit ⟨.warn, "hammock::region::tree", "late"⟩] = .ok (s, texts) ∧
      texts[1]? = some "[TRACE hammock::region::tree] h1 nests in h2\n" ∧
      texts[2]? = some "" := by
  have hlaws := LoggerLibrary.standard_laws literal?
  refine ⟨hlaws, ?_, ?_, ?_, ?_⟩
  · obtain ⟨_, s, texts, hrun, _, hactive, hinit, _, hagain, _⟩ :=
      first_logger_stays hlaws (some "off") [.emit ⟨.error, "hammock", "early"⟩, .setup .initTest,
        .setup (.initWithLevel (some .trace)), .setup (.host .silent)]
    have hinit : s.initialized = true :=
      hinit.2 ⟨.setup (.initWithLevel (some .trace)), by simp, rfl⟩
    exact ⟨s, texts, hrun, hactive, hinit, (hagain hinit .initFromEnvironment rfl).1⟩
  · obtain ⟨hwrite, s, texts, hrun, _, _, _, ⟨_, htexts⟩, _⟩ := first_logger_stays hlaws none
      [.setup (.initWithLevel (some .debug)), .setup .initTest,
        .emit ⟨.debug, "hammock::net", "ready"⟩]
    have hshown := htexts [.setup (.initWithLevel (some .debug)), .setup .initTest]
      (.emit ⟨.debug, "hammock::net", "ready"⟩) [] rfl
    refine ⟨s, texts, hrun, hshown.trans (congrArg some ?_)⟩
    refine ((hwrite ⟨.debug, "hammock::net", "ready"⟩).initWithLevel (some .debug)).trans ?_
    decide +kernel
  · obtain ⟨hwrite, s, texts, hrun, _, _, _, ⟨_, htexts⟩, _⟩ := first_logger_stays hlaws
      (some "warn/") [.setup .initFromEnvironment, .emit ⟨.warn, "host", "late"⟩]
    have hshown := htexts [.setup .initFromEnvironment] (.emit ⟨.warn, "host", "late"⟩) [] rfl
    refine ⟨s, texts, hrun, hshown.trans (congrArg some ?_)⟩
    refine (hwrite ⟨.warn, "host", "late"⟩).initFromEnvironment.trans ?_
    decide +kernel
  · obtain ⟨hwrite, s, texts, hrun, _, _, _, ⟨_, htexts⟩, _⟩ := first_logger_stays hlaws
      (some "hammock::region=trace/nests") [.setup .initFromEnvironment,
        .emit ⟨.trace, "hammock::region::tree", "h1 nests in h2"⟩,
        .emit ⟨.warn, "hammock::region::tree", "late"⟩]
    have hshown := htexts [.setup .initFromEnvironment]
      (.emit ⟨.trace, "hammock::region::tree", "h1 nests in h2"⟩) _ rfl
    have hhidden := htexts [.setup .initFromEnvironment,
        .emit ⟨.trace, "hammock::region::tree", "h1 nests in h2"⟩]
      (.emit ⟨.warn, "hammock::region::tree", "late"⟩) [] rfl
    refine ⟨s, texts, hrun, hshown.trans (congrArg some ?_), hhidden.trans (congrArg some ?_)⟩
    · have hnests := hwrite ⟨.trace, "hammock::region::tree", "h1 nests in h2"⟩
      exact hnests.initFromEnvironment.trans (by decide +kernel)
    · have hlate := hwrite ⟨.warn, "hammock::region::tree", "late"⟩
      exact hlate.initFromEnvironment.trans (by decide +kernel)

end ProcessLog

end Log

end FlowRegions
