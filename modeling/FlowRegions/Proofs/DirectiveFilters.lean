import FlowRegions.Log.Setup
import Mathlib.Data.List.Induction
import Mathlib.Tactic.ByContra

/-! # Filters made of directives keep the laws of a library

A new directive goes to the place of the one for its scope, or to the end (`Filter.directed?_set`).
The directives that cover a target are compared from the first to the last, so the one that is left
is the last for its scope and no other is for a longer module name (`Filter.exists_foldl_longer`).
It is the one that covers the target and is for a longer module name than all others that do
(`Filter.deciding?_of_decides`).
-/

namespace FlowRegions

namespace Log

namespace Filter

variable {f : Filter} {ds : List Directive}

/-! ## Setting directives -/

theorem find?_map_of_scope {g : Directive → Directive} (hg : ∀ e, (g e).scope = e.scope)
    (ds : List Directive) (scope : Scope) :
    (ds.map g).find? (·.scope = scope) = (ds.find? (·.scope = scope)).map g := by
  have hsame : ((fun e : Directive => decide (e.scope = scope)) ∘ g) =
      fun e => decide (e.scope = scope) := funext fun e => by simp [hg]
  rw [List.find?_map, hsame]

/-- Whether a directive covers a target depends on its scope alone. -/
theorem find?_filter_covers {target : String} {scope : Scope} (h : scope.covers target = true)
    (ds : List Directive) : (ds.filter (·.scope.covers target)).find? (·.scope = scope) =
      ds.find? (·.scope = scope) := by
  rw [List.find?_filter]
  refine congrArg (List.find? · ds) (funext fun e => decide_eq_decide.2 ?_)
  rw [decide_eq_true_eq]
  exact and_iff_right_of_imp fun he => he ▸ h

/-- A directive takes the place of the one for the same scope and leaves the others alone. -/
theorem directed?_set (f : Filter) (d : Directive) (scope : Scope) :
    (f.set d).directed? scope =
      if scope = d.scope then some d.threshold else f.directed? scope := by
  unfold set directed?
  split
  · next hany =>
    have hscope : ∀ e : Directive, (if e.scope = d.scope then d else e).scope = e.scope := by
      intro e
      split
      · next heq => exact heq.symm
      · rfl
    rw [← List.map_reverse, find?_map_of_scope hscope]
    cases hfound : f.directives.reverse.find? (·.scope = scope) with
    | none =>
      -- a directive for the scope of `d` has been found before
      rw [List.find?_eq_none] at hfound
      obtain ⟨e, he, heq⟩ := List.any_eq_true.1 hany
      have hne : scope ≠ d.scope := by
        rintro rfl
        exact hfound e (List.mem_reverse.2 he) heq
      rw [if_neg hne]
      rfl
    | some e =>
      have he : e.scope = scope := by simpa using List.find?_some hfound
      simp only [Option.map_some, he]
      split <;> rfl
  · rw [List.reverse_append, List.reverse_singleton, List.singleton_append, List.find?_cons]
    by_cases hscope : scope = d.scope
    · simp [hscope]
    · rw [if_neg hscope, decide_eq_false (Ne.symm hscope)]

theorem admits_set (matcher? : String → Option (String → Bool)) (f : Filter) (d : Directive)
    (text : String) : (f.set d).admits matcher? text = f.admits matcher? text := by
  have hpattern : (f.set d).pattern = f.pattern := by
    unfold set
    split <;> rfl
  rw [admits, hpattern, admits]

theorem ofText_warn : ofText "warn" = empty.set ⟨none, some .warn⟩ := by decide +kernel

/-! ## The directive that decides -/

/-- The directive that is left leads in specificity, and it is the last one for its scope. -/
theorem exists_foldl_longer (hds : ds ≠ []) : ∃ b, ds.foldl longer none = some b ∧
    (∀ d ∈ ds, d.scope.specificity ≤ b.scope.specificity) ∧
    ds.reverse.find? (·.scope = b.scope) = some b := by
  induction ds using List.reverseRecOn with
  | nil => exact absurd rfl hds
  | append_singleton ds d ih =>
    rw [List.foldl_append, List.foldl_cons, List.foldl_nil, List.reverse_concat]
    by_cases hnil : ds = []
    · subst hnil
      exact ⟨d, rfl, by simp, by simp⟩
    · obtain ⟨b, hb, hmost, hlast⟩ := ih hnil
      rw [hb, longer]
      split
      · next hle =>
        refine ⟨d, rfl, fun e he => ?_, by simp⟩
        rcases List.mem_append.1 he with he | he
        · exact Nat.le_trans (hmost e he) hle
        · exact Nat.le_of_eq (by rw [List.mem_singleton.1 he])
      · next hlt =>
        refine ⟨b, rfl, fun e he => ?_, ?_⟩
        · rcases List.mem_append.1 he with he | he
          · exact hmost e he
          · rw [List.mem_singleton.1 he]
            omega
        · have hne : d.scope ≠ b.scope := fun heq => hlt (Nat.le_of_eq (by rw [heq]))
          rw [List.find?_cons, decide_eq_false hne]
          exact hlast

/-- Of the directives that cover a target, one for a longer module name than all others for other
scopes decides. -/
theorem deciding?_of_decides {target : String} {scope : Scope} {t : Threshold}
    (hdirected : f.directed? scope = some t) (hcovers : scope.covers target = true)
    (hshorter : ∀ other, (f.directed? other).isSome = true → other.covers target = true →
      other ≠ scope → other.specificity < scope.specificity) :
    f.deciding? target = some ⟨scope, t⟩ := by
  obtain ⟨e, hfound, rfl⟩ := Option.map_eq_some_iff.1 hdirected
  have he : e.scope = scope := by simpa using List.find?_some hfound
  have hmem : e ∈ f.directives.filter (·.scope.covers target) :=
    List.mem_filter.2 ⟨List.mem_reverse.1 (List.mem_of_find?_eq_some hfound), he ▸ hcovers⟩
  obtain ⟨b, hb, hmost, hlast⟩ := exists_foldl_longer (List.ne_nil_of_mem hmem)
  have hcovered : b.scope.covers target = true :=
    (List.mem_filter.1 (List.mem_reverse.1 (List.mem_of_find?_eq_some hlast))).2
  rw [← List.filter_reverse, find?_filter_covers hcovered] at hlast
  have hscope : b.scope = scope := by
    by_contra hne
    have hlt := hshorter b.scope (by rw [directed?, hlast]; rfl) hcovered hne
    exact absurd (hmost e hmem) (by rw [he]; omega)
  rw [hscope, hfound] at hlast
  obtain rfl := Option.some.inj hlast
  rw [deciding?, hb, ← hscope]

/-- The directive that decides about the target shows the records up to its threshold of which the
text matches the pattern. -/
theorem shows_of_decides (matcher? : String → Option (String → Bool)) {r : Record} {scope : Scope}
    {t : Threshold} (hdirected : f.directed? scope = some t)
    (hcovers : scope.covers r.target = true)
    (hshorter : ∀ other, (f.directed? other).isSome = true → other.covers r.target = true →
      other ≠ scope → other.specificity < scope.specificity) :
    f.shows matcher? r = (t.allows r.level && f.admits matcher? r.text) := by
  have hsome : f.orErrors = f := by
    refine if_neg fun hnil => ?_
    rw [directed?, List.isEmpty_iff.1 hnil] at hdirected
    cases hdirected
  rw [shows, hsome, deciding?_of_decides hdirected hcovers hshorter, Option.any_some]

end Filter

/-- The library of filters made of directives keeps the laws. -/
theorem LoggerLibrary.standard_laws (matcher? : String → Option (String → Bool)) :
    (LoggerLibrary.standard matcher?).Laws where
  directed?_blank _ := rfl
  admits_blank _ := rfl
  directed?_direct f scope t := Filter.directed?_set f ⟨scope, t⟩
  admits_direct f scope t := Filter.admits_set matcher? f ⟨scope, t⟩
  directed?_read_warn scope := by
    have hset := Filter.directed?_set .empty ⟨none, some .warn⟩ scope
    rw [← Filter.ofText_warn] at hset
    exact hset
  admits_read_warn text := by
    have hset := Filter.admits_set matcher? .empty ⟨none, some .warn⟩ text
    rw [← Filter.ofText_warn] at hset
    exact hset
  shows_of_decides _ _ _ _ h := Filter.shows_of_decides matcher? h.directed h.covers h.shorter

end Log

end FlowRegions
