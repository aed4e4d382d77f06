import FlowRegions.Log.Event

/-! # Computations that report events

A logged computation has a value and the events that it reports, in order. Events are never taken
back: an attempt that fails keeps those reported before the failure.
-/

namespace FlowRegions

namespace Log

/-- A value together with the events reported on the way to it. -/
@[ext] structure Logged (α : Type) where
  value : α
  events : List Event
deriving DecidableEq

/-- A logged computation that may fail. -/
abbrev Attempt (ε α : Type) := ExceptT ε Logged α

namespace Logged

variable {α β : Type}

instance : Monad Logged where
  pure a := ⟨a, []⟩
  bind x f :=
    let y := f x.value
    ⟨y.value, x.events ++ y.events⟩

/-- Reports one event. -/
def report (e : Event) : Logged Unit := ⟨(), [e]⟩

/-- Reports an event before the rest of a computation. -/
def after (e : Event) (rest : Logged α) : Logged α := ⟨rest.value, e :: rest.events⟩

@[simp] theorem value_pure (a : α) : (pure a : Logged α).value = a := rfl

@[simp] theorem events_pure (a : α) : (pure a : Logged α).events = [] := rfl

@[simp] theorem value_bind (x : Logged α) (f : α → Logged β) :
    (x >>= f).value = (f x.value).value := rfl

@[simp] theorem events_bind (x : Logged α) (f : α → Logged β) :
    (x >>= f).events = x.events ++ (f x.value).events := rfl

@[simp] theorem value_report (e : Event) : (report e).value = () := rfl

@[simp] theorem events_report (e : Event) : (report e).events = [e] := rfl

@[simp] theorem value_after (e : Event) (x : Logged α) : (after e x).value = x.value := rfl

@[simp] theorem events_after (e : Event) (x : Logged α) : (after e x).events = e :: x.events := rfl

instance : LawfulMonad Logged := LawfulMonad.mk' Logged
  (fun x => Logged.ext rfl (List.append_nil x.events))
  (fun _ _ => rfl)
  (fun _ _ _ => Logged.ext rfl (List.append_assoc _ _ _))

end Logged

namespace Attempt

variable {ε ε' α β : Type}

/-- An attempt that reports nothing. -/
def ofExcept (x : Except ε α) : Attempt ε α := ExceptT.mk (pure x)

/-- The same attempt with another reason of failure. -/
def mapError (f : ε → ε') (x : Attempt ε α) : Attempt ε' α :=
  ExceptT.mk ⟨x.run.value.mapError f, x.run.events⟩

@[simp] theorem run_ofExcept (x : Except ε α) : (ofExcept x).run = pure x := rfl

@[simp] theorem value_mapError (f : ε → ε') (x : Attempt ε α) :
    (mapError f x).run.value = x.run.value.mapError f := rfl

@[simp] theorem events_mapError (f : ε → ε') (x : Attempt ε α) :
    (mapError f x).run.events = x.run.events := rfl

/-- An attempt goes on where the one before succeeded, and fails where it failed. -/
theorem value_bind (x : Attempt ε α) (f : α → Attempt ε β) :
    (x >>= f).run.value = x.run.value.bind fun a => (f a).run.value := by
  rw [ExceptT.run_bind, Logged.value_bind]
  cases x.run.value <;> rfl

/-- The events of an attempt are those up to its end or its failure. -/
theorem events_bind (x : Attempt ε α) (f : α → Attempt ε β) :
    (x >>= f).run.events = x.run.events ++
      match x.run.value with
      | .ok a => (f a).run.events
      | .error _ => [] := by
  rw [ExceptT.run_bind, Logged.events_bind]
  cases x.run.value <;> rfl

@[simp] theorem value_liftM (x : Logged α) :
    (liftM x : Attempt ε α).run.value = .ok x.value := rfl

/-- After a computation that cannot fail, an attempt goes on with its value. -/
theorem value_liftM_bind (x : Logged α) (f : α → Attempt ε β) :
    (liftM x >>= f).run.value = (f x.value).run.value := by
  rw [value_bind, value_liftM]
  rfl

@[simp] theorem events_liftM (x : Logged α) :
    (liftM x : Attempt ε α).run.events = x.events :=
  (List.append_nil x.events : x.events ++ [] = x.events)

/-- After the events of a computation that cannot fail come those of the rest of the attempt. -/
theorem events_liftM_bind (x : Logged α) (f : α → Attempt ε β) :
    (liftM x >>= f).run.events = x.events ++ (f x.value).run.events := by
  rw [events_bind, events_liftM, value_liftM]

end Attempt

end Log

end FlowRegions
