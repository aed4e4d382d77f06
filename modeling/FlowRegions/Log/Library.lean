import FlowRegions.Log.Event

/-! # Libraries of loggers

Loggers are built with a library. A logger has a filter of directives, each with a threshold for the
targets of a module or for all targets, and with a condition on the texts of records. A
specification of directives and of a condition can be read as a filter.

What a library does is left open. What is relied on are its laws: that a directive takes the place
of one for the same module, and that the directive for the longest module name that begins a target
decides about the records with that target (`LoggerLibrary.Laws`). So one for all targets decides
only where none for a module does (`Laws.shows_general`, `Laws.decides_direct`).
-/

namespace FlowRegions

namespace Log

/-- The most detailed level that is shown; `none` shows nothing. -/
abbrev Threshold := Option Level

/-- Whether a threshold lets records of a level through. -/
def Threshold.allows : Threshold → Level → Bool
  | none, _ => false
  | some most, level => level.rank ≤ most.rank

/-- What a directive is about: the targets that begin with a module's name, or all of them. -/
abbrev Scope := Option String

namespace Scope

/-- Whether a target is in a scope. -/
def covers : Scope → String → Bool
  | none, _ => true
  | some m, target => m.toList.isPrefixOf target.toList

/-- How specific a scope is: the length of its module's name. -/
def specificity (s : Scope) : Nat := (s.map String.utf8ByteSize).getD 0

end Scope

/-- A library with which loggers are built. -/
structure LoggerLibrary where
  Filter : Type
  /-- The filter of a logger for which nothing has been directed. -/
  blank : Filter
  /-- The filter with one more directive. -/
  direct : Filter → Scope → Threshold → Filter
  /-- The filter that a specification describes. -/
  read : String → Filter
  /-- The threshold that has been directed for a scope. -/
  directed? : Filter → Scope → Option Threshold
  /-- Whether the text of a record meets the condition of a filter. -/
  admits : Filter → String → Bool
  /-- Whether a logger with a filter shows a record. -/
  shows : Filter → Record → Bool
  /-- How loggers lay out a record that are not told how to, apart from the time that they put
  before it. -/
  layout : Record → String
  /-- What the error stream displays of a text that is written to it. -/
  displayed : String → String

namespace LoggerLibrary

variable {lib : LoggerLibrary}

/-- A directive decides about a target: it covers the target, and all others that do are for shorter
module names. -/
structure Decides (lib : LoggerLibrary) (f : lib.Filter) (scope : Scope) (t : Threshold)
    (target : String) : Prop where
  directed : lib.directed? f scope = some t
  covers : scope.covers target = true
  shorter : ∀ other, (lib.directed? f other).isSome = true → other.covers target = true →
    other ≠ scope → other.specificity < scope.specificity

/-- What a library is relied on for. -/
structure Laws (lib : LoggerLibrary) : Prop where
  directed?_blank : ∀ scope, lib.directed? lib.blank scope = none
  admits_blank : ∀ text, lib.admits lib.blank text = true
  /-- A directive takes the place of the one for the same scope and leaves the others alone. -/
  directed?_direct : ∀ f scope t other, lib.directed? (lib.direct f scope t) other =
    if other = scope then some t else lib.directed? f other
  admits_direct : ∀ f scope t text, lib.admits (lib.direct f scope t) text = lib.admits f text
  /-- The name of a level is a directive for all targets. -/
  directed?_read_warn : ∀ scope, lib.directed? (lib.read "warn") scope =
    if scope = none then some (some .warn) else none
  admits_read_warn : ∀ text, lib.admits (lib.read "warn") text = true
  /-- The directive that decides about the target shows the records up to its threshold of which
  the text meets the condition. -/
  shows_of_decides : ∀ f scope t r, lib.Decides f scope t r.target →
    lib.shows f r = (t.allows r.level && lib.admits f r.text)

namespace Laws

variable {f : lib.Filter} {t : Threshold}

/-- Where no directive for a module covers the target, the one for all targets decides. -/
theorem shows_general (hlib : lib.Laws) {r : Record} (hdirected : lib.directed? f none = some t)
    (hmodules : ∀ m, (lib.directed? f (some m)).isSome = true →
      Scope.covers (some m) r.target = false) :
    lib.shows f r = (t.allows r.level && lib.admits f r.text) := by
  refine hlib.shows_of_decides f none t r ⟨hdirected, rfl, fun other hother hcovers hne => ?_⟩
  obtain ⟨m, rfl⟩ := Option.ne_none_iff_exists'.1 hne
  rw [hmodules m hother] at hcovers
  cases hcovers

/-- A directive for all targets leaves the decision to the one for a module. -/
theorem decides_direct (hlib : lib.Laws) {m target : String} (hm : m ≠ "") (general : Threshold)
    (h : lib.Decides f (some m) t target) :
    lib.Decides (lib.direct f none general) (some m) t target where
  directed := by rw [hlib.directed?_direct, if_neg (Option.some_ne_none m), h.directed]
  covers := h.covers
  shorter other hother hcovers hne := by
    by_cases hnone : other = none
    · subst hnone
      exact Nat.pos_of_ne_zero (mt String.utf8ByteSize_eq_zero_iff.1 hm)
    · rw [hlib.directed?_direct, if_neg hnone] at hother
      exact h.shorter other hother hcovers hne

end Laws

end LoggerLibrary

end Log

end FlowRegions
