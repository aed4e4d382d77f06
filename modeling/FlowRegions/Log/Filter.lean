import FlowRegions.Log.Library

/-! # Filters made of directives

A filter is a list of directives, at most one for each scope, and a pattern that texts must match.
The directive with the longest module name that begins a record's target decides about it; without
one, the general directive does. Without any directive errors are shown.

A specification lists directives, separated by commas, and may have a pattern behind a slash. Pieces
that cannot be read are skipped; with a second slash nothing is read.
-/

namespace FlowRegions

namespace Log

/-- The threshold that a name denotes, in any case. -/
def Threshold.ofName? (name : String) : Option Threshold :=
  match name.toLower with
  | "off" => some none
  | "error" => some (some .error)
  | "warn" => some (some .warn)
  | "info" => some (some .info)
  | "debug" => some (some .debug)
  | "trace" => some (some .trace)
  | _ => none

/-- White space, which may surround a directive and the name of its threshold. -/
def isBlank (c : Char) : Bool :=
  ('\t' ≤ c && c ≤ '\r') || c = ' ' || c = '\x85' || c = '\xa0' || c = '\u1680' ||
    ('\u2000' ≤ c && c ≤ '\u200a') || c = '\u2028' || c = '\u2029' || c = '\u202f' ||
    c = '\u205f' || c = '\u3000'

/-- A text without the white space around it. -/
def trimBlanks (s : String) : String :=
  .ofList (((s.toList.dropWhile isBlank).reverse.dropWhile isBlank).reverse)

/-- The pieces of some characters between the places where a mark stands. -/
def splitMarks (mark : Char) : List Char → List (List Char)
  | [] => [[]]
  | c :: cs =>
    if c = mark then [] :: splitMarks mark cs
    else
      match splitMarks mark cs with
      | [] => [[c]]
      | piece :: pieces => (c :: piece) :: pieces

/-- The pieces of a text between the places where a mark stands. -/
def piecesOf (mark : Char) (s : String) : List String := (splitMarks mark s.toList).map .ofList

/-- A threshold for the targets of a module, or in general. -/
structure Directive where
  scope : Scope
  threshold : Threshold
deriving DecidableEq, Repr

/-- The directive that a piece of a specification denotes: a threshold, a module, or a module with
its threshold. A module without threshold is shown in full. -/
def Directive.ofText? (s : String) : Option Directive :=
  match piecesOf '=' s with
  | [single] =>
    match Threshold.ofName? single with
    | some t => some ⟨none, t⟩
    | none => some ⟨some single, some .trace⟩
  | [scope, name] =>
    let name := trimBlanks name
    if name.isEmpty then some ⟨some scope, some .trace⟩
    else (Threshold.ofName? name).map fun t => ⟨some scope, t⟩
  | _ => none

/-- A list of directives, at most one for each scope, and a pattern for the texts of records. -/
structure Filter where
  directives : List Directive
  pattern : Option String := none
deriving DecidableEq, Repr

namespace Filter

/-- The filter without directives. -/
def empty : Filter := ⟨[], none⟩

/-- The filter with a directive in place of the one for the same scope, if there is one. -/
def set (f : Filter) (d : Directive) : Filter :=
  if f.directives.any (·.scope = d.scope) then
    { f with directives := f.directives.map fun e => if e.scope = d.scope then d else e }
  else { f with directives := f.directives ++ [d] }

/-- The filter that has the directives of a text, separated by commas. -/
def ofDirectives (s : String) : Filter :=
  ((((piecesOf ',' s).map trimBlanks).filter fun piece => !piece.isEmpty).filterMap
    Directive.ofText?).foldl set empty

/-- The filter that a specification denotes. -/
def ofText (s : String) : Filter :=
  match piecesOf '/' s with
  | [directives] => ofDirectives directives
  | [directives, pattern] => { ofDirectives directives with pattern := some pattern }
  | _ => empty

/-- The filter that shows errors if there are no other directives. -/
def orErrors (f : Filter) : Filter :=
  if f.directives.isEmpty then { f with directives := [⟨none, some .error⟩] } else f

/-- The threshold for a scope. -/
def directed? (f : Filter) (scope : Scope) : Option Threshold :=
  (f.directives.reverse.find? (·.scope = scope)).map (·.threshold)

/-- The more specific one of the directive that leads and the next one, which leads in a tie. -/
def longer (leader : Option Directive) (d : Directive) : Option Directive :=
  match leader with
  | none => some d
  | some b => if b.scope.specificity ≤ d.scope.specificity then some d else some b

/-- The directive that decides about a target. -/
def deciding? (f : Filter) (target : String) : Option Directive :=
  (f.directives.filter (·.scope.covers target)).foldl longer none

/-- Whether a text matches the pattern. A pattern that cannot be understood is passed over. -/
def admits (matcher? : String → Option (String → Bool)) (f : Filter) (text : String) : Bool :=
  ((f.pattern.bind matcher?).map (· text)).getD true

/-- Whether a record is shown. -/
def shows (matcher? : String → Option (String → Bool)) (f : Filter) (r : Record) : Bool :=
  (f.orErrors.deciding? r.target).any (·.threshold.allows r.level) && f.admits matcher? r.text

end Filter

/-- Whether a character stands for more than itself in a pattern. -/
def isPatternSign (c : Char) : Bool :=
  ['\\', '.', '+', '*', '?', '(', ')', '|', '[', ']', '\x7b', '\x7d', '^', '$'].contains c

/-- A pattern in which every character stands for itself matches the texts that contain it. -/
def literal? (pattern : String) : Option (String → Bool) :=
  if pattern.toList.any isPatternSign then none
  else some fun text => (List.range (text.length + 1)).any fun i =>
    pattern.toList.isPrefixOf (text.toList.drop i)

end Log

end FlowRegions
