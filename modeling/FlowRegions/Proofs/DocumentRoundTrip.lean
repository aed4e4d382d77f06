import FlowRegions.Document.Analysis
import FlowRegions.Document.Graph
import FlowRegions.Document.Net
import FlowRegions.Proofs.ReadBack

/-!
# Documents that are read back

Much of a text is forgotten when it is read as a document: the order of its fields, members that are
no fields, the order and the repetitions of the members of a set, escapes that were not needed.
What is left has one printed form. Identifiers, sets and records are plain values that decode to
what they were encoded from (`RoundTrip`), so reading the printed form gives the same again,
whatever the text was that had been read first.
-/

namespace FlowRegions

open Json

variable {κ : IdKind}

/-! ## Parts of documents -/

instance : RoundTrip (DenseId κ) where
  plain a := .natural a.index
  decode?_encode a := (if_pos a.index_lt).trans (congrArg some (DenseId.ofIndex_index a))

instance : RoundTrip (IdSet κ) where
  plain s := RoundTrip.plain s.toList
  decode?_encode s := by
    show (decode? (encode s.toList)).map IdSet.ofList = some s
    rw [RoundTrip.decode?_encode, Option.map_some, IdSet.ofList_toList]

instance : RoundTrip SweepMode where
  plain m := .text m.name
  decode?_encode m := by cases m <;> rfl

/-! ## Records -/

/-- An accepted field is what it has been written from. -/
@[simp] theorem required?_encode {α : Type} [Encode α] [Decode α] [RoundTrip α] (a : α) :
    required? (some (encode a)) = some a := RoundTrip.decode?_encode a

@[simp] theorem optional?_encode {α : Type} [Encode α] [Decode α] [RoundTrip α] (default a : α) :
    optional? default (some (encode a)) = some a := RoundTrip.decode?_encode a

instance : RoundTrip FlowArc where
  plain a := .record (by simp [RoundTrip.plain])
  decode?_encode a := by
    have hfields := fields?_record [("from", encode a.origin), ("to", encode a.target)] (by simp)
    exact (congrArg (Option.bind · _) hfields).trans (by simp)

instance : RoundTrip FlowNet where
  plain n := .record (by simp [RoundTrip.plain])
  decode?_encode n := by
    have hfields := fields?_record [("places", encode n.places),
      ("transitions", encode n.transitions), ("arcs", encode n.arcs)] (by simp)
    exact (congrArg (Option.bind · _) hfields).trans (by simp)

instance : RoundTrip GraphDocument where
  plain d := .record (by simp [RoundTrip.plain])
  decode?_encode d := by
    have hfields := fields?_record [("vertices", encode d.vertices), ("edges", encode d.edges)]
      (by simp)
    exact (congrArg (Option.bind · _) hfields).trans (by simp)

instance : RoundTrip BoundaryMask where
  plain m := .record (by simp [RoundTrip.plain])
  decode?_encode m := by
    have hfields := fields?_record [("vertices", encode m.vertices)] (by simp)
    exact (congrArg (Option.bind · _) hfields).trans (by simp)

instance : RoundTrip Config where
  plain c := .record (by simp [RoundTrip.plain])
  decode?_encode c := by
    have hfields := fields?_record [("sweep", encode c.sweep),
      ("collect_statistics", encode c.collectStatistics)] (by simp)
    exact (congrArg (Option.bind · _) hfields).trans (by simp)

/-! ## Texts -/

theorem FlowNet.ofText_print (n : FlowNet) : FlowNet.ofText (print n) = .ok n := by
  rw [FlowNet.ofText, read_print]

namespace Json

/-- Whatever is printed is read back, and whatever has been read from any text can be printed and
is then read again. -/
def ReadsAgain {ε α : Type} [Encode α] (parse : String → Except ε α) : Prop :=
  (∀ a, parse (print a) = .ok a) ∧ ∀ s a, parse s = .ok a → parse (print a) = .ok a

theorem readsAgain_of_print {ε α : Type} [Encode α] {parse : String → Except ε α}
    (h : ∀ a, parse (print a) = .ok a) : ReadsAgain parse := ⟨h, fun _ a _ => h a⟩

end Json

/-- The documents of nets, arcs, graphs, configurations, masks and identifiers are read back from
what is printed of them. So whatever a text has been that was read as one of them, what is printed
of it is read as the same. -/
theorem documents_read_back :
    ReadsAgain FlowNet.ofText ∧
      ReadsAgain (read : String → Except Fault FlowNet) ∧
      ReadsAgain (read : String → Except Fault GraphDocument) ∧
      ReadsAgain (read : String → Except Fault FlowArc) ∧
      ReadsAgain (read : String → Except Fault Config) ∧
      ReadsAgain (read : String → Except Fault BoundaryMask) ∧
      ReadsAgain (read : String → Except Fault VertexId) ∧
      ReadsAgain (read : String → Except Fault HammockId) :=
  ⟨readsAgain_of_print FlowNet.ofText_print, readsAgain_of_print read_print,
    readsAgain_of_print read_print, readsAgain_of_print read_print,
    readsAgain_of_print read_print, readsAgain_of_print read_print,
    readsAgain_of_print read_print, readsAgain_of_print read_print⟩

/-- The text of a net whose arcs come first, the only one as an array, with a member that is no
field, with names that are escaped without need, and without transitions. -/
def looseNet : String :=
  "\x7b\"arcs\":[[\"a\",\"\\u00e9\\n\"]],\"note\":[-1.5e3,\x7b\x7d]," ++
    "\"places\" : [\"\\ud83d\\ude00\"]\x7d"

/-- The text of the same net as it is printed. -/
def printedNet : String :=
  "\x7b\"places\":[\"😀\"],\"transitions\":[],\"arcs\":[\x7b\"from\":\"a\",\"to\":\"é\\n\"\x7d]\x7d"

/-- The loose text denotes the same net as the printed one, and a mask may repeat its vertices in
any order. -/
theorem loose_texts_read_again :
    FlowNet.ofText looseNet = .ok ⟨["😀"], [], [⟨"a", "é\n"⟩]⟩ ∧
      FlowNet.ofText printedNet = .ok ⟨["😀"], [], [⟨"a", "é\n"⟩]⟩ ∧
      (read "[[2, 0, 2]]" : Except Fault BoundaryMask) = .ok (.ofList [⟨0⟩, ⟨2⟩]) ∧
      (read "\x7b\"vertices\":[0,2]\x7d" : Except Fault BoundaryMask) =
        .ok (.ofList [⟨0⟩, ⟨2⟩]) := by
  have hnet : FlowNet.ofText looseNet = .ok ⟨["😀"], [], [⟨"a", "é\n"⟩]⟩ := by decide +kernel
  have hmask : (read "[[2, 0, 2]]" : Except Fault BoundaryMask) = .ok (.ofList [⟨0⟩, ⟨2⟩]) := by
    decide +kernel
  have hprinted : print (⟨["😀"], [], [⟨"a", "é\n"⟩]⟩ : FlowNet) = printedNet := by decide +kernel
  have hplain : print (.ofList [⟨0⟩, ⟨2⟩] : BoundaryMask) = "\x7b\"vertices\":[0,2]\x7d" := by
    decide +kernel
  obtain ⟨⟨_, hnets⟩, _, _, _, _, ⟨_, hmasks⟩, _⟩ := documents_read_back
  exact ⟨hnet, hprinted ▸ hnets _ _ hnet, hmask, hplain ▸ hmasks _ _ hmask⟩

end FlowRegions
