import FlowRegions.Json.Codec
import FlowRegions.Proofs.TokenText
import Mathlib.Data.List.Nodup

/-!
# Reading what has been printed

What documents are printed from are plain values: their numbers are natural and their strings are
texts (`Value.Plain`). The text of a plain value is split into the tokens that it was made of
(`Plain.splitsOff`), and these are read as the value again, whatever is open around it
(`Plain.readsBack`). A type whose values are written plainly and decoded from what they are encoded
as is thus read back from its text (`read_print`), and this carries over from the parts of a
document to the whole: to lists, to pairs and to records (`fields?_record`).
-/

namespace FlowRegions

namespace Json

/-- The values that are read back from their text: those without numbers that are not natural and
without strings that are no texts. -/
inductive Value.Plain : Value → Prop where
  | null : Plain .null
  | bool (b : Bool) : Plain (.bool b)
  | natural (n : Nat) : Plain (.natural n)
  | text (s : String) : Plain (.text s)
  | array {items : List Value} (h : ∀ v ∈ items, Plain v) : Plain (.array items)
  | record {members : List (String × Value)} (h : ∀ m ∈ members, Plain m.2) :
    Plain (.record members)

namespace Value

variable {v : Value} {items : List Value} {members : List (String × Value)} {ts : List Token}
variable {stack : List Frame}

/-- The members of an object by their names. -/
def textMembers (members : List (String × Value)) : List (Content × Value) :=
  members.map fun m => (.text m.1, m.2)

/-! ## Tokens -/

/-- The tokens of a value are split off from whatever is no word. -/
def SplitsOff (v : Value) : Prop :=
  ∀ ts, Splits ts → (∀ u ∈ ts.head?, u.isWord = false) → Splits (v.tokens ++ ts)

/-- The items of an array are split off up to its end. -/
theorem splits_items (hv : v.SplitsOff) (hitems : ∀ u ∈ items, u.SplitsOff) (hts : Splits ts) :
    Splits (v.tokens ++ (itemTokens items ++ ts)) := by
  induction items generalizing v with
  | nil =>
    refine hv _ (hts.mark rfl rfl) ?_
    simp [itemTokens, Token.isWord]
  | cons u items ih =>
    obtain ⟨hu, hitems⟩ := List.forall_mem_cons.1 hitems
    rw [itemTokens, List.cons_append, List.append_assoc]
    refine hv _ ((ih hu hitems).mark rfl rfl) ?_
    simp [Token.isWord]

/-- The members of an object are split off up to its end. -/
theorem splits_members {m : String × Value} (hm : m.2.SplitsOff)
    (hmembers : ∀ n ∈ members, n.2.SplitsOff) (hts : Splits ts) :
    Splits (.string (.text m.1) :: .colon ::
      (m.2.tokens ++ (memberTokens (textMembers members) ++ ts))) := by
  induction members generalizing m with
  | nil =>
    refine .mark (.mark (hm _ (hts.mark rfl rfl) ?_) rfl rfl) rfl rfl
    simp [textMembers, memberTokens, Token.isWord]
  | cons n members ih =>
    obtain ⟨hn, hmembers⟩ := List.forall_mem_cons.1 hmembers
    rw [textMembers, List.map_cons, memberTokens, ← textMembers]
    simp only [List.cons_append, List.append_assoc]
    refine .mark (.mark (hm _ ((ih hn hmembers).mark rfl rfl) ?_) rfl rfl) rfl rfl
    simp [Token.isWord]

theorem Plain.splitsOff (hv : v.Plain) : v.SplitsOff := by
  induction hv with
  | null => exact fun ts hts hword => hts.cons rfl fun _ => hword
  | bool b => exact fun ts hts hword => hts.cons rfl fun _ => hword
  | natural n => exact fun ts hts hword => hts.cons rfl fun _ => hword
  | text s => exact fun ts hts _ => hts.mark rfl rfl
  | @array items h ih =>
    intro ts hts _
    cases items with
    | nil => exact (hts.mark rfl rfl).mark rfl rfl
    | cons v items =>
      obtain ⟨hv, hitems⟩ := List.forall_mem_cons.1 ih
      rw [tokens, List.cons_append, List.append_assoc]
      exact (splits_items hv hitems hts).mark rfl rfl
  | @record members h ih =>
    intro ts hts _
    cases members with
    | nil => exact (hts.mark rfl rfl).mark rfl rfl
    | cons m members =>
      obtain ⟨hm, hmembers⟩ := List.forall_mem_cons.1 ih
      rw [Value.record, List.map_cons, tokens, ← textMembers]
      simp only [List.cons_append, List.append_assoc]
      exact (splits_members hm hmembers hts).mark rfl rfl

/-! ## Reading -/

/-- The tokens of a value are read as this value, whatever is open around it. -/
def ReadsBack (v : Value) : Prop :=
  ∀ stack, v.tokens.foldlM State.next (.value stack) = some (.complete v stack)

/-- After an array has been opened a value is read like any of its items. -/
theorem foldlM_firstItem (v : Value) (ts : List Token) (stack : List Frame) :
    (v.tokens ++ ts).foldlM State.next (.firstItem stack) =
      (v.tokens ++ ts).foldlM State.next (.value (.array [] :: stack)) := by
  obtain ⟨t, us, htokens, hne⟩ : ∃ t us, v.tokens = t :: us ∧ t ≠ .closeArray := by
    cases v with
    | array items => cases items <;> simp [tokens]
    | object members => cases members <;> simp [tokens]
    | null | bool b | natural n | number w | string s => simp [tokens]
  have hfirst : (State.firstItem stack).next t = (State.value (.array [] :: stack)).next t := by
    cases t <;> first | rfl | exact absurd rfl hne
  rw [htokens, List.cons_append, List.foldlM_cons, List.foldlM_cons, hfirst]

/-- The items of an array are read up to its end. -/
theorem foldlM_items {done : List Value} (hv : v.ReadsBack) (hitems : ∀ u ∈ items, u.ReadsBack) :
    (v.tokens ++ itemTokens items).foldlM State.next (.value (.array done :: stack)) =
      some (.complete (.array (done.reverse ++ v :: items)) stack) := by
  induction items generalizing v done with
  | nil =>
    rw [List.foldlM_append, hv, itemTokens]
    simp [State.next, State.leave]
  | cons u items ih =>
    obtain ⟨hu, hitems⟩ := List.forall_mem_cons.1 hitems
    rw [List.foldlM_append, hv, itemTokens]
    refine (ih hu hitems).trans ?_
    rw [List.reverse_cons, List.append_assoc, List.singleton_append]

/-- The members of an object are read up to its end. -/
theorem foldlM_members {done : List (Content × Value)} {m : String × Value} (hm : m.2.ReadsBack)
    (hmembers : ∀ n ∈ members, n.2.ReadsBack) :
    (m.2.tokens ++ memberTokens (textMembers members)).foldlM State.next
        (.value (.object done (.text m.1) :: stack)) =
      some (.complete (.object (done.reverse ++ textMembers (m :: members))) stack) := by
  induction members generalizing m done with
  | nil =>
    rw [List.foldlM_append, hm]
    simp [textMembers, memberTokens, State.next, State.leave]
  | cons n members ih =>
    obtain ⟨hn, hmembers⟩ := List.forall_mem_cons.1 hmembers
    rw [List.foldlM_append, hm, textMembers, List.map_cons, memberTokens, ← textMembers]
    refine (ih hn hmembers).trans ?_
    simp [textMembers]

theorem Plain.readsBack (hv : v.Plain) : v.ReadsBack := by
  induction hv with
  | null | bool b | natural n | text s => exact fun stack => rfl
  | @array items h ih =>
    intro stack
    cases items with
    | nil => rfl
    | cons v items =>
      obtain ⟨hv, hitems⟩ := List.forall_mem_cons.1 ih
      rw [tokens]
      exact (foldlM_firstItem v _ stack).trans (foldlM_items hv hitems)
  | @record members h ih =>
    intro stack
    cases members with
    | nil => rfl
    | cons m members =>
      obtain ⟨hm, hmembers⟩ := List.forall_mem_cons.1 ih
      rw [Value.record, List.map_cons, tokens]
      exact foldlM_members hm hmembers

/-- Values without odd numbers and strings are read back from their text. -/
theorem Plain.ofText?_compact (hv : v.Plain) : Value.ofText? v.compact = some v := by
  have hsplit := hv.splitsOff [] splits_nil nofun
  rw [List.append_nil, Splits] at hsplit
  rw [Value.ofText?, compact, String.toList_ofList, hsplit, Option.bind_some, ofTokens?,
    hv.readsBack]

end Value

/-! ## Fields -/

theorem mapM_text?_textMembers (members : List (String × Value)) :
    (Value.textMembers members).mapM (fun m => m.1.text?.map fun k => (k, m.2)) =
      some members := by
  induction members with
  | nil => rfl
  | cons m members ih =>
    rw [Value.textMembers, List.map_cons, List.mapM_cons, ← Value.textMembers, ih]
    rfl

theorem lookup_of_nodup {members : List (String × Value)} (h : (members.map Prod.fst).Nodup)
    {m : String × Value} (hm : m ∈ members) : List.lookup m.1 members = some m.2 := by
  induction members with
  | nil => cases hm
  | cons n members ih =>
    obtain ⟨hn, hmembers⟩ := List.nodup_cons.1 h
    obtain ⟨name, v⟩ := n
    rw [List.lookup_cons]
    rcases List.mem_cons.1 hm with rfl | hm
    · simp
    · have hmem : m.1 ∈ members.map Prod.fst := List.mem_map_of_mem hm
      have hne : m.1 ≠ name := fun heq => hn (heq ▸ hmem)
      rw [beq_false_of_ne hne]
      exact ih hmembers hm

/-- The fields of a record are found by their names, in whatever order and among whatever other
members, if no two members have the same name. -/
theorem fields?_eq_lookup (names : List String) {members : List (String × Value)}
    (h : (members.map Prod.fst).Nodup) :
    fields? names (.record members) =
      some (names.map fun name => List.lookup name members) := by
  have honce : (names.all fun name =>
      decide ((members.filter (·.1 = name)).length ≤ 1)) = true := by
    refine List.all_eq_true.2 fun name _ => decide_eq_true ?_
    have hcount := List.nodup_iff_count_le_one.1 h name
    rw [List.count, List.countP_map, List.countP_eq_length_filter] at hcount
    exact hcount
  have hnamed := mapM_text?_textMembers members
  rw [Value.record, ← Value.textMembers, fields?, hnamed, Option.bind_eq_bind, Option.bind_some,
    if_pos honce]

/-- A record that consists of its fields gives each of them. -/
theorem fields?_record (members : List (String × Value)) (h : (members.map Prod.fst).Nodup) :
    fields? (members.map Prod.fst) (.record members) =
      some (members.map fun m => some m.2) := by
  rw [fields?_eq_lookup _ h, List.map_map]
  exact congrArg some (List.map_congr_left fun m hm => lookup_of_nodup h hm)

/-! ## Documents -/

/-- The documents of a type are read back from what is written of them. -/
class RoundTrip (α : Type) [Encode α] [Decode α] : Prop where
  plain : ∀ a : α, (encode a).Plain
  decode?_encode : ∀ a : α, decode? (encode a) = some a

section

variable {α β : Type} [Encode α] [Decode α] [Encode β] [Decode β]

/-- What has been printed of a document is a text of this document. -/
theorem read_print [RoundTrip α] (a : α) : read (print a) = .ok a := by
  rw [read, print, (RoundTrip.plain a).ofText?_compact]
  simp only [RoundTrip.decode?_encode]

theorem mapM_decode?_encode [RoundTrip α] (as : List α) :
    (as.map encode).mapM decode? = some as := by
  induction as with
  | nil => rfl
  | cons a as ih =>
    rw [List.map_cons, List.mapM_cons, RoundTrip.decode?_encode, ih]
    rfl

instance : RoundTrip Bool where
  plain := .bool
  decode?_encode _ := rfl

instance : RoundTrip String where
  plain := .text
  decode?_encode _ := rfl

instance : RoundTrip UInt64 where
  plain n := .natural n.toNat
  decode?_encode n := (if_pos n.toNat_lt).trans (congrArg some n.ofNat_toNat)

instance [RoundTrip α] : RoundTrip (List α) where
  plain _ := .array (List.forall_mem_map.2 fun a _ => RoundTrip.plain a)
  decode?_encode := mapM_decode?_encode

instance [RoundTrip α] [RoundTrip β] : RoundTrip (α × β) where
  plain p := .array (List.forall_mem_cons.2
    ⟨RoundTrip.plain p.1, List.forall_mem_singleton.2 (RoundTrip.plain p.2)⟩)
  decode?_encode p := by
    show (do return (← decode? (encode p.1), ← decode? (encode p.2))) = some p
    rw [RoundTrip.decode?_encode, RoundTrip.decode?_encode]
    rfl

end

end Json

end FlowRegions
