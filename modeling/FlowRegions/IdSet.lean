import FlowRegions.Identifier

/-! # Sets of identifiers

A set of identifiers is kept as its strictly ascending list, so that there is one
representation of each set (`IdSet.ext`) and the members come in the order in which they are
shown. Every operation is pinned down by its members (`mem_insert`, `mem_union`, `mem_inter`,
`mem_sdiff`, `mem_filter`, `mem_ofList`), and no set has more members than there are
identifiers (`card_le`), which is what bounds every search.
-/

namespace FlowRegions

/-- A finite set of identifiers, as its strictly ascending list. -/
structure IdSet (κ : IdKind) where
  toList : List (DenseId κ)
  ascending : toList.Pairwise (· < ·)
deriving DecidableEq

/-- A set of vertices. -/
abbrev VertexSet := IdSet .vertex

/-- A set of hammocks. -/
abbrev HammockSet := IdSet .hammock

namespace IdSet

variable {κ : IdKind}

/-! ## Ascending lists -/

/-- Puts an identifier at its place in an ascending list, unless it is there already. -/
def insertAscending (a : DenseId κ) : List (DenseId κ) → List (DenseId κ)
  | [] => [a]
  | b :: l => if a < b then a :: b :: l else if b < a then b :: insertAscending a l else b :: l

/-- Merges two ascending lists and keeps one of two equal members. -/
def mergeAscending : List (DenseId κ) → List (DenseId κ) → List (DenseId κ)
  | [], m => m
  | a :: l, [] => a :: l
  | a :: l, b :: m =>
    if a < b then a :: mergeAscending l (b :: m)
    else if b < a then b :: mergeAscending (a :: l) m
    else a :: mergeAscending l m
termination_by l m => l.length + m.length

/-- The members that two ascending lists share. -/
def meetAscending : List (DenseId κ) → List (DenseId κ) → List (DenseId κ)
  | [], _ => []
  | _ :: _, [] => []
  | a :: l, b :: m =>
    if a < b then meetAscending l (b :: m)
    else if b < a then meetAscending (a :: l) m
    else a :: meetAscending l m
termination_by l m => l.length + m.length

theorem mem_insertAscending {a c : DenseId κ} {l : List (DenseId κ)} :
    c ∈ insertAscending a l ↔ c = a ∨ c ∈ l := by
  induction l with
  | nil => simp [insertAscending]
  | cons b l ih =>
    simp only [insertAscending]
    split
    · simp
    · split
      · simp only [List.mem_cons, ih]
        grind
      · next hab hba =>
        have := DenseId.eq_of_not_lt hab hba
        grind

theorem pairwise_insertAscending {a : DenseId κ} {l : List (DenseId κ)}
    (h : l.Pairwise (· < ·)) : (insertAscending a l).Pairwise (· < ·) := by
  induction l with
  | nil => simp [insertAscending]
  | cons b l ih =>
    rw [List.pairwise_cons] at h
    simp only [insertAscending]
    split
    · next hab =>
      refine List.pairwise_cons.2 ⟨fun c hc => ?_, List.pairwise_cons.2 h⟩
      rcases List.mem_cons.1 hc with rfl | hc
      · exact hab
      · exact DenseId.lt_trans hab (h.1 c hc)
    · split
      · next hba =>
        refine List.pairwise_cons.2 ⟨fun c hc => ?_, ih h.2⟩
        rcases mem_insertAscending.1 hc with rfl | hc
        · exact hba
        · exact h.1 c hc
      · exact List.pairwise_cons.2 h

theorem length_insertAscending {a : DenseId κ} {l : List (DenseId κ)} (h : a ∉ l) :
    (insertAscending a l).length = l.length + 1 := by
  induction l with
  | nil => rfl
  | cons b l ih =>
    simp only [insertAscending]
    split
    · rfl
    · split
      · simp [ih (fun hl => h (List.mem_cons_of_mem b hl))]
      · next hab hba =>
        exact absurd (DenseId.eq_of_not_lt hab hba ▸ List.mem_cons_self) h

theorem mem_mergeAscending {c : DenseId κ} {l m : List (DenseId κ)} :
    c ∈ mergeAscending l m ↔ c ∈ l ∨ c ∈ m := by
  fun_induction mergeAscending l m with
  | case1 m => simp
  | case2 a l => simp
  | case3 a l b m hab ih => simp only [List.mem_cons, ih]; grind
  | case4 a l b m hab hba ih => simp only [List.mem_cons, ih]; grind
  | case5 a l b m hab hba ih =>
    have := DenseId.eq_of_not_lt hab hba
    simp only [List.mem_cons, ih]
    grind

theorem pairwise_mergeAscending {l m : List (DenseId κ)} (hl : l.Pairwise (· < ·))
    (hm : m.Pairwise (· < ·)) : (mergeAscending l m).Pairwise (· < ·) := by
  fun_induction mergeAscending l m with
  | case1 m => exact hm
  | case2 a l => exact hl
  | case3 a l b m hab ih =>
    rw [List.pairwise_cons] at hl
    refine List.pairwise_cons.2 ⟨fun c hc => ?_, ih hl.2 hm⟩
    rcases mem_mergeAscending.1 hc with hc | hc
    · exact hl.1 c hc
    · rcases List.mem_cons.1 hc with rfl | hc
      · exact hab
      · exact DenseId.lt_trans hab ((List.pairwise_cons.1 hm).1 c hc)
  | case4 a l b m hab hba ih =>
    rw [List.pairwise_cons] at hm
    refine List.pairwise_cons.2 ⟨fun c hc => ?_, ih hl hm.2⟩
    rcases mem_mergeAscending.1 hc with hc | hc
    · rcases List.mem_cons.1 hc with rfl | hc
      · exact hba
      · exact DenseId.lt_trans hba ((List.pairwise_cons.1 hl).1 c hc)
    · exact hm.1 c hc
  | case5 a l b m hab hba ih =>
    have hab := DenseId.eq_of_not_lt hab hba
    subst hab
    rw [List.pairwise_cons] at hl hm
    refine List.pairwise_cons.2 ⟨fun c hc => ?_, ih hl.2 hm.2⟩
    rcases mem_mergeAscending.1 hc with hc | hc
    · exact hl.1 c hc
    · exact hm.1 c hc

theorem length_mergeAscending {l m : List (DenseId κ)} (h : ∀ a ∈ l, a ∉ m) :
    (mergeAscending l m).length = l.length + m.length := by
  fun_induction mergeAscending l m with
  | case1 m => simp
  | case2 a l => simp
  | case3 a l b m hab ih =>
    have := ih (fun c hc => h c (List.mem_cons_of_mem a hc))
    simp only [List.length_cons] at *
    omega
  | case4 a l b m hab hba ih =>
    have := ih (fun c hc hm => h c hc (List.mem_cons_of_mem b hm))
    simp only [List.length_cons] at *
    omega
  | case5 a l b m hab hba ih =>
    exact absurd (DenseId.eq_of_not_lt hab hba ▸ List.mem_cons_self) (h a List.mem_cons_self)

theorem mem_meetAscending {c : DenseId κ} {l m : List (DenseId κ)} (hl : l.Pairwise (· < ·))
    (hm : m.Pairwise (· < ·)) : c ∈ meetAscending l m ↔ c ∈ l ∧ c ∈ m := by
  fun_induction meetAscending l m with
  | case1 m => simp
  | case2 a l => simp
  | case3 a l b m hab ih =>
    have hbm := List.pairwise_cons.1 hm
    rw [ih (List.pairwise_cons.1 hl).2 hm, List.mem_cons, List.mem_cons]
    constructor
    · grind
    · rintro ⟨rfl | hc, hcm⟩
      · rcases hcm with rfl | hcm
        · exact absurd hab (DenseId.lt_irrefl _)
        · exact absurd hab (DenseId.lt_asymm (hbm.1 _ hcm))
      · exact ⟨hc, hcm⟩
  | case4 a l b m hab hba ih =>
    have hal := List.pairwise_cons.1 hl
    rw [ih hl (List.pairwise_cons.1 hm).2, List.mem_cons, List.mem_cons]
    constructor
    · grind
    · rintro ⟨hcl, rfl | hc⟩
      · rcases hcl with rfl | hcl
        · exact absurd hba (DenseId.lt_irrefl _)
        · exact absurd hba (DenseId.lt_asymm (hal.1 _ hcl))
      · exact ⟨hcl, hc⟩
  | case5 a l b m hab hba ih =>
    have hab := DenseId.eq_of_not_lt hab hba
    subst hab
    have hal := List.pairwise_cons.1 hl
    have ham := List.pairwise_cons.1 hm
    rw [List.mem_cons, List.mem_cons, List.mem_cons, ih hal.2 ham.2]
    grind

theorem pairwise_meetAscending {l m : List (DenseId κ)} (hl : l.Pairwise (· < ·))
    (hm : m.Pairwise (· < ·)) : (meetAscending l m).Pairwise (· < ·) := by
  fun_induction meetAscending l m with
  | case1 m => exact List.Pairwise.nil
  | case2 a l => exact List.Pairwise.nil
  | case3 a l b m hab ih => exact ih (List.pairwise_cons.1 hl).2 hm
  | case4 a l b m hab hba ih => exact ih hl (List.pairwise_cons.1 hm).2
  | case5 a l b m hab hba ih =>
    have hal := List.pairwise_cons.1 hl
    have hbm := List.pairwise_cons.1 hm
    refine List.pairwise_cons.2 ⟨fun c hc => ?_, ih hal.2 hbm.2⟩
    exact hal.1 c ((mem_meetAscending hal.2 hbm.2).1 hc).1

/-- Ascending lists do not repeat a member. -/
theorem nodup_of_ascending {l : List (DenseId κ)} (h : l.Pairwise (· < ·)) : l.Nodup := by
  apply h.imp
  intro a b hab
  rintro rfl
  exact DenseId.lt_irrefl a hab

/-- An ascending list whose members are at least `k` has at most `idCount - k` of them. -/
theorem length_le_of_ascending {l : List (DenseId κ)} (h : l.Pairwise (· < ·)) {k : Nat}
    (hk : ∀ a ∈ l, k ≤ a.index) : l.length ≤ idCount - k := by
  induction l generalizing k with
  | nil => simp
  | cons a l ih =>
    rw [List.pairwise_cons] at h
    have ha := hk a List.mem_cons_self
    have hl := ih h.2 (k := a.index + 1) fun b hb => DenseId.lt_iff_index_lt.1 (h.1 b hb)
    have := a.index_lt
    simp only [List.length_cons]
    omega

/-- Two ascending lists with the same members are the same list. -/
theorem eq_of_mem_iff {l m : List (DenseId κ)} (hl : l.Pairwise (· < ·)) (hm : m.Pairwise (· < ·))
    (h : ∀ a, a ∈ l ↔ a ∈ m) : l = m := by
  induction l generalizing m with
  | nil =>
    cases m with
    | nil => rfl
    | cons b m => exact absurd ((h b).2 List.mem_cons_self) (by simp)
  | cons a l ih =>
    cases m with
    | nil => exact absurd ((h a).1 List.mem_cons_self) (by simp)
    | cons b m =>
      rw [List.pairwise_cons] at hl hm
      have hab : a = b := by
        rcases List.mem_cons.1 ((h a).1 List.mem_cons_self) with rfl | ham
        · rfl
        · rcases List.mem_cons.1 ((h b).2 List.mem_cons_self) with rfl | hbl
          · rfl
          · exact absurd (hl.1 b hbl) (DenseId.lt_asymm (hm.1 a ham))
      subst hab
      congr 1
      refine ih hl.2 hm.2 fun c => ⟨fun hc => ?_, fun hc => ?_⟩
      · rcases List.mem_cons.1 ((h c).1 (List.mem_cons_of_mem a hc)) with rfl | hcm
        · exact absurd (hl.1 c hc) (DenseId.lt_irrefl c)
        · exact hcm
      · rcases List.mem_cons.1 ((h c).2 (List.mem_cons_of_mem a hc)) with rfl | hcl
        · exact absurd (hm.1 c hc) (DenseId.lt_irrefl c)
        · exact hcl

/-! ## Sets -/

instance : Membership (DenseId κ) (IdSet κ) := ⟨fun s a => a ∈ s.toList⟩

instance (a : DenseId κ) (s : IdSet κ) : Decidable (a ∈ s) :=
  inferInstanceAs (Decidable (a ∈ s.toList))

@[simp] theorem mem_toList {a : DenseId κ} {s : IdSet κ} : a ∈ s.toList ↔ a ∈ s := Iff.rfl

@[simp] theorem mem_mk {a : DenseId κ} {l : List (DenseId κ)} {h : l.Pairwise (· < ·)} :
    a ∈ (⟨l, h⟩ : IdSet κ) ↔ a ∈ l := Iff.rfl

/-- A set is determined by its members. -/
theorem ext {s t : IdSet κ} (h : ∀ a, a ∈ s ↔ a ∈ t) : s = t := by
  cases s with
  | mk l hl =>
    cases t with
    | mk m hm =>
      have : l = m := eq_of_mem_iff hl hm h
      subst this
      rfl

instance : EmptyCollection (IdSet κ) := ⟨⟨[], List.Pairwise.nil⟩⟩

instance : Inhabited (IdSet κ) := ⟨∅⟩

instance : Insert (DenseId κ) (IdSet κ) :=
  ⟨fun a s => ⟨insertAscending a s.toList, pairwise_insertAscending s.ascending⟩⟩

instance : Singleton (DenseId κ) (IdSet κ) := ⟨fun a => ⟨[a], List.pairwise_singleton _ a⟩⟩

instance : Union (IdSet κ) :=
  ⟨fun s t => ⟨mergeAscending s.toList t.toList, pairwise_mergeAscending s.ascending t.ascending⟩⟩

instance : Inter (IdSet κ) :=
  ⟨fun s t => ⟨meetAscending s.toList t.toList, pairwise_meetAscending s.ascending t.ascending⟩⟩

/-- The members that satisfy a test. -/
def filter (p : DenseId κ → Bool) (s : IdSet κ) : IdSet κ :=
  ⟨s.toList.filter p, s.ascending.filter p⟩

instance : SDiff (IdSet κ) := ⟨fun s t => s.filter (· ∉ t)⟩

instance : HasSubset (IdSet κ) := ⟨fun s t => ∀ a, a ∈ s → a ∈ t⟩

instance (s t : IdSet κ) : Decidable (s ⊆ t) := inferInstanceAs (Decidable (∀ a ∈ s.toList, a ∈ t))

/-- The set without one identifier. -/
def erase (s : IdSet κ) (a : DenseId κ) : IdSet κ := s.filter (· ≠ a)

/-- The set of the members of a list. -/
def ofList (l : List (DenseId κ)) : IdSet κ := l.foldr insert ∅

/-- The union of the sets that the members of a set are sent to. -/
def biUnion {κ' : IdKind} (s : IdSet κ) (f : DenseId κ → IdSet κ') : IdSet κ' :=
  s.toList.foldr (fun a u => f a ∪ u) ∅

/-- The number of members. -/
def card (s : IdSet κ) : Nat := s.toList.length

/-- Whether there are no members. -/
def isEmpty (s : IdSet κ) : Bool := s.toList.isEmpty

@[simp] theorem not_mem_empty (a : DenseId κ) : a ∉ (∅ : IdSet κ) := List.not_mem_nil

@[simp] theorem mem_insert {a b : DenseId κ} {s : IdSet κ} : a ∈ insert b s ↔ a = b ∨ a ∈ s :=
  mem_insertAscending

@[simp] theorem mem_singleton {a b : DenseId κ} : a ∈ ({b} : IdSet κ) ↔ a = b :=
  List.mem_singleton

@[simp] theorem mem_union {a : DenseId κ} {s t : IdSet κ} : a ∈ s ∪ t ↔ a ∈ s ∨ a ∈ t :=
  mem_mergeAscending

@[simp] theorem mem_inter {a : DenseId κ} {s t : IdSet κ} : a ∈ s ∩ t ↔ a ∈ s ∧ a ∈ t :=
  mem_meetAscending s.ascending t.ascending

@[simp] theorem mem_filter {a : DenseId κ} {p : DenseId κ → Bool} {s : IdSet κ} :
    a ∈ s.filter p ↔ a ∈ s ∧ p a = true := List.mem_filter

@[simp] theorem mem_sdiff {a : DenseId κ} {s t : IdSet κ} : a ∈ s \ t ↔ a ∈ s ∧ a ∉ t :=
  mem_filter.trans (and_congr_right fun _ => decide_eq_true_iff)

@[simp] theorem mem_erase {a b : DenseId κ} {s : IdSet κ} : a ∈ s.erase b ↔ a ∈ s ∧ a ≠ b :=
  mem_filter.trans (and_congr_right fun _ => decide_eq_true_iff)

@[simp] theorem mem_ofList {a : DenseId κ} {l : List (DenseId κ)} : a ∈ ofList l ↔ a ∈ l := by
  induction l with
  | nil => simp [ofList]
  | cons b l ih =>
    rw [ofList] at ih ⊢
    rw [List.foldr_cons, mem_insert, ih, List.mem_cons]

/-- The members of a set make up the set. -/
theorem ofList_toList (s : IdSet κ) : ofList s.toList = s := ext fun _ => mem_ofList

@[simp] theorem mem_biUnion {κ' : IdKind} {b : DenseId κ'} {s : IdSet κ}
    {f : DenseId κ → IdSet κ'} : b ∈ s.biUnion f ↔ ∃ a ∈ s, b ∈ f a := by
  rw [biUnion]
  change _ ↔ ∃ a ∈ s.toList, b ∈ f a
  generalize s.toList = l
  induction l with
  | nil => simp
  | cons a l ih => simp [ih]

@[simp] theorem isEmpty_iff {s : IdSet κ} : s.isEmpty = true ↔ s = ∅ := by
  rw [isEmpty, List.isEmpty_iff]
  constructor
  · intro h
    exact ext fun a => by rw [← mem_toList, h]; simp
  · rintro rfl
    rfl

@[simp] theorem card_empty : (∅ : IdSet κ).card = 0 := rfl

/-- No set has more members than there are identifiers. -/
theorem card_le (s : IdSet κ) : s.card ≤ idCount :=
  length_le_of_ascending s.ascending (k := 0) fun _ _ => Nat.zero_le _

theorem card_insert {a : DenseId κ} {s : IdSet κ} (h : a ∉ s) :
    (insert a s).card = s.card + 1 := length_insertAscending h

theorem card_union {s t : IdSet κ} (h : ∀ a ∈ s, a ∉ t) : (s ∪ t).card = s.card + t.card :=
  length_mergeAscending h

/-- A set consists of a part of it and of the rest. -/
theorem card_eq_add_card_sdiff {s t : IdSet κ} (h : s ⊆ t) : t.card = s.card + (t \ s).card := by
  have hunion : s ∪ (t \ s) = t := by
    refine ext fun a => ?_
    rw [mem_union, mem_sdiff]
    constructor
    · rintro (ha | ha)
      · exact h a ha
      · exact ha.1
    · intro ha
      by_cases hs : a ∈ s
      · exact .inl hs
      · exact .inr ⟨ha, hs⟩
  rw [← card_union fun a ha hd => (mem_sdiff.1 hd).2 ha, hunion]

theorem card_le_card {s t : IdSet κ} (h : s ⊆ t) : s.card ≤ t.card := by
  rw [card_eq_add_card_sdiff h]
  exact Nat.le_add_right _ _

theorem card_pos_of_not_isEmpty {s : IdSet κ} (h : ¬ s.isEmpty) : 0 < s.card := by
  cases s with
  | mk l hl =>
    cases l with
    | nil => exact absurd rfl h
    | cons a l => exact Nat.succ_pos _

/-- A part that is not smaller than the whole is the whole. -/
theorem eq_of_subset_of_card_le {s t : IdSet κ} (h : s ⊆ t) (hcard : t.card ≤ s.card) : s = t := by
  refine ext fun a => ⟨h a, fun ha => ?_⟩
  have hempty : (t \ s).isEmpty = true := by
    refine Decidable.of_not_not fun hne => ?_
    have hpos := card_pos_of_not_isEmpty hne
    rw [card_eq_add_card_sdiff h] at hcard
    omega
  refine Decidable.of_not_not fun hs => ?_
  have hmem : a ∈ t \ s := mem_sdiff.2 ⟨ha, hs⟩
  rw [isEmpty_iff.1 hempty] at hmem
  exact not_mem_empty a hmem

end IdSet

end FlowRegions
