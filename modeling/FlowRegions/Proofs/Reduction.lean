import FlowRegions.Boundary.Minimal
import Mathlib.Data.Fintype.EquivFin
import Mathlib.Order.WellFounded

/-!
# Reducing an acyclic boundary relation

`Leads` is reachability by one pair or more, and a pair splits when it can be replaced by two such
steps. In an acyclic relation the search for a detour finds exactly the pairs that split
(`mem_redundantExits`), and removing the redundant exits of one entry changes neither what leads
where nor, therefore, which pairs split (`leads_reduceAt`). So the entries may be treated one after
the other, although each is judged by the relation as reduced so far (`mem_exits_minimal_iff`).
-/

namespace FlowRegions

/-- There are only finitely many identifiers. -/
instance {κ : IdKind} : Finite (DenseId κ) :=
  .of_injective (fun a => (⟨a.index, a.index_lt⟩ : Fin idCount)) fun _ _ h =>
    DenseId.index_inj.1 (Fin.mk.inj h)

namespace BoundaryRelation

open Log Relation

variable {r : BoundaryRelation} {s e m x y : VertexId}

/-- One pair or more leads from one vertex to another. -/
def Leads (r : BoundaryRelation) : VertexId → VertexId → Prop := TransGen fun a b => b ∈ r.exits a

/-- No vertex leads back to itself. -/
def Acyclic (r : BoundaryRelation) : Prop := ∀ v, ¬ r.Leads v v

/-- A vertex lies between the two. -/
def Splits (r : BoundaryRelation) (s e : VertexId) : Prop := ∃ m, r.Leads s m ∧ r.Leads m e

/-- What leads where is well-founded in an acyclic relation, as there are finitely many vertices. -/
theorem Acyclic.wellFounded (hr : r.Acyclic) : WellFounded r.Leads := by
  have htrans : IsTrans VertexId r.Leads := ⟨fun _ _ _ => TransGen.trans⟩
  have hirrefl : Std.Irrefl r.Leads := ⟨hr⟩
  exact Finite.wellFounded_of_trans_of_irrefl r.Leads

/-! ## Detours -/

/-- Behind a detour there is a vertex in between. -/
theorem splits_of_chain (hs : s ≠ e) (h : Search.Chain (r.stepsAvoiding s e) s e) :
    r.Splits s e := by
  have hleads : ∀ x, Search.Chain (r.stepsAvoiding s e) s x → s = x ∨ r.Leads s x := by
    intro x hx
    induction hx with
    | refl => exact .inl rfl
    | tail _ hstep ih =>
      have hpair := (mem_stepsAvoiding.1 hstep).1
      rcases ih with rfl | ih
      · exact .inr (.single hpair)
      · exact .inr (.tail ih hpair)
  cases h with
  | refl => exact absurd rfl hs
  | @tail m _ hm hstep =>
    obtain ⟨hpair, hdirect⟩ := mem_stepsAvoiding.1 hstep
    rcases hleads m hm with rfl | hsm
    · exact absurd ⟨rfl, rfl⟩ hdirect
    · exact ⟨m, hsm, .single hpair⟩

/-- The way to a vertex in between does not take the direct step: the exit would lead back to
itself. -/
theorem Acyclic.chain_to (hr : r.Acyclic) (hsx : r.Leads s x) (hxe : r.Leads x e) :
    Search.Chain (r.stepsAvoiding s e) s x := by
  induction hsx with
  | single hpair =>
    refine .tail .refl (mem_stepsAvoiding.2 ⟨hpair, ?_⟩)
    rintro ⟨_, rfl⟩
    exact hr _ hxe
  | tail _ hpair ih =>
    refine .tail (ih (.head hpair hxe)) (mem_stepsAvoiding.2 ⟨hpair, ?_⟩)
    rintro ⟨_, rfl⟩
    exact hr _ hxe

/-- The way on from a vertex in between does not take the direct step: the entry would lead back to
itself. -/
theorem Acyclic.chain_from (hr : r.Acyclic) (hsm : r.Leads s m) (hmy : r.Leads m y)
    (hchain : Search.Chain (r.stepsAvoiding s e) s m) :
    Search.Chain (r.stepsAvoiding s e) s y := by
  induction hmy with
  | single hpair =>
    refine hchain.tail (mem_stepsAvoiding.2 ⟨hpair, ?_⟩)
    rintro ⟨rfl, _⟩
    exact hr _ hsm
  | tail hmx hpair ih =>
    refine ih.tail (mem_stepsAvoiding.2 ⟨hpair, ?_⟩)
    rintro ⟨rfl, _⟩
    exact hr _ (hsm.trans hmx)

/-- In an acyclic relation the redundant exits are those whose pair splits. -/
theorem Acyclic.mem_redundantExits (hr : r.Acyclic) :
    e ∈ r.redundantExits s ↔ e ∈ r.exits s ∧ r.Splits s e := by
  rw [redundantExits, IdSet.mem_filter, reachesAvoidingDirect_iff]
  refine and_congr_right fun hpair => ⟨fun h => ?_, fun ⟨m, hsm, hme⟩ => ?_⟩
  · refine splits_of_chain ?_ h
    rintro rfl
    exact hr s (.single hpair)
  · exact hr.chain_from hsm hme (hr.chain_to hsm hme)

/-! ## The removal of one entry's redundant exits -/

theorem Acyclic.mem_exits_reduceAt (hr : r.Acyclic) :
    y ∈ (r.reduceAt s).value.exits x ↔ y ∈ r.exits x ∧ ¬ (x = s ∧ r.Splits x y) := by
  rw [reduceAt, exits_removeExits]
  by_cases hxs : x = s
  · subst hxs
    rw [if_pos rfl, IdSet.mem_sdiff, hr.mem_redundantExits]
    simp only [true_and, not_and]
    exact and_congr_right fun hy => ⟨fun h => h hy, fun h _ => h⟩
  · simp [hxs]

/-- Nothing is removed behind the entry. -/
theorem Acyclic.leads_reduceAt_behind (hr : r.Acyclic) (hsx : r.Leads s x) (hxy : r.Leads x y) :
    (r.reduceAt s).value.Leads x y := by
  induction hxy with
  | single hpair =>
    refine .single (hr.mem_exits_reduceAt.2 ⟨hpair, ?_⟩)
    rintro ⟨rfl, _⟩
    exact hr _ hsx
  | tail hxz hpair ih =>
    refine .tail ih (hr.mem_exits_reduceAt.2 ⟨hpair, ?_⟩)
    rintro ⟨rfl, _⟩
    exact hr _ (hsx.trans hxz)

/-- The exits of the entry are still led to: the first of those on the way to a removed one that
has none before it was kept. -/
theorem Acyclic.leads_reduceAt_exit (hr : r.Acyclic) (hy : y ∈ r.exits s) :
    (r.reduceAt s).value.Leads s y := by
  -- a removed exit has another exit before it, from which nothing behind has been removed
  induction y using hr.wellFounded.induction with
  | h y ih =>
    by_cases hsplit : r.Splits s y
    · obtain ⟨m, hsm, hmy⟩ := hsplit
      obtain ⟨z, hsz, hzm⟩ := TransGen.head'_iff.1 hsm
      have hzy : r.Leads z y := TransGen.trans_right hzm hmy
      exact (ih z hzy hsz).trans (hr.leads_reduceAt_behind (.single hsz) hzy)
    · exact .single (hr.mem_exits_reduceAt.2 ⟨hy, fun h => hsplit h.2⟩)

/-- Removing redundant exits changes nothing about what leads where. -/
theorem Acyclic.leads_reduceAt (hr : r.Acyclic) :
    (r.reduceAt s).value.Leads = r.Leads := by
  have hpair : ∀ a b, b ∈ r.exits a → (r.reduceAt s).value.Leads a b := by
    intro a b hab
    by_cases has : a = s
    · subst has
      exact hr.leads_reduceAt_exit hab
    · exact .single (hr.mem_exits_reduceAt.2 ⟨hab, fun h => has h.1⟩)
  funext x y
  refine propext ⟨fun h => ?_, fun h => ?_⟩
  · exact TransGen.mono (fun a b hab => (hr.mem_exits_reduceAt.1 hab).1) x y h
  · induction h with
    | single hab => exact hpair _ _ hab
    | tail _ hab ih => exact ih.trans (hpair _ _ hab)

theorem Acyclic.reduceAt (hr : r.Acyclic) (s : VertexId) : (r.reduceAt s).value.Acyclic := by
  intro v
  rw [hr.leads_reduceAt]
  exact hr v

theorem Acyclic.splits_reduceAt (hr : r.Acyclic) : (r.reduceAt s).value.Splits = r.Splits := by
  funext x y
  rw [Splits, Splits, hr.leads_reduceAt]

/-! ## The whole reduction -/

theorem value_foldlM_reduceAt (r : BoundaryRelation) (vs : List VertexId) :
    (vs.foldlM reduceAt r).value = vs.foldl (fun r v => (r.reduceAt v).value) r := by
  induction vs generalizing r with
  | nil => rfl
  | cons v vs ih => rw [List.foldlM_cons, Logged.value_bind, ih, List.foldl_cons]

/-- Treating entries one after the other removes exactly those of their pairs that split, and
leaves what leads where. -/
theorem Acyclic.foldl_reduceAt (hr : r.Acyclic) (vs : List VertexId) :
    (vs.foldl (fun r v => (r.reduceAt v).value) r).Leads = r.Leads ∧
      ∀ x y, y ∈ (vs.foldl (fun r v => (r.reduceAt v).value) r).exits x ↔
        y ∈ r.exits x ∧ ¬ (x ∈ vs ∧ r.Splits x y) := by
  -- entries still to come are judged by a relation in which the same leads where and splits
  induction vs generalizing r with
  | nil => simp
  | cons v vs ih =>
    obtain ⟨hleads, hexits⟩ := ih (hr.reduceAt v)
    refine ⟨hleads.trans hr.leads_reduceAt, fun x y => ?_⟩
    rw [List.foldl_cons, hexits, hr.mem_exits_reduceAt, hr.splits_reduceAt, List.mem_cons,
      and_assoc]
    refine and_congr_right fun _ => ?_
    tauto

theorem vertexCount_minimal (r : BoundaryRelation) : r.minimal.vertexCount = r.vertexCount := by
  rw [minimal, reduce, value_foldlM_reduceAt]
  generalize r.vertices = vs
  induction vs generalizing r with
  | nil => rfl
  | cons v vs ih => rw [List.foldl_cons, ih, vertexCount, reduceAt, removeExits,
      VertexTable.size_modify, vertexCount]

/-- Entries are in range. -/
theorem mem_vertices_of_mem_exits (h : y ∈ r.exits x) : x ∈ r.vertices := by
  rw [vertices, VertexTable.mem_vertices, ← Bool.not_eq_false]
  intro hrow
  rw [exits, VertexTable.getD_eq_default hrow] at h
  exact IdSet.not_mem_empty y h

/-- The reduction of an acyclic relation keeps exactly the pairs that do not split. -/
theorem Acyclic.mem_exits_minimal_iff (hr : r.Acyclic) :
    e ∈ r.minimal.exits s ↔ e ∈ r.exits s ∧ ¬ r.Splits s e := by
  rw [minimal, reduce, value_foldlM_reduceAt, (hr.foldl_reduceAt r.vertices).2]
  refine and_congr_right fun hpair => not_congr ?_
  exact ⟨fun h => h.2, fun h => ⟨mem_vertices_of_mem_exits hpair, h⟩⟩

/-- The reduction of an acyclic relation leaves what leads where. -/
theorem Acyclic.leads_minimal (hr : r.Acyclic) : r.minimal.Leads = r.Leads := by
  rw [minimal, reduce, value_foldlM_reduceAt, (hr.foldl_reduceAt r.vertices).1]

end BoundaryRelation

end FlowRegions
