import Mathlib.Data.List.Dedup
import BuildScript.Proofs.Settlement

namespace BuildScript

namespace Table

variable {α : Type} {t : Table α} {f g : α → α} {i j : Nat}

theorem modify_comm (h : i = j → f ∘ g = g ∘ f) :
    (t.modify i f).modify j g = (t.modify j g).modify i f := by
  refine ext_get? (by simp) fun k ↦ ?_
  simp only [get?_modify]
  by_cases hi : i = k <;> by_cases hj : j = k <;> simp only [hi, hj, if_true, if_false]
  rw [Option.map_map, Option.map_map, h (hi.trans hj.symm)]

theorem modify_erase_comm : (t.modify i f).erase j = (t.erase j).modify i f := by
  refine ext_get? (by simp) fun k ↦ ?_
  simp only [get?_modify, get?_erase]
  by_cases hi : i = k <;> by_cases hj : j = k <;> simp [hi, hj]

theorem erase_comm (t : Table α) (i j : Nat) : (t.erase i).erase j = (t.erase j).erase i := by
  refine ext_get? (by simp) fun k ↦ ?_
  simp only [get?_erase]
  by_cases hi : i = k <;> by_cases hj : j = k <;> simp [hi, hj]

end Table

theorem Store.purge_comm (s : Store) (x y : NodeId) :
    (s.purge x).purge y = (s.purge y).purge x := by
  by_cases hxy : x = y
  · rw [hxy]
  · have hcomm := List.eraseP_comm (l := s.entries) (p := (·.node == x)) (q := (·.node == y))
      fun e _ ↦ by
        by_cases he : e.node = x
        · exact .inr (by simpa [he] using hxy)
        · exact .inl (by simpa using he)
    simp only [purge, hcomm]

namespace Document

variable {d : Document} {blocks : List NodeId} {discarded discarded' : List (NodeId × NodeId)}
  {p t b x y : NodeId} {n : Node}

theorem modifyStore_comm {f g : Store → Store} (h : f ∘ g = g ∘ f) :
    (d.modifyStore b f).modifyStore p g = (d.modifyStore p g).modifyStore b f := by
  simp only [modifyStore, Table.modify_comm fun _ ↦ h]

theorem purgeFrom_comm (d : Document) (x y : NodeId) (l l' : List NodeId) :
    (d.purgeFrom x l).purgeFrom y l' = (d.purgeFrom y l').purgeFrom x l := by
  have hstep : ∀ (d : Document) (b : NodeId),
      (d.modifyStore b (·.purge x)).purgeFrom y l' =
        (d.purgeFrom y l').modifyStore b (·.purge x) := by
    intro d b
    induction l' generalizing d with
    | nil => rfl
    | cons h l' ih =>
      have hcomm : (d.modifyStore b (·.purge x)).modifyStore h (·.purge y) =
          (d.modifyStore h (·.purge y)).modifyStore b (·.purge x) :=
        modifyStore_comm (funext fun s ↦ s.purge_comm y x)
      exact (congrArg (purgeFrom · y l') hcomm).trans (ih _)
  induction l generalizing d with
  | nil => rfl
  | cons b l ih => exact (ih _).trans (congrArg (purgeFrom · x l) (hstep d b))

def vacate (d : Document) (id : NodeId) : Document :=
  { d with nodes := d.nodes.erase id, stores := d.stores.erase id }

theorem evict_eq_vacate (h : d.node? x = some n) :
    d.evict x = (d.purgeFrom x n.holders).vacate x := by
  rw [evict_of_some h, vacate, (d.purgeFrom_fields x n.holders).1]

theorem vacate_comm (d : Document) (x y : NodeId) :
    (d.vacate x).vacate y = (d.vacate y).vacate x := by
  simp only [vacate, d.nodes.erase_comm x, d.stores.erase_comm x]

theorem purgeFrom_vacate (d : Document) (x y : NodeId) (l : List NodeId) :
    (d.vacate y).purgeFrom x l = (d.purgeFrom x l).vacate y := by
  induction l generalizing d with
  | nil => rfl
  | cons b l ih =>
    have hstep : (d.vacate y).modifyStore b (·.purge x) =
        (d.modifyStore b (·.purge x)).vacate y := by
      simp only [modifyStore, vacate, Table.modify_erase_comm]
    exact (congrArg (purgeFrom · x l) hstep).trans (ih _)

theorem evict_evict (d : Document) (x : NodeId) : (d.evict x).evict x = d.evict x :=
  evict_of_none (by simp)

theorem evict_comm (d : Document) (x y : NodeId) : (d.evict x).evict y = (d.evict y).evict x := by
  by_cases hxy : x = y
  · rw [hxy]
  have hx : (d.evict y).node? x = d.node? x := by rw [node?_evict, if_neg hxy]
  have hy : (d.evict x).node? y = d.node? y := by rw [node?_evict, if_neg (Ne.symm hxy)]
  cases hn : d.node? x with
  | none => rw [evict_of_none hn, evict_of_none (hx.trans hn)]
  | some n =>
    cases hm : d.node? y with
    | none => rw [evict_of_none hm, evict_of_none (hy.trans hm)]
    | some m =>
      rw [evict_eq_vacate (hy.trans hm), evict_eq_vacate (hx.trans hn), evict_eq_vacate hn,
        evict_eq_vacate hm]
      calc (((d.purgeFrom x n.holders).vacate x).purgeFrom y m.holders).vacate y
          = (((d.purgeFrom x n.holders).purgeFrom y m.holders).vacate x).vacate y := by
            rw [purgeFrom_vacate]
        _ = (((d.purgeFrom y m.holders).purgeFrom x n.holders).vacate y).vacate x := by
            rw [purgeFrom_comm, vacate_comm]
        _ = (((d.purgeFrom y m.holders).vacate y).purgeFrom x n.holders).vacate x := by
            rw [purgeFrom_vacate]

theorem foldl_evict_cons {l : List NodeId} (hx : x ∈ l) (d : Document) :
    (x :: l).foldl evict d = l.foldl evict d := by
  obtain ⟨l', hp⟩ : ∃ l', l.Perm (x :: l') := ⟨_, List.perm_cons_erase hx⟩
  have hcomm : RightCommutative evict := ⟨evict_comm⟩
  rw [List.foldl_cons, hp.foldl_eq, hp.foldl_eq, List.foldl_cons, List.foldl_cons, evict_evict]

theorem foldl_evict_congr {l l' : List NodeId} (h : ∀ x, x ∈ l ↔ x ∈ l') (d : Document) :
    l.foldl evict d = l'.foldl evict d := by
  have hdedup : ∀ (l : List NodeId) (d : Document), l.foldl evict d = l.dedup.foldl evict d := by
    intro l
    induction l with
    | nil => exact fun d ↦ rfl
    | cons x l ih =>
      intro d
      by_cases hx : x ∈ l
      · rw [foldl_evict_cons hx, List.dedup_cons_of_mem hx, ih]
      · rw [List.dedup_cons_of_notMem hx, List.foldl_cons, List.foldl_cons, ih]
  have hcomm : RightCommutative evict := ⟨evict_comm⟩
  have hp : l.dedup.Perm l'.dedup :=
    (List.perm_ext_iff_of_nodup l.nodup_dedup l'.nodup_dedup).mpr fun x ↦ by simpa using h x
  rw [hdedup l, hdedup l', hp.foldl_eq]

theorem releaseAll_congr (h : Linked d) (hd : ∀ bt, bt ∈ discarded ↔ bt ∈ discarded') :
    d.releaseAll discarded = d.releaseAll discarded' := by
  obtain ⟨l, he, hl⟩ := releaseAll_swept h discarded
  obtain ⟨l', he', hl'⟩ := releaseAll_swept h discarded'
  rw [he, he', foldl_evict_congr fun x ↦ ?_]
  rw [hl, hl']
  exact ⟨(·.mono fun _ ↦ (hd _).mp), (·.mono fun _ ↦ (hd _).mpr)⟩

/-- A reset comes to the same document in whatever order it goes through the blocks: the same nodes
with the same values and references, and the same stores in the same order. -/
theorem resetInOrder_eq_reset (hd : Reachable d) (hp : blocks.Perm d.stores.ids) :
    d.resetInOrder blocks = d.reset := by
  have hcomm : RightCommutative fun (d : Document) block ↦ d.modifyStore block Store.reset :=
    ⟨fun _ _ _ ↦ modifyStore_comm rfl⟩
  have hstores : blocks.foldl (fun d block ↦ d.modifyStore block Store.reset) d = d.resetStores :=
    hp.foldl_eq d
  have hreleased : d.resetStores.releaseAll (d.discards blocks) =
      d.resetStores.releaseAll (d.discards d.stores.ids) :=
    releaseAll_congr hd.linked.resetStores fun _ ↦ (hp.flatMap_right _).mem_iff
  calc d.resetInOrder blocks
      = ((blocks.foldl (fun d block ↦ d.modifyStore block Store.reset) d).releaseAll
          (d.discards blocks)).settleNodes := rfl
    _ = (d.resetStores.releaseAll (d.discards blocks)).settleNodes := by rw [hstores]
    _ = d.reset := by rw [hreleased, reset_eq]

/-- A staged block is moved and filled, and a borrowed literal is replaced through its overlay. The
overlay `3` comes first, then the staged block `6` and only then the root, which staged it. -/
theorem resetInOrder_eq_reset_staged :
    let edits : List Edit := [.replace 3 4 (.literal ⟨["version"]⟩ (.integer 2)),
      .add root { name := ⟨["signing"]⟩, kind := .block "signing" }, .moveTo root 6 0,
      .setNewLiteral 6 "keyAlias" (.string "release")]
    let d := edits.foldl (fun d edit ↦ (edit.run d).2) applicationDocument
    d.Reachable ∧ [3, 6, 1, 0].Perm d.stores.ids ∧ d.resetInOrder [3, 6, 1, 0] = d.reset := by
  intro edits d
  have hd : d.Reachable := List.foldlRecOn (motive := Reachable) _ _ reachable_applicationDocument
    fun _ h edit _ ↦ .edit edit h trivial
  have hp : [3, 6, 1, 0].Perm d.stores.ids := by decide
  exact ⟨hd, hp, resetInOrder_eq_reset hd hp⟩

end Document

end BuildScript
