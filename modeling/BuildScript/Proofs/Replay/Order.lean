import BuildScript.Proofs.Store.Staging
import Mathlib.Data.List.Nodup
import Mathlib.Data.List.Perm.Subperm

namespace BuildScript.Order

variable {old new l rest kept : List NodeId} {a b c x y : NodeId} {p moved : NodeId → Bool}

def relocate (order : List NodeId) (node : NodeId) (index : Nat) : List NodeId :=
  (order.erase node).insertIdx index node

def replay (order : List NodeId) (moves : List (NodeId × Nat)) : List NodeId :=
  moves.foldl (fun l m ↦ relocate l m.1 m.2) order

def replayTo (new : List NodeId) (old moves : List NodeId) : List NodeId :=
  moves.foldl (fun l m ↦ relocate l m (new.idxOf m)) old

/-- No node that stays has a moved one put behind it and yet in front of a moved one that stood
before it. -/
def Uncrossed (old new moved : List NodeId) : Prop :=
  ∀ s ∈ old, ∀ y ∈ moved, ∀ z ∈ moved, s ∉ moved → new.idxOf s < new.idxOf y →
    new.idxOf y < new.idxOf z → old.idxOf s < old.idxOf z

instance (old new moved : List NodeId) : Decidable (Uncrossed old new moved) :=
  inferInstanceAs (Decidable (∀ s ∈ old, ∀ y ∈ moved, ∀ z ∈ moved, _ → _ → _ → _))

theorem replay_map (new old moves : List NodeId) :
    replay old (moves.map fun m ↦ (m, new.idxOf m)) = replayTo new old moves :=
  List.foldl_map

theorem pair_sublist_iff (hl : l.Nodup) (ha : a ∈ l) (hb : b ∈ l) :
    [a, b].Sublist l ↔ l.idxOf a < l.idxOf b := by
  induction l with
  | nil => simp at ha
  | cons x l ih =>
    obtain ⟨hx, hl⟩ := List.nodup_cons.mp hl
    by_cases hxa : x = a
    · subst hxa
      rw [List.cons_sublist_cons, List.singleton_sublist, List.idxOf_cons_self]
      by_cases hxb : x = b
      · subst hxb
        simp [hx]
      · rw [List.idxOf_cons_ne _ hxb]
        simpa using (List.mem_cons.mp hb).resolve_left (Ne.symm hxb)
    · have ha' := (List.mem_cons.mp ha).resolve_left (Ne.symm hxa)
      have hskip : [a, b].Sublist (x :: l) ↔ [a, b].Sublist l := by
        refine ⟨fun h ↦ ?_, fun h ↦ h.cons x⟩
        cases h with
        | cons _ h => exact h
        | cons_cons _ h => exact absurd rfl hxa
      rw [hskip, List.idxOf_cons_ne _ hxa]
      by_cases hxb : x = b
      · subst hxb
        rw [List.idxOf_cons_self]
        exact iff_of_false (fun h ↦ hx (h.subset (by simp))) (Nat.not_lt_zero _)
      · have hb' := (List.mem_cons.mp hb).resolve_left (Ne.symm hxb)
        rw [List.idxOf_cons_ne _ hxb, ih hl ha' hb']
        omega

theorem pair_sublist_or (hl : l.Nodup) (ha : a ∈ l) (hb : b ∈ l) (hne : a ≠ b) :
    [a, b].Sublist l ∨ [b, a].Sublist l := by
  rw [pair_sublist_iff hl ha hb, pair_sublist_iff hl hb ha]
  have hidx : l.idxOf a ≠ l.idxOf b := fun h ↦ hne ((List.idxOf_inj ha).mp h)
  omega

theorem pair_sublist_trans (hl : l.Nodup) (hab : [a, b].Sublist l) (hbc : [b, c].Sublist l) :
    [a, c].Sublist l := by
  have ha : a ∈ l := hab.subset (by simp)
  have hb : b ∈ l := hab.subset (by simp)
  have hc : c ∈ l := hbc.subset (by simp)
  rw [pair_sublist_iff hl ha hb] at hab
  rw [pair_sublist_iff hl hb hc] at hbc
  exact (pair_sublist_iff hl ha hc).mpr (Nat.lt_trans hab hbc)

theorem pair_sublist_asymm (hl : l.Nodup) (hab : [a, b].Sublist l) : ¬ [b, a].Sublist l := by
  intro hba
  have ha : a ∈ l := hab.subset (by simp)
  have hb : b ∈ l := hab.subset (by simp)
  rw [pair_sublist_iff hl ha hb] at hab
  rw [pair_sublist_iff hl hb ha] at hba
  omega

theorem pair_sublist_filter (ha : p a) (hb : p b) :
    [a, b].Sublist (l.filter p) ↔ [a, b].Sublist l := by
  refine ⟨fun h ↦ h.trans List.filter_sublist, fun h ↦ ?_⟩
  simpa [ha, hb] using h.filter p

theorem filter_erase (hp : p x = false) : (l.erase x).filter p = l.filter p := by
  induction l with
  | nil => rfl
  | cons y l ih =>
    by_cases hxy : y = x
    · subst hxy
      simp [hp]
    · rw [List.erase_cons_tail (by simpa using hxy)]
      simp [List.filter_cons, ih]

theorem filter_relocate (hp : p x = false) (k : Nat) : (relocate l x k).filter p = l.filter p := by
  rw [relocate, Store.filter_insertIdx_of_neg hp, filter_erase hp]

theorem filter_replayTo (new : List NodeId) {moves : List NodeId} (hp : ∀ m ∈ moves, p m = false) :
    (replayTo new l moves).filter p = l.filter p := by
  induction moves generalizing l with
  | nil => rfl
  | cons m moves ih =>
    have hrest := ih (l := relocate l m (new.idxOf m)) fun x hx ↦ hp x (List.mem_cons_of_mem _ hx)
    exact hrest.trans (filter_relocate (hp m List.mem_cons_self) _)

section Sufficient

variable {back W : List NodeId}

/-- Where no node of a kind stands behind one of another kind, the kind comes first. -/
theorem eq_filter_append_filter (h : l.Pairwise fun a b ↦ p b → p a) :
    l = l.filter p ++ l.filter (!p ·) := by
  induction l with
  | nil => rfl
  | cons x l ih =>
    obtain ⟨hx, hl⟩ := List.pairwise_cons.mp h
    by_cases hpx : p x
    · simpa [List.filter_cons, hpx] using ih hl
    · have hnone : ∀ y ∈ l, p y = false := fun y hy ↦ by simpa using mt (hx y hy) hpx
      have hp : l.filter p = [] := by simpa using hnone
      have hnp : l.filter (!p ·) = l := List.filter_eq_self.mpr fun y hy ↦ by simp [hnone y hy]
      simp [hpx, hp, hnp]

theorem pairwise_of_pair_sublist {R : NodeId → NodeId → Prop}
    (h : ∀ a b, [a, b].Sublist l → R a b) : l.Pairwise R :=
  List.pairwise_iff_forall_sublist.mpr fun {a b} hab ↦ h a b hab

theorem insertIdx_length (x : NodeId) : (l ++ rest).insertIdx l.length x = l ++ x :: rest := by
  induction l with
  | nil => rfl
  | cons y l ih => rw [List.cons_append, List.length_cons, List.insertIdx_succ_cons, ih]; rfl

/-- What stands behind the settled front of the order while the replay runs: the staying nodes of
the rest in their order, and some of its moved ones among them. -/
structure Pending (moved : NodeId → Bool) (back W : List NodeId) : Prop where
  nodup : W.Nodup
  subset : W ⊆ back
  stays : W.filter (!moved ·) = back.filter (!moved ·)
  uncrossed : ∀ s y z, moved s = false → moved y → moved z → [s, y].Sublist back →
    [y, z].Sublist back → z ∈ W → [s, z].Sublist W

/-- The nodes in front of the first moved one already stand in front of all that is still to be
moved. -/
theorem Pending.pair {T : List NodeId} {m : NodeId} (h : Pending moved (T ++ m :: rest) W)
    (hT : ∀ t ∈ T, moved t = false) (hm : moved m) {t a : NodeId}
    (ht : t ∈ T) (ha : a ∈ W) (haT : a ∉ T) (ham : a ≠ m) : [t, a].Sublist W := by
  have harest : a ∈ rest := by
    have := h.subset ha
    simp only [List.mem_append, List.mem_cons] at this
    tauto
  by_cases hma : moved a
  · refine h.uncrossed t m a (hT t ht) hm hma ?_ ?_ ha
    · exact (List.singleton_sublist.mpr ht).append (List.singleton_sublist.mpr List.mem_cons_self)
    · exact ((List.singleton_sublist.mpr harest).cons_cons m).trans
        (List.sublist_append_right T _)
  · have hta : [t, a].Sublist (T ++ m :: rest) :=
      (List.singleton_sublist.mpr ht).append
        (List.singleton_sublist.mpr (List.mem_cons_of_mem _ harest))
    have hstay := (pair_sublist_filter (p := (!moved ·)) (by simpa using hT t ht)
      (by simpa using hma)).mpr hta
    rw [← h.stays] at hstay
    exact hstay.trans List.filter_sublist

theorem Pending.erase_eq {T : List NodeId} {m : NodeId} (h : Pending moved (T ++ m :: rest) W)
    (hnd : (T ++ m :: rest).Nodup) (hT : ∀ t ∈ T, moved t = false) (hm : moved m) :
    W.erase m = T ++ (W.erase m).filter (· ∉ T) := by
  have hmT : m ∉ T := fun hmem ↦ by simp [hT m hmem] at hm
  have hpw : (W.erase m).Pairwise fun a b ↦ decide (b ∈ T) → decide (a ∈ T) := by
    refine pairwise_of_pair_sublist fun a b hab ↦ ?_
    simp only [decide_eq_true_eq]
    intro hb
    by_contra ha
    have hmem : a ∈ W.erase m := hab.subset (by simp)
    obtain ⟨ham, haW⟩ := (h.nodup.mem_erase_iff).mp hmem
    exact pair_sublist_asymm h.nodup (h.pair hT hm hb haW ha ham)
      (hab.trans List.erase_sublist)
  have hfront : (W.erase m).filter (· ∈ T) = T := by
    have hback : (T ++ m :: rest).filter (· ∈ T) = T := by
      obtain ⟨-, -, hdisj⟩ := List.nodup_append.mp hnd
      have hself : T.filter (· ∈ T) = T := List.filter_eq_self.mpr fun t ht ↦ by simpa using ht
      have hrest : (m :: rest).filter (· ∈ T) = [] := by
        simp only [List.filter_eq_nil_iff, decide_eq_true_eq]
        exact fun x hx hxT ↦ hdisj x hxT x hx rfl
      rw [List.filter_append, hself, hrest, List.append_nil]
    have hunmoved : ∀ l : List NodeId,
        (l.filter (!moved ·)).filter (· ∈ T) = l.filter (· ∈ T) := by
      intro l
      rw [List.filter_filter]
      refine List.filter_congr fun x _ ↦ ?_
      by_cases hx : x ∈ T
      · simp [hx, hT x hx]
      · simp [hx]
    rw [filter_erase (by simpa using hmT), ← hunmoved W, h.stays, hunmoved, hback]
  have hsplit := eq_filter_append_filter hpw
  rw [hfront] at hsplit
  simpa using hsplit

theorem Pending.next {T : List NodeId} {m : NodeId} (h : Pending moved (T ++ m :: rest) W)
    (hnd : (T ++ m :: rest).Nodup) (hT : ∀ t ∈ T, moved t = false) (hm : moved m) :
    Pending moved rest ((W.erase m).filter (· ∉ T)) := by
  have hsub : ((W.erase m).filter (· ∉ T)).Sublist W :=
    List.filter_sublist.trans List.erase_sublist
  have hmem : ∀ {x}, x ∈ (W.erase m).filter (· ∉ T) ↔ x ∈ W ∧ x ≠ m ∧ x ∉ T := by
    intro x
    rw [List.mem_filter, h.nodup.mem_erase_iff, decide_eq_true_eq]
    tauto
  have hout : ∀ {x}, x ∈ rest → x ≠ m ∧ x ∉ T := by
    intro x hx
    obtain ⟨-, hndm, hdisj⟩ := List.nodup_append.mp hnd
    refine ⟨fun hxm ↦ (List.nodup_cons.mp hndm).1 (hxm ▸ hx), fun hxT ↦ ?_⟩
    exact hdisj x hxT x (List.mem_cons_of_mem _ hx) rfl
  have hinc : rest.Sublist (T ++ m :: rest) :=
    (List.sublist_cons_self m rest).trans (List.sublist_append_right T _)
  refine ⟨h.nodup.sublist hsub, fun x hx ↦ ?_, ?_, fun s y z hs hy hz hsy hyz hzW ↦ ?_⟩
  · obtain ⟨hxW, hxm, hxT⟩ := hmem.mp hx
    have := h.subset hxW
    simp only [List.mem_append, List.mem_cons] at this
    tauto
  · have hstays := h.stays
    rw [← filter_erase (p := (!moved ·)) (x := m) (by simpa using hm), h.erase_eq hnd hT hm,
      List.filter_append, List.filter_append, List.filter_cons_of_neg (by simpa using hm)] at hstays
    exact List.append_cancel_left hstays
  · have hsz := h.uncrossed s y z hs hy hz (hsy.trans hinc) (hyz.trans hinc) (hmem.mp hzW).1
    obtain ⟨hsm, hsT⟩ := hout (x := s) (hsy.subset (by simp))
    obtain ⟨hzm, hzT⟩ := hout (x := z) (hyz.subset (by simp))
    have herase := hsz.erase m
    rw [List.erase_of_not_mem (by simp [Ne.symm hsm, Ne.symm hzm])] at herase
    exact (pair_sublist_filter (by simpa using hsT) (by simpa using hzT)).mpr herase

/-- The replay lengthens the settled front node by node until it is the whole order. -/
theorem replayTo_pending (front : List NodeId) (hnd : (front ++ back).Nodup)
    (h : Pending moved back W) :
    replayTo (front ++ back) (front ++ W) (back.filter moved) = front ++ back := by
  generalize hms : back.filter moved = ms
  -- The induction is on the moves left; each closes the gap up to the next moved node.
  induction ms generalizing front back W with
  | nil =>
    have hnone : ∀ x ∈ back, moved x = false := by simpa using hms
    have hall : ∀ l : List NodeId, l ⊆ back → l.filter (!moved ·) = l := fun l hl ↦
      List.filter_eq_self.mpr fun x hx ↦ by simp [hnone x (hl hx)]
    have hW : W = back := by
      rw [← hall W h.subset, h.stays, hall back (List.Subset.refl _)]
    simp [replayTo, hW]
  | cons m ms ih =>
    obtain ⟨T, rest, rfl, hT, hm, hrest⟩ := List.filter_eq_cons_iff.mp hms
    replace hT : ∀ t ∈ T, moved t = false := fun t ht ↦ by simpa using hT t ht
    have hndb : (T ++ m :: rest).Nodup := (List.nodup_append.mp hnd).2.1
    have hmfront : m ∉ front := fun hf ↦
      (List.nodup_append.mp hnd).2.2 m hf m (by simp) rfl
    have hmT : m ∉ T := fun hmem ↦ by simp [hT m hmem] at hm
    have hidx : (front ++ (T ++ m :: rest)).idxOf m = (front ++ T).length := by
      rw [← List.append_assoc, List.idxOf_append_of_notMem (by simp [hmfront, hmT]),
        List.idxOf_cons_self, Nat.add_zero]
    have hstep : relocate (front ++ W) m ((front ++ (T ++ m :: rest)).idxOf m) =
        (front ++ T ++ [m]) ++ (W.erase m).filter (· ∉ T) := by
      rw [relocate, List.erase_append_right _ hmfront, h.erase_eq hndb hT hm, hidx,
        ← List.append_assoc, insertIdx_length]
      simp
    have hfront : front ++ (T ++ m :: rest) = (front ++ T ++ [m]) ++ rest := by simp
    have hnext := ih (front ++ T ++ [m]) (by rwa [← hfront])
      (h.next hndb hT hm) hrest
    rw [replayTo, List.foldl_cons, hstep, hfront]
    exact hnext

end Sufficient

section Necessary

theorem idxOf_insertIdx_of_lt {k : Nat} (hne : x ≠ y) (hk : l.idxOf y < k) (hy : y ∈ l) :
    (l.insertIdx k x).idxOf y = l.idxOf y := by
  induction l generalizing k with
  | nil => simp at hy
  | cons z l ih =>
    obtain ⟨k, rfl⟩ := Nat.exists_eq_succ_of_ne_zero (Nat.ne_zero_of_lt hk)
    rw [List.insertIdx_succ_cons]
    by_cases hzy : z = y
    · subst hzy
      rw [List.idxOf_cons_self, List.idxOf_cons_self]
    · rw [List.idxOf_cons_ne _ hzy] at hk
      rw [List.idxOf_cons_ne _ hzy, List.idxOf_cons_ne _ hzy,
        ih (Nat.succ_lt_succ_iff.mp hk) ((List.mem_cons.mp hy).resolve_left (Ne.symm hzy))]

theorem idxOf_erase (hl : l.Nodup) (hne : x ≠ y) (hy : y ∈ l) :
    (l.erase x).idxOf y + (if [x, y].Sublist l then 1 else 0) = l.idxOf y := by
  induction l with
  | nil => simp at hy
  | cons z l ih =>
    obtain ⟨hz, hl⟩ := List.nodup_cons.mp hl
    by_cases hzx : z = x
    · subst hzx
      have hmem : y ∈ l := (List.mem_cons.mp hy).resolve_left (Ne.symm hne)
      have hpair : [z, y].Sublist (z :: l) := (List.singleton_sublist.mpr hmem).cons_cons z
      rw [List.erase_cons_head, if_pos hpair, List.idxOf_cons_ne _ hne]
    · rw [List.erase_cons_tail (by simpa using hzx)]
      by_cases hzy : z = y
      · subst hzy
        have hpair : ¬ [x, z].Sublist (z :: l) := fun h ↦ by
          cases h with
          | cons _ h => exact hz (h.subset (by simp))
          | cons_cons _ h => exact hne rfl
        rw [if_neg hpair, List.idxOf_cons_self, List.idxOf_cons_self]
      · have hmem : y ∈ l := (List.mem_cons.mp hy).resolve_left (Ne.symm hzy)
        have hpair : [x, y].Sublist (z :: l) ↔ [x, y].Sublist l := by
          refine ⟨fun h ↦ ?_, fun h ↦ h.cons z⟩
          cases h with
          | cons _ h => exact h
          | cons_cons _ h => exact absurd rfl hzx
        rw [List.idxOf_cons_ne _ hzy, List.idxOf_cons_ne _ hzy, ← ih hl hmem]
        simp only [hpair]
        omega

theorem idxOf_relocate {k : Nat} (hl : l.Nodup) (hne : x ≠ y) (hy : y ∈ l) (hk : l.idxOf y < k) :
    (relocate l x k).idxOf y + (if [x, y].Sublist l then 1 else 0) = l.idxOf y := by
  have herase := idxOf_erase hl hne hy
  rw [relocate, idxOf_insertIdx_of_lt hne (by omega) ((List.mem_erase_of_ne (Ne.symm hne)).mpr hy)]
  exact herase

theorem idxOf_relocate_self_le (k : Nat) : (relocate l x k).idxOf x ≤ k := by
  rw [relocate]
  generalize l.erase x = l'
  induction l' generalizing k with
  | nil => cases k <;> simp
  | cons y l' ih =>
    cases k with
    | zero => simp
    | succ k =>
      rw [List.insertIdx_succ_cons]
      by_cases hyx : y = x
      · simp [hyx]
      · rw [List.idxOf_cons_ne _ hyx]
        exact Nat.succ_le_succ (ih k)

theorem nodup_relocate (hl : l.Nodup) (k : Nat) : (relocate l x k).Nodup := by
  rw [relocate]
  by_cases hk : k ≤ (l.erase x).length
  · rw [(List.perm_insertIdx x (l.erase x) hk).nodup_iff]
    exact List.nodup_cons.mpr ⟨fun h ↦ (hl.mem_erase_iff.mp h).1 rfl, hl.erase x⟩
  · rw [List.insertIdx_of_length_lt (Nat.lt_of_not_le hk)]
    exact hl.erase x

theorem nodup_replayTo (new moves : List NodeId) (hl : l.Nodup) : (replayTo new l moves).Nodup := by
  induction moves generalizing l with
  | nil => exact hl
  | cons m moves ih => exact ih (nodup_relocate hl _)

theorem replayTo_append {moves moves' : List NodeId} :
    replayTo new l (moves ++ moves') = replayTo new (replayTo new l moves) moves' :=
  List.foldl_append

theorem replayTo_cons {moves : List NodeId} :
    replayTo new l (x :: moves) = replayTo new (relocate l x (new.idxOf x)) moves :=
  rfl

theorem mem_replayTo (new : List NodeId) {moves : List NodeId} (hx : x ∉ moves) :
    x ∈ replayTo new l moves ↔ x ∈ l := by
  have hkept := filter_replayTo (l := l) (p := (· == x)) new fun m (hm : m ∈ moves) ↦ by
    simpa using fun h : m = x ↦ hx (h ▸ hm)
  have hfilter : ∀ l : List NodeId, x ∈ l ↔ x ∈ l.filter (· == x) := fun l ↦ by simp
  rw [hfilter, hkept, ← hfilter]

theorem pair_sublist_replayTo (new : List NodeId) {moves : List NodeId} (ha : a ∉ moves)
    (hb : b ∉ moves) : [a, b].Sublist (replayTo new l moves) ↔ [a, b].Sublist l := by
  have hkept := filter_replayTo (l := l) (p := fun m ↦ m == a || m == b) new
    fun m (hm : m ∈ moves) ↦ by
      simpa using ⟨fun h : m = a ↦ ha (h ▸ hm), fun h : m = b ↦ hb (h ▸ hm)⟩
  have hfilter := fun l ↦ pair_sublist_filter (l := l) (a := a) (b := b)
    (p := fun m ↦ m == a || m == b) (by simp) (by simp)
  rw [← hfilter, hkept, hfilter]

/-- Relocating nodes to indices behind a node never pushes that node back. -/
theorem idxOf_replayTo_le {moves : List NodeId} (hl : l.Nodup) (hy : y ∈ l)
    (hk : l.idxOf y ≤ new.idxOf y) (hmoves : ∀ m ∈ moves, new.idxOf y < new.idxOf m) :
    (replayTo new l moves).idxOf y ≤ l.idxOf y := by
  induction moves generalizing l with
  | nil => exact Nat.le_refl _
  | cons m moves ih =>
    have hm := hmoves m List.mem_cons_self
    have hne : m ≠ y := fun h ↦ by rw [h] at hm; exact Nat.lt_irrefl _ hm
    have hstep := idxOf_relocate hl hne hy (Nat.lt_of_le_of_lt hk hm)
    have hmem : y ∈ relocate l m (new.idxOf m) :=
      (mem_replayTo new (show y ∉ [m] by simpa using Ne.symm hne)).mpr hy
    have hrest := ih (nodup_relocate hl _) hmem (by omega)
      fun x hx ↦ hmoves x (List.mem_cons_of_mem _ hx)
    rw [replayTo_cons]
    omega

/-- A node that ends up at its index had none of the later moves in front of it. -/
theorem pair_sublist_of_idxOf_replayTo {moves : List NodeId} (hl : l.Nodup) (hy : y ∈ l)
    (hk : l.idxOf y ≤ new.idxOf y) (hmoves : ∀ m ∈ moves, new.idxOf y < new.idxOf m)
    (hend : (replayTo new l moves).idxOf y = new.idxOf y) (hx : x ∈ moves) (hxl : x ∈ l) :
    [y, x].Sublist l := by
  have hne : ∀ m ∈ moves, m ≠ y := fun m hm h ↦
    Nat.lt_irrefl _ (by simpa only [h] using hmoves m hm)
  refine (pair_sublist_or hl hy hxl (Ne.symm (hne x hx))).resolve_right fun hxy ↦ ?_
  -- Were `x` in front, taking it out would pull `y` below its index for good.
  obtain ⟨before, after, rfl, hbefore⟩ := List.eq_append_cons_of_mem hx
  have hyB : y ∉ before := fun h ↦ hne y (by simp [h]) rfl
  have hmem := (mem_replayTo new hyB).mpr hy
  have hnd := nodup_replayTo new before hl
  have hle := idxOf_replayTo_le hl hy hk fun m (hm : m ∈ before) ↦ hmoves m (by simp [hm])
  have hstep := idxOf_relocate hnd (hne x hx) hmem
    (Nat.lt_of_le_of_lt (Nat.le_trans hle hk) (hmoves x hx))
  rw [if_pos ((pair_sublist_replayTo new hbefore hyB).mpr hxy)] at hstep
  have hmem' : y ∈ relocate (replayTo new l before) x (new.idxOf x) :=
    (mem_replayTo new (show y ∉ [x] by simpa using Ne.symm (hne x hx))).mpr hmem
  have hrest := idxOf_replayTo_le (nodup_relocate hnd _) hmem' (by omega)
    fun m (hm : m ∈ after) ↦ hmoves m (by simp [hm])
  rw [replayTo_append, replayTo_cons] at hend
  omega

end Necessary

section Exact

variable (hold : old.Nodup) (hnew : new.Nodup) (hperm : old.Perm new)
include hold hnew hperm

theorem uncrossed_of_replayTo (h : replayTo new old (new.filter moved) = new) :
    Uncrossed old new (new.filter moved) := by
  intro s hs y hy z hz hsm hsy hyz
  have hynew := (List.mem_filter.mp hy).1
  have hznew := (List.mem_filter.mp hz).1
  have hpair : [y, z].Sublist (new.filter moved) :=
    (pair_sublist_filter (List.mem_filter.mp hy).2 (List.mem_filter.mp hz).2).mpr
      ((pair_sublist_iff hnew hynew hznew).mpr hyz)
  have hndm := hnew.filter moved
  have hsorted : ∀ a b, [a, b].Sublist (new.filter moved) → new.idxOf a < new.idxOf b :=
    fun a b hab ↦ by
      have hsub := hab.trans List.filter_sublist
      exact (pair_sublist_iff hnew (hsub.subset (by simp)) (hsub.subset (by simp))).mp hsub
  generalize new.filter moved = ms at *
  obtain ⟨before, after, rfl, hyb⟩ := List.eq_append_cons_of_mem hy
  have hlater : ∀ m ∈ after, new.idxOf y < new.idxOf m := fun m hm ↦
    hsorted y m (((List.singleton_sublist.mpr hm).cons_cons y).trans
      (List.sublist_append_right _ _))
  obtain ⟨-, hnda, hdisj⟩ := List.nodup_append.mp hndm
  have hya : y ∉ after := (List.nodup_cons.mp hnda).1
  have hzy : z ≠ y := fun hzy ↦ Nat.lt_irrefl _ (hzy ▸ hyz)
  have hza : z ∈ after := by
    refine ((List.mem_append.mp hz).resolve_left fun hzb ↦ ?_ : z ∈ y :: after)
      |> List.mem_cons.mp |>.resolve_left hzy
    have hzyp : [z, y].Sublist (before ++ y :: after) :=
      (List.singleton_sublist.mpr hzb).append (List.singleton_sublist.mpr List.mem_cons_self)
    exact pair_sublist_asymm hndm hpair hzyp
  have hzb : z ∉ before ++ [y] := by
    simp only [List.mem_append, List.mem_singleton, not_or]
    exact ⟨fun hzb ↦ hdisj z hzb z (List.mem_cons_of_mem _ hza) rfl, hzy⟩
  have hsb : s ∉ before ++ [y] := fun h ↦ hsm (by
    simp only [List.mem_append, List.mem_singleton] at h
    rcases h with h | rfl <;> simp [h])
  have hsa : s ∉ after := fun h ↦ hsm (by simp [h])
  have hsplit : before ++ y :: after = (before ++ [y]) ++ after := by simp
  rw [hsplit, replayTo_append] at h
  -- Right after the move of `y`, `s` stands before `y` and `y` before `z`.
  have hndl := nodup_replayTo new (before ++ [y]) hold
  have hylast : y ∈ replayTo new old (before ++ [y]) :=
    (mem_replayTo new hya).mp (by rwa [h])
  have hself : (replayTo new old (before ++ [y])).idxOf y ≤ new.idxOf y := by
    rw [replayTo_append]
    exact idxOf_relocate_self_le _
  have hyz' := pair_sublist_of_idxOf_replayTo hndl hylast hself hlater (by rw [h]) hza
    ((mem_replayTo new hzb).mpr (hperm.mem_iff.mpr hznew))
  have hsy' : [s, y].Sublist (replayTo new old (before ++ [y])) := by
    rw [← pair_sublist_replayTo new hsa hya, h]
    exact (pair_sublist_iff hnew (hperm.mem_iff.mp hs) hynew).mpr hsy
  have hsz := (pair_sublist_replayTo new hsb hzb).mp (pair_sublist_trans hndl hsy' hyz')
  exact (pair_sublist_iff hold hs (hperm.mem_iff.mpr hznew)).mp hsz

/-- Relocating the moved nodes in their new order yields that order exactly when no two of them
cross at a node that stays. -/
theorem replayTo_eq_iff (hstays : old.filter (!moved ·) = new.filter (!moved ·)) :
    replayTo new old (new.filter moved) = new ↔ Uncrossed old new (new.filter moved) := by
  refine ⟨uncrossed_of_replayTo hold hnew hperm, fun h ↦ ?_⟩
  refine replayTo_pending [] hnew ⟨hold, hperm.subset, hstays, ?_⟩
  intro s y z hs hy hz hsy hyz hzold
  have hsnew : s ∈ new := hsy.subset (by simp)
  have hynew : y ∈ new := hsy.subset (by simp)
  have hznew : z ∈ new := hyz.subset (by simp)
  have hsold := hperm.mem_iff.mpr hsnew
  refine (pair_sublist_iff hold hsold hzold).mpr (h s hsold y ?_ z ?_ ?_ ?_ ?_)
  · exact List.mem_filter.mpr ⟨hynew, hy⟩
  · exact List.mem_filter.mpr ⟨hznew, hz⟩
  · simp [hs]
  · exact (pair_sublist_iff hnew hsnew hynew).mp hsy
  · exact (pair_sublist_iff hnew hynew hznew).mp hyz

end Exact

/-- With all moved nodes taken out first, putting them in one after the other yields the new
order. -/
theorem replayTo_filter (hnew : new.Nodup) (moved : NodeId → Bool) :
    replayTo new (new.filter (!moved ·)) (new.filter moved) = new := by
  refine replayTo_pending [] hnew ⟨hnew.filter _, List.filter_subset_self _, ?_, ?_⟩
  · simp
  · intro s y z hs hy hz hsy hyz hmem
    simp [hz] at hmem

end BuildScript.Order
