import Mathlib.Data.List.Sort
import BuildScript.Document.Placement
import BuildScript.Proofs.Placement.Longest

namespace BuildScript

open Placement

variable {current target kept sub l l' : List NodeId} {indices : List Nat} {n : Nat}

def SingleMove (l l' : List NodeId) : Prop :=
  ∃ id before after front back, l = before ++ id :: after ∧ before ++ after = front ++ back ∧
    l' = front ++ id :: back

/-- So many single moves turn one sequence into the other. -/
inductive Rearranged : Nat → List NodeId → List NodeId → Prop
  | refl (l : List NodeId) : Rearranged 0 l l
  | move {n : Nat} {l l' l'' : List NodeId} :
      SingleMove l l' → Rearranged n l' l'' → Rearranged (n + 1) l l''

theorem Rearranged.unmoved (h : Rearranged n l l') :
    ∃ moved : List NodeId, moved.length = n ∧
      l.filter (!moved.contains ·) = l'.filter (!moved.contains ·) := by
  induction h with
  | refl l => exact ⟨[], rfl, rfl⟩
  | @move n l l' l'' hmove _ ih =>
    obtain ⟨moved, hlength, hrest⟩ := ih
    obtain ⟨id, before, after, front, back, rfl, hsplit, rfl⟩ := hmove
    have hout : ∀ l : List NodeId, l.filter (!(id :: moved).contains ·) =
        (l.filter (!moved.contains ·)).filter (· != id) := fun l ↦ by
      simp only [List.filter_filter, List.contains_cons, Bool.not_or, bne]
    have hid : ∀ b a : List NodeId, (b ++ id :: a).filter (!(id :: moved).contains ·) =
        (b ++ a).filter (!(id :: moved).contains ·) := fun b a ↦ by
      simp [List.filter_append]
    refine ⟨id :: moved, by rw [List.length_cons, hlength], ?_⟩
    rw [hid, hsplit, ← hid, hout, hrest, ← hout]

theorem filter_contains_of_sublist (h : kept.Sublist l) (hl : l.Nodup) :
    l.filter (kept.contains ·) = kept := by
  induction h with
  | slnil => rfl
  | @cons kept l id h ih =>
    obtain ⟨hid, hl⟩ := List.nodup_cons.mp hl
    have hout : ¬ kept.contains id = true := by simpa using fun hk ↦ hid (h.subset hk)
    rw [List.filter_cons_of_neg hout, ih hl]
  | @cons_cons kept l id h ih =>
    obtain ⟨hid, hl⟩ := List.nodup_cons.mp hl
    have hrest : l.filter ((id :: kept).contains ·) = l.filter (kept.contains ·) :=
      List.filter_congr fun x hx ↦ by
        have hx : x ≠ id := fun he ↦ hid (he ▸ hx)
        simp [hx]
    rw [List.filter_cons_of_pos (by simp), hrest, ih hl]

theorem filterMap_getElem?_eq_map (h : ∀ i ∈ indices, i < l.length) :
    indices.filterMap (l[·]?) = indices.map (l.getD · 0) := by
  rw [← List.filterMap_eq_map]
  exact List.filterMap_congr fun i hi ↦ by simp [h i hi]

theorem filterMap_getElem?_sublist (hi : indices.Pairwise (· < ·))
    (h : ∀ i ∈ indices, i < l.length) : (indices.filterMap (l[·]?)).Sublist l := by
  have hsub : indices.Sublist (List.range l.length) :=
    List.sublist_of_subperm_of_pairwise (r := (· < ·))
      (List.subperm_of_subset hi.nodup fun i hmem ↦ List.mem_range.mpr (h i hmem)) hi
      List.pairwise_lt_range
  have hrange : (List.range l.length).filterMap (l[·]?) = l := by
    rw [filterMap_getElem?_eq_map fun i hi ↦ List.mem_range.mp hi, map_getD_range]
  have hpicked := hsub.filterMap (l[·]?)
  rwa [hrange] at hpicked

theorem pairwise_idxOf (hl : l.Nodup) : l.Pairwise fun a b ↦ l.idxOf a < l.idxOf b := by
  rw [List.pairwise_iff_getElem]
  intro i j hi hj hij
  rwa [hl.idxOf_getElem, hl.idxOf_getElem]

theorem sublist_of_pairwise_idxOf (hl : l.Nodup)
    (hsub : sub.Pairwise fun a b ↦ l.idxOf a < l.idxOf b) (hmem : ∀ id ∈ sub, id ∈ l) :
    sub.Sublist l := by
  have : Std.Antisymm fun a b ↦ l.idxOf a < l.idxOf b :=
    ⟨fun _ _ h h' ↦ absurd h (Nat.lt_asymm h')⟩
  have hnodup : sub.Nodup := hsub.imp fun h he ↦ by
    rw [he] at h
    exact Nat.lt_irrefl _ h
  exact List.sublist_of_subperm_of_pairwise (List.subperm_of_subset hnodup hmem) hsub
    (pairwise_idxOf hl)

namespace Store

/-- The nodes of a longest part of the target that is in order already. -/
def steady (current target : List NodeId) : List NodeId :=
  (longestIncreasing (target.map (current.idxOf ·))).filterMap (target[·]?)

theorem displaced_eq (h : ∀ id ∈ target, id ∈ current) :
    displaced current target = target.filter (!(steady current target).contains ·) := by
  have hplaces : target.filterMap (fun id ↦ current.findIdx? (· == id)) =
      target.map (current.idxOf ·) := by
    rw [← List.filterMap_eq_map]
    exact List.filterMap_congr fun id hid ↦
      List.findIdx?_eq_some_of_exists ⟨id, h id hid, beq_self_eq_true id⟩
  simp only [displaced, hplaces, steady]

theorem steady_inRange (current target : List NodeId) :
    ∀ i ∈ longestIncreasing (target.map (current.idxOf ·)), i < target.length := fun i hi ↦ by
  simpa using (picksLongest _).inRange i hi

theorem steady_sublist (current target : List NodeId) : (steady current target).Sublist target :=
  filterMap_getElem?_sublist (picksLongest _).increasing (steady_inRange current target)

theorem steady_sublist_current (hc : current.Nodup) (h : ∀ id ∈ target, id ∈ current) :
    (steady current target).Sublist current := by
  have hrising := (picksLongest (target.map (current.idxOf ·))).rising
  have hinRange := steady_inRange current target
  refine sublist_of_pairwise_idxOf hc ?_ fun id hid ↦ h id ((steady_sublist _ _).subset hid)
  rw [List.pairwise_map] at hrising
  rw [steady, filterMap_getElem?_eq_map hinRange, List.pairwise_map]
  refine hrising.imp_of_mem fun hi hj hlt ↦ ?_
  simpa [hinRange _ hi, hinRange _ hj] using hlt

theorem filter_not_displaced (hc : current.Nodup) (ht : target.Perm current) :
    current.filter (!(displaced current target).contains ·) =
      target.filter (!(displaced current target).contains ·) := by
  have hmem : ∀ id ∈ target, id ∈ current := fun _ hid ↦ ht.subset hid
  have hstay : ∀ id ∈ target, (!(displaced current target).contains id) =
      (steady current target).contains id := by
    intro id hid
    rw [displaced_eq hmem, Bool.eq_iff_iff]
    simp [hid]
  rw [List.filter_congr hstay, List.filter_congr fun id hid ↦ hstay id (ht.symm.subset hid),
    filter_contains_of_sublist (steady_sublist _ _) (ht.nodup_iff.mpr hc),
    filter_contains_of_sublist (steady_sublist_current hc hmem) hc]

/-- No other part that is in order in both sequences is longer. -/
theorem length_le_steady (hc : current.Nodup) (hcurrent : sub.Sublist current)
    (htarget : sub.Sublist target) : sub.length ≤ (steady current target).length := by
  have hlongest := (picksLongest (target.map (current.idxOf ·))).longest (sub.map (current.idxOf ·))
    (htarget.map _) (List.pairwise_map.mpr ((pairwise_idxOf hc).sublist hcurrent))
  rwa [steady, filterMap_getElem?_eq_map (steady_inRange current target), List.length_map,
    ← List.length_map]

/-- Every way to reach the target has a move for each displaced node. -/
theorem length_displaced_le (hc : current.Nodup) (ht : target.Perm current)
    (h : Rearranged n current target) : (displaced current target).length ≤ n := by
  obtain ⟨moved, rfl, hunmoved⟩ := h.unmoved
  have htarget : target.Nodup := ht.nodup_iff.mpr hc
  have hcurrent : (target.filter (!moved.contains ·)).Sublist current :=
    hunmoved ▸ List.filter_sublist
  have hkept := length_le_steady hc hcurrent List.filter_sublist
  have hmoved : (target.filter (moved.contains ·)).length ≤ moved.length :=
    (List.subperm_of_subset (htarget.filter _) fun id hid ↦ by
      simpa using (List.mem_filter.mp hid).2).length_le
  have hsplit := List.length_eq_length_filter_add (l := target) (moved.contains ·)
  have hsplit' := List.length_eq_length_filter_add (l := target)
    ((steady current target).contains ·)
  rw [filter_contains_of_sublist (steady_sublist _ _) htarget] at hsplit'
  rw [displaced_eq fun _ hid ↦ ht.subset hid]
  omega

end Store

end BuildScript
