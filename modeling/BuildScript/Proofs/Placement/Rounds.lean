import Mathlib.Data.List.Perm.Subperm
import Mathlib.Data.List.TakeWhile
import BuildScript.Proofs.Placement.Linear

namespace BuildScript.Placement

variable {edges : List (NodeId × NodeId)} {start waiting : List (NodeId × Nat)}
  {ids done placed sequence : List NodeId} {new id : NodeId} {rank : NodeId → Option Nat} {r : Nat}

def inDegrees (edges : List (NodeId × NodeId)) (ids : List NodeId) : List (NodeId × Nat) :=
  ids.map fun id ↦ (id, edges.countP (·.2 == id))

theorem linearize_eq_emit (rank : NodeId → Option Nat) (h : new ∈ sequence) :
    linearize sequence new rank =
      emit (constraints (sequence.filter (· != new)) new rank) sequence.length
        (inDegrees (constraints (sequence.filter (· != new)) new rank)
          (sequence.filter (· != new) ++ [new])) := by
  simp only [linearize, h, if_true, inDegrees]

/-- Some rounds of an emission: the nodes emitted so far, the last one in front, and what still
waits behind them. -/
inductive Rounds (edges : List (NodeId × NodeId)) (start : List (NodeId × Nat)) :
    List NodeId → List (NodeId × Nat) → Prop
  | start : Rounds edges start [] start
  | next {done : List NodeId} {waiting : List (NodeId × Nat)} {next : NodeId} {count : Nat} :
      Rounds edges start done waiting → waiting.find? (·.2 = 0) = some (next, count) →
      Rounds edges start (next :: done) (advance edges next waiting)

/-- These are the rounds in which `emit` runs. -/
theorem Rounds.emit_eq (h : Rounds edges start done waiting) (fuel : Nat) :
    emit edges (done.length + fuel) start = (emit edges fuel waiting).map (done.reverse ++ ·) := by
  induction h generalizing fuel with
  | start => simp
  | @next done waiting next count h hfind ih =>
    have hround : emit edges (fuel + 1) waiting =
        (emit edges fuel (advance edges next waiting)).map (next :: ·) := by
      rw [emit, hfind]
    rw [List.length_cons, Nat.add_assoc, Nat.add_comm 1, ih, hround, Option.map_map]
    simp [Function.comp_def]

/-- What waits has its edges from nodes that are not emitted yet counted, and what is emitted has no
such edge. -/
structure Counted (edges : List (NodeId × NodeId)) (ids done : List NodeId)
    (waiting : List (NodeId × Nat)) : Prop where
  waits : waiting = (ids.filter (!done.contains ·)).map fun id ↦ (id, pending edges done id)
  emitted : ∀ id ∈ done, pending edges done id = 0

theorem Counted.ready (h : Counted edges ids done waiting) {next : NodeId} {count : Nat}
    (hfind : waiting.find? (·.2 = 0) = some (next, count)) :
    next ∉ done ∧ pending edges done next = 0 := by
  have hmem := List.mem_of_find?_eq_some hfind
  have hzero : count = 0 := by simpa using List.find?_some hfind
  rw [h.waits] at hmem
  obtain ⟨id, hid, he⟩ := List.mem_map.mp hmem
  obtain ⟨rfl, hcount⟩ := Prod.mk.inj he
  exact ⟨by simpa using (List.mem_filter.mp hid).2, hcount.trans hzero⟩

theorem Counted.advance (h : Counted edges ids done waiting) {next : NodeId} {count : Nat}
    (hfind : waiting.find? (·.2 = 0) = some (next, count)) :
    Counted edges ids (next :: done) (advance edges next waiting) := by
  obtain ⟨hfresh, hready⟩ := h.ready hfind
  refine ⟨?_, fun id hid ↦ ?_⟩
  · have hleft : (ids.filter (!done.contains ·)).filter (· != next) =
        ids.filter (!(next :: done).contains ·) := by
      rw [List.filter_filter]
      refine List.filter_congr fun id _ ↦ ?_
      rw [List.contains_cons, Bool.not_or]
      rfl
    rw [h.waits, advance_pending hfresh, hleft]
  · have hold : pending edges done id = 0 := by
      rcases List.mem_cons.mp hid with rfl | hid
      · exact hready
      · exact h.emitted id hid
    have hcons := pending_cons edges hfresh id
    omega

theorem Rounds.counted (h : Rounds edges (inDegrees edges ids) done waiting) :
    Counted edges ids done waiting := by
  induction h with
  | start =>
    refine ⟨?_, by simp⟩
    simp only [inDegrees, ← pending_nil]
    simp
  | next _ hfind ih => exact ih.advance hfind

theorem Rounds.emitted (h : Rounds edges (inDegrees edges ids) done waiting) :
    done.Nodup ∧ done ⊆ ids := by
  induction h with
  | start => exact ⟨.nil, List.nil_subset _⟩
  | @next done waiting next count h hfind ih =>
    have hmem := List.mem_of_find?_eq_some hfind
    rw [h.counted.waits] at hmem
    obtain ⟨id, hid, he⟩ := List.mem_map.mp hmem
    obtain ⟨rfl, -⟩ := Prod.mk.inj he
    exact ⟨List.nodup_cons.mpr ⟨(h.counted.ready hfind).1, ih.1⟩,
      List.cons_subset.mpr ⟨(List.mem_filter.mp hid).1, ih.2⟩⟩

/-- After any of its rounds a linearization goes on from what it has emitted and what waits. -/
theorem Rounds.linearize_eq (hs : sequence.Nodup) (hmem : new ∈ sequence)
    (h : Rounds (constraints (sequence.filter (· != new)) new rank)
      (inDegrees (constraints (sequence.filter (· != new)) new rank)
        (sequence.filter (· != new) ++ [new])) done waiting) :
    linearize sequence new rank =
      (emit (constraints (sequence.filter (· != new)) new rank) (sequence.length - done.length)
        waiting).map (done.reverse ++ ·) := by
  have hle : done.length ≤ sequence.length := by
    have hsub := (h.emitted.1.subperm h.emitted.2).length_le
    rwa [List.length_append, List.length_singleton, ← length_filter_ne hs hmem] at hsub
  rw [linearize_eq_emit rank hmem, ← h.emit_eq, Nat.add_sub_cancel' hle]

/-- In no round a count is lowered by more than what is left of it. A node emitted before has
nothing left and is lowered by nothing. -/
def NeverBelowZero (edges : List (NodeId × NodeId)) (start : List (NodeId × Nat)) : Prop :=
  ∀ done waiting next count, Rounds edges start done waiting →
    waiting.find? (·.2 = 0) = some (next, count) →
    (∀ id left, (id, left) ∈ waiting → edges.count (next, id) ≤ left) ∧
    ∀ id ∈ done, edges.count (next, id) = 0

theorem neverBelowZero_inDegrees (edges : List (NodeId × NodeId)) (ids : List NodeId) :
    NeverBelowZero edges (inDegrees edges ids) := by
  intro done waiting next count hrounds hfind
  have hcounted := hrounds.counted
  obtain ⟨hfresh, -⟩ := hcounted.ready hfind
  refine ⟨fun id left hmem ↦ ?_, fun id hid ↦ ?_⟩
  · have hcons := pending_cons edges hfresh id
    rw [hcounted.waits] at hmem
    obtain ⟨id', -, he⟩ := List.mem_map.mp hmem
    obtain ⟨rfl, rfl⟩ := Prod.mk.inj he
    omega
  · have hcons := pending_cons edges hfresh id
    have hzero := hcounted.emitted id hid
    omega

theorem isAbove_self (hr : rank new = some r) : isAbove rank r new = false := by
  simp [isAbove, hr]

theorem isBelow_self (hr : rank new = some r) : isBelow rank r new = false := by
  simp [isBelow, hr]

theorem contradicts_filter (hr : rank new = some r) (sequence : List NodeId) :
    Contradicts rank r (sequence.filter (· != new)) ↔ Contradicts rank r sequence := by
  induction sequence with
  | nil => rfl
  | cons id rest ih =>
    by_cases hid : id = new
    · rw [List.filter_cons_of_neg (by simpa using hid), ih, contradicts_cons, hid, isAbove_self hr]
      simp
    · have hbelow : (rest.filter (· != new)).any (isBelow rank r) = rest.any (isBelow rank r) := by
        rw [List.any_filter]
        refine List.any_congr rfl fun x ↦ ?_
        by_cases hx : x = new
        · simp [hx, isBelow_self hr]
        · simp [hx]
      rw [List.filter_cons_of_pos (by simpa using hid), contradicts_cons, contradicts_cons, ih,
        hbelow]

instance decidableContradicts (rank : NodeId → Option Nat) (r : Nat) :
    (placed : List NodeId) → Decidable (Contradicts rank r placed)
  | [] => .isFalse (by rintro ⟨i, j, -, hi, -⟩; simp at hi)
  | _ :: rest =>
    have := decidableContradicts rank r rest
    decidable_of_iff' _ contradicts_cons

theorem rankEdges_of_unranked {rank' : NodeId → Option Nat} (hnew : rank new = none)
    (h : ∀ id ∈ placed, rank' id = none) :
    rankEdges placed new rank = rankEdges placed new rank' := by
  rw [rankEdges, hnew, rankEdges]
  cases rank' new with
  | none => rfl
  | some r => exact (List.filterMap_eq_nil_iff.mpr fun id hid ↦ by rw [h id hid]).symm

/-- A node without rank is placed like one with a rank among nodes without. -/
theorem linearize_of_unranked (hs : sequence.Nodup) (hmem : new ∈ sequence)
    (hnew : rank new = none) :
    linearize sequence new rank = some (sequence.filter (· != new) ++ [new]) := by
  let rank' : NodeId → Option Nat := fun id ↦ if id = new then some 0 else none
  have hedges : rankEdges (sequence.filter (· != new)) new rank =
      rankEdges (sequence.filter (· != new)) new rank' :=
    rankEdges_of_unranked hnew fun id hid ↦ if_neg (by simpa using (List.mem_filter.mp hid).2)
  have habove : ∀ id, isAbove rank' 0 id = false := by
    intro id
    by_cases hid : id = new <;> simp [isAbove, rank', hid]
  have hfree : ¬ Contradicts rank' 0 (sequence.filter (· != new)) := by
    rintro ⟨i, j, -, hi, -⟩
    obtain ⟨id, -, hid⟩ := (Option.any_eq_true _ _).mp hi
    rw [habove] at hid
    exact Bool.false_ne_true hid
  have hsame : linearize sequence new rank = linearize sequence new rank' := by
    simp only [linearize, constraints, hedges]
  have hend : (sequence.filter (· != new)).findIdx (isAbove rank' 0) =
      (sequence.filter (· != new)).length :=
    List.findIdx_eq_length.mpr fun id _ ↦ habove id
  rw [hsame, linearize_eq_insertRanked hs hmem (if_pos rfl), insertRanked_eq_some hfree, hend,
    List.insertIdx_length_self]

/-- A sequence without one node, and the node again in front of the first that is ranked above it,
or at the end. -/
def insertBelow (sequence : List NodeId) (new : NodeId) (rank : NodeId → Option Nat) :
    List NodeId :=
  let others := sequence.filter (· != new)
  let outranks (id : NodeId) : Bool := (rank new).any (isAbove rank · id)
  others.takeWhile (!outranks ·) ++ new :: others.dropWhile (!outranks ·)

theorem insertIdx_findIdx {α : Type} (p : α → Bool) (l : List α) (a : α) :
    l.insertIdx (l.findIdx p) a = l.takeWhile (!p ·) ++ a :: l.dropWhile (!p ·) := by
  induction l with
  | nil => rfl
  | cons x l ih =>
    cases hx : p x with
    | true => simp [List.findIdx_cons, hx]
    | false => simp [List.findIdx_cons, hx, ih]

theorem insertBelow_eq (hr : rank new = some r) : insertBelow sequence new rank =
    (sequence.filter (· != new)).insertIdx
      ((sequence.filter (· != new)).findIdx (isAbove rank r)) new := by
  rw [insertIdx_findIdx, insertBelow]
  simp only [hr, Option.any_some]

theorem insertBelow_of_unranked (h : rank new = none) :
    insertBelow sequence new rank = sequence.filter (· != new) ++ [new] := by
  have hall : ∀ id ∈ sequence.filter (· != new), (!(rank new).any (isAbove rank · id)) = true := by
    simp [h]
  rw [insertBelow, List.takeWhile_eq_self_iff.mpr hall, List.dropWhile_eq_nil_iff.mpr hall]

/-- A node that is ranked has no place exactly where some node ranked above it comes before one
ranked below it. Else it comes right in front of the first node ranked above it, or last. In none of
the rounds that lead there a count of edges falls below zero. -/
theorem linearize_is_insertion (hs : sequence.Nodup) (hmem : new ∈ sequence)
    (rank : NodeId → Option Nat) :
    (linearize sequence new rank = none ↔
      ∃ r, rank new = some r ∧ Contradicts rank r sequence) ∧
    ((∀ r, rank new = some r → ¬ Contradicts rank r sequence) →
      linearize sequence new rank = some (insertBelow sequence new rank)) ∧
    (∀ done waiting, Rounds (constraints (sequence.filter (· != new)) new rank)
      (inDegrees (constraints (sequence.filter (· != new)) new rank)
        (sequence.filter (· != new) ++ [new])) done waiting →
      linearize sequence new rank =
        (emit (constraints (sequence.filter (· != new)) new rank) (sequence.length - done.length)
          waiting).map (done.reverse ++ ·)) ∧
    NeverBelowZero (constraints (sequence.filter (· != new)) new rank)
      (inDegrees (constraints (sequence.filter (· != new)) new rank)
        (sequence.filter (· != new) ++ [new])) := by
  rw [← and_assoc]
  refine ⟨?_, fun _ _ ↦ Rounds.linearize_eq hs hmem, neverBelowZero_inDegrees _ _⟩
  cases hr : rank new with
  | none =>
    rw [linearize_of_unranked hs hmem hr, insertBelow_of_unranked hr]
    simp
  | some r =>
    rw [linearize_eq_insertRanked hs hmem hr, insertBelow_eq hr]
    by_cases hc : Contradicts rank r sequence
    · rw [insertRanked_eq_none ((contradicts_filter hr sequence).mpr hc)]
      simp [hc]
    · rw [insertRanked_eq_some fun h ↦ hc ((contradicts_filter hr sequence).mp h)]
      simp [hc]

def threeRanks (id : NodeId) : Option Nat := if 1 ≤ id ∧ id ≤ 3 then some id else none

/-- The second one goes between the two others, and nowhere if they stand the wrong way round. -/
theorem linearize_is_insertion_threeRanks :
    [1, 9, 3, 2].Nodup ∧ linearize [1, 9, 3, 2] 2 threeRanks = some [1, 9, 2, 3] ∧
    [3, 9, 1, 2].Nodup ∧ linearize [3, 9, 1, 2] 2 threeRanks = none := by
  have hfree : ∀ r, threeRanks 2 = some r → ¬ Contradicts threeRanks r [1, 9, 3, 2] := by
    intro r hr
    obtain rfl : 2 = r := Option.some.inj hr
    decide
  have hplace := (linearize_is_insertion (by decide) (by decide) threeRanks).2.1 hfree
  have hnone : linearize [3, 9, 1, 2] 2 threeRanks = none :=
    (linearize_is_insertion (by decide) (by decide) threeRanks).1.mpr ⟨2, rfl, by decide⟩
  exact ⟨by decide, hplace.trans (by decide), by decide, hnone⟩

end BuildScript.Placement
