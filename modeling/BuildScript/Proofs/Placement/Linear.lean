import Mathlib.Data.List.Nodup
import BuildScript.Placement.Linear

namespace BuildScript.Placement

variable {edges : List (NodeId × NodeId)} {done placed before after rest : List NodeId}
  {new id : NodeId} {rank : NodeId → Option Nat} {r : Nat}

def pending (edges : List (NodeId × NodeId)) (done : List NodeId) (id : NodeId) : Nat :=
  edges.countP fun e ↦ e.2 == id && !done.contains e.1

theorem pending_nil (edges : List (NodeId × NodeId)) (id : NodeId) :
    pending edges [] id = edges.countP (·.2 == id) := by
  simp [pending]

theorem pending_eq_zero :
    pending edges done id = 0 ↔ ∀ source, (source, id) ∈ edges → source ∈ done := by
  simp only [pending, List.countP_eq_zero, Bool.and_eq_true, beq_iff_eq, Bool.not_eq_true',
    List.contains_eq_mem, decide_eq_false_iff_not, not_and, not_not]
  exact ⟨fun h source he ↦ h (source, id) he rfl, fun h e he hid ↦ h e.1 (hid ▸ he)⟩

/-- A count falls by the edges from the node emitted last, and never below zero. -/
theorem pending_cons (edges : List (NodeId × NodeId)) {next : NodeId} (h : next ∉ done)
    (id : NodeId) :
    pending edges (next :: done) id + edges.count (next, id) = pending edges done id := by
  induction edges with
  | nil => rfl
  | cons e edges ih =>
    obtain ⟨source, target⟩ := e
    simp only [pending, List.countP_cons, List.count_cons, List.contains_cons] at ih ⊢
    rw [← ih]
    by_cases hs : source = next
    · subst hs
      by_cases ht : target = id <;> simp [h, ht]
      omega
    · simp [hs]
      omega

theorem advance_pending {next : NodeId} (h : next ∉ done) (waiting : List NodeId) :
    advance edges next (waiting.map fun id ↦ (id, pending edges done id)) =
      (waiting.filter (· != next)).map fun id ↦ (id, pending edges (next :: done) id) := by
  simp only [advance, List.filter_map, List.map_map]
  refine List.map_congr_left fun id _ ↦ ?_
  simp only [Function.comp_apply, Prod.mk.injEq, true_and]
  have := pending_cons edges h id
  omega

/-- One round emits the first node that waits for no other. -/
theorem emit_pending (before after : List NodeId) {next : NodeId}
    (hnext : pending edges done next = 0)
    (hbefore : ∀ id ∈ before, pending edges done id ≠ 0) (hdone : next ∉ done)
    (hbn : next ∉ before) (han : next ∉ after) (fuel : Nat) :
    emit edges (fuel + 1) ((before ++ next :: after).map fun id ↦ (id, pending edges done id)) =
      (emit edges fuel ((before ++ after).map fun id ↦
        (id, pending edges (next :: done) id))).map (next :: ·) := by
  have hfind : ((before ++ next :: after).map fun id ↦ (id, pending edges done id)).find?
      (·.2 = 0) = some (next, pending edges done next) := by
    refine List.find?_eq_some_iff_append.mpr ⟨by simpa using hnext,
      before.map fun id ↦ (id, pending edges done id),
        after.map fun id ↦ (id, pending edges done id),
      by simp, fun e he ↦ ?_⟩
    obtain ⟨id, hid, rfl⟩ := List.mem_map.mp he
    simpa using hbefore id hid
  have hkept : (before ++ next :: after).filter (· != next) = before ++ after := by
    have hb : ∀ id ∈ before, (id != next) = true := by grind
    have ha : ∀ id ∈ after, (id != next) = true := by grind
    simp [List.filter_eq_self.mpr hb, List.filter_eq_self.mpr ha]
  rw [emit, hfind]
  simp only [advance_pending hdone, hkept]

theorem emit_stuck {waiting : List NodeId} (h : ∀ id ∈ waiting, pending edges done id ≠ 0)
    (fuel : Nat) :
    emit edges (fuel + 1) (waiting.map fun id ↦ (id, pending edges done id)) = none := by
  have hfind : (waiting.map fun id ↦ (id, pending edges done id)).find? (·.2 = 0) = none := by
    simpa [List.find?_eq_none] using h
  rw [emit, hfind]

def isAbove (rank : NodeId → Option Nat) (r : Nat) (id : NodeId) : Bool := (rank id).any (r < ·)

def isBelow (rank : NodeId → Option Nat) (r : Nat) (id : NodeId) : Bool := (rank id).any (· < r)

theorem not_isBelow_of_isAbove (h : isAbove rank r id) : isBelow rank r id = false := by
  obtain ⟨s, hs, hlt⟩ := (Option.any_eq_true _ _).mp h
  have hle : r ≤ s := Nat.le_of_lt (by simpa using hlt)
  simp [isBelow, hs, hle]

theorem mem_rankEdges (hr : rank new = some r) {source target : NodeId} :
    (source, target) ∈ rankEdges placed new rank ↔
      (source ∈ placed ∧ isBelow rank r source ∧ target = new) ∨
      (target ∈ placed ∧ isAbove rank r target ∧ source = new) := by
  simp only [rankEdges, hr, List.mem_filterMap]
  constructor
  · rintro ⟨id, hid, h⟩
    cases hs : rank id with
    | none => simp [hs] at h
    | some s =>
      simp only [hs] at h
      split at h
      · next hlt =>
        cases h
        exact .inl ⟨hid, by simpa [isBelow, hs] using hlt, rfl⟩
      · split at h
        · next hlt =>
          cases h
          exact .inr ⟨hid, by simpa [isAbove, hs] using hlt, rfl⟩
        · simp at h
  · rintro (⟨hid, h, rfl⟩ | ⟨hid, h, rfl⟩)
    · obtain ⟨s, hs, hlt⟩ := (Option.any_eq_true _ _).mp h
      exact ⟨source, hid, by simp only [decide_eq_true_eq] at hlt; simp [hs, hlt]⟩
    · obtain ⟨s, hs, hlt⟩ := (Option.any_eq_true _ _).mp h
      refine ⟨target, hid, ?_⟩
      simp only [decide_eq_true_eq] at hlt
      simp [hs, hlt, Nat.lt_asymm hlt]

theorem mem_zip_tail {source target : NodeId} :
    (source, target) ∈ placed.zip placed.tail ↔
      ∃ before after, placed = before ++ source :: target :: after := by
  induction placed with
  | nil => simp
  | cons a placed ih =>
    cases placed with
    | nil =>
      simp only [List.tail_cons, List.zip_nil_right, List.not_mem_nil, false_iff]
      rintro ⟨before, after, h⟩
      have hlength := congrArg List.length h
      simp only [List.length_append, List.length_cons, List.length_nil] at hlength
      omega
    | cons b placed =>
      rw [List.tail_cons, List.zip_cons_cons, List.mem_cons, Prod.mk.injEq]
      rw [List.tail_cons] at ih
      rw [ih]
      constructor
      · rintro (⟨rfl, rfl⟩ | ⟨before, after, h⟩)
        · exact ⟨[], placed, rfl⟩
        · exact ⟨a :: before, after, by rw [h]; rfl⟩
      · rintro ⟨before, after, h⟩
        cases before with
        | nil =>
          simp only [List.nil_append, List.cons.injEq] at h
          exact .inl ⟨h.1.symm, h.2.1.symm⟩
        | cons c before =>
          rw [List.cons_append, List.cons.injEq] at h
          exact .inr ⟨before, after, h.2⟩

/-- Of the nodes already placed only the next one can be ready, and it is if the new one is emitted
or need not come before it. -/
theorem pending_head (done : List NodeId) (hn : (before ++ id :: rest).Nodup)
    (hr : rank new = some r) (hdone : ∀ x ∈ before, x ∈ done) (h : isAbove rank r id → new ∈ done)
    (hnew : id ≠ new) : pending (constraints (before ++ id :: rest) new rank) done id = 0 := by
  refine pending_eq_zero.mpr fun source he ↦ ?_
  rcases List.mem_append.mp he with he | he
  · obtain ⟨before', after', hsplit⟩ := mem_zip_tail.mp he
    have hb : before = before' ++ [source] := by
      have hsplit' : before ++ id :: rest = (before' ++ [source]) ++ id :: after' := by
        simpa using hsplit
      have hrest : id ∉ rest := (List.nodup_cons.mp (List.nodup_append.mp hn).2.1).1
      refine (List.append_cons_inj_of_notMem (fun hmem ↦ ?_) hrest |>.mp hsplit').1
      exact (List.nodup_append.mp hn).2.2 id hmem id List.mem_cons_self rfl
    exact hdone source (by simp [hb])
  · rcases (mem_rankEdges hr).mp he with ⟨-, -, ht⟩ | ⟨-, ha, rfl⟩
    · exact absurd ht hnew
    · exact h ha

theorem pending_ne_zero_of_successor {source : NodeId} (hs : source ∉ done) :
    pending (constraints (before ++ source :: id :: rest) new rank) done id ≠ 0 := fun h ↦
  hs (pending_eq_zero.mp h source
    (List.mem_append_left _ (mem_zip_tail.mpr ⟨before, rest, rfl⟩)))

theorem pending_ne_zero_of_above (hr : rank new = some r) (hid : id ∈ placed)
    (ha : isAbove rank r id) (hnew : new ∉ done) :
    pending (constraints placed new rank) done id ≠ 0 := fun h ↦
  hnew (pending_eq_zero.mp h new
    (List.mem_append_right _ ((mem_rankEdges hr).mpr (.inr ⟨hid, ha, rfl⟩))))

theorem pending_new_eq_zero (hr : rank new = some r) (hnew : new ∉ placed) :
    pending (constraints placed new rank) done new = 0 ↔
      ∀ x ∈ placed, isBelow rank r x → x ∈ done := by
  constructor
  · exact fun h x hx hb ↦ pending_eq_zero.mp h x
      (List.mem_append_right _ ((mem_rankEdges hr).mpr (.inl ⟨hx, hb, rfl⟩)))
  · refine fun h ↦ pending_eq_zero.mpr fun source he ↦ ?_
    rcases List.mem_append.mp he with he | he
    · obtain ⟨before, after, rfl⟩ := mem_zip_tail.mp he
      simp at hnew
    · rcases (mem_rankEdges hr).mp he with ⟨hs, hb, -⟩ | ⟨hs, -, -⟩
      · exact h source hs hb
      · exact absurd hs hnew

/-- All but the first of the nodes that still wait have the one before them to wait for. -/
theorem pending_tail (hn : (before ++ id :: rest).Nodup) (hdone : ∀ x ∈ done, x ∈ before ∨ x = new)
    (hnew : new ∉ before ++ id :: rest) {x : NodeId} (hx : x ∈ rest) :
    pending (constraints (before ++ id :: rest) new rank) done x ≠ 0 := by
  obtain ⟨front, back, hsplit⟩ := List.append_of_mem hx
  have hfront : id :: front ≠ [] := List.cons_ne_nil _ _
  obtain ⟨front', source, hlast⟩ : ∃ front' source, id :: front = front' ++ [source] :=
    ⟨_, _, (List.dropLast_append_getLast hfront).symm⟩
  have hplaced : before ++ id :: rest = (before ++ front') ++ source :: x :: back := by
    rw [hsplit, ← List.cons_append, hlast]
    simp
  have hsource : source ∈ id :: rest := by
    rw [hsplit, ← List.cons_append, hlast]
    simp
  rw [hplaced]
  refine pending_ne_zero_of_successor fun hmem ↦ ?_
  rcases hdone source hmem with h | rfl
  · exact (List.nodup_append.mp hn).2.2 source h source hsource rfl
  · exact hnew (List.mem_append_right _ hsource)

theorem emit_rest (done : List NodeId) (hn : (before ++ rest).Nodup)
    (hnew : new ∉ before ++ rest) (hr : rank new = some r) (hdone : ∀ x, x ∈ done ↔ x ∈ before ∨
      x = new) :
    emit (constraints (before ++ rest) new rank) rest.length
      (rest.map fun id ↦ (id, pending (constraints (before ++ rest) new rank) done id)) =
        some rest := by
  induction rest generalizing before done with
  | nil => rfl
  | cons id rest ih =>
    have hid : id ≠ new := by grind
    have hready := pending_head done hn hr (fun x hx ↦ (hdone x).mpr (.inl hx))
      (fun _ ↦ (hdone new).mpr (.inr rfl)) hid
    have hfresh : id ∉ done := by
      rw [hdone]
      have := (List.nodup_append.mp hn).2.2
      grind
    have hrest : id ∉ rest := (List.nodup_cons.mp (List.nodup_append.mp hn).2.1).1
    have hstep := emit_pending [] rest hready (by simp) hfresh (by simp) hrest rest.length
    have hassoc : before ++ id :: rest = (before ++ [id]) ++ rest := by simp
    have hdone' : ∀ x, x ∈ id :: done ↔ x ∈ before ++ [id] ∨ x = new := by
      simp only [List.mem_cons, hdone, List.mem_append, List.not_mem_nil]
      grind
    rw [hassoc] at hn hnew
    have hih := ih (id :: done) hn hnew hdone'
    rw [← hassoc] at hih
    rw [List.nil_append] at hstep
    rw [List.length_cons, hstep, List.nil_append, hih]
    rfl

/-- Put a node in front of the first one that is ranked above it; fail when one that is ranked
below it comes later. -/
def insertRanked (new : NodeId) (rank : NodeId → Option Nat) (r : Nat) :
    List NodeId → Option (List NodeId)
  | [] => some [new]
  | id :: rest =>
    if isAbove rank r id then
      if rest.any (isBelow rank r) then none else some (new :: id :: rest)
    else (insertRanked new rank r rest).map (id :: ·)

/-- Once the next node is ranked above the new one, no other node can be ready. -/
theorem pending_from_above (hn : (before ++ id :: rest).Nodup) (hnew : new ∉ before ++ id :: rest)
    (hr : rank new = some r) (hdone : ∀ x ∈ done, x ∈ before) (ha : isAbove rank r id) {x : NodeId}
    (hx : x ∈ id :: rest) : pending (constraints (before ++ id :: rest) new rank) done x ≠ 0 := by
  rcases List.mem_cons.mp hx with rfl | hx
  · exact pending_ne_zero_of_above hr (by simp) ha fun h ↦ hnew (List.mem_append_left _ (hdone _ h))
  · exact pending_tail hn (fun x hx ↦ .inl (hdone x hx)) hnew hx

/-- Then both wait for the other if a later one is ranked below the new one. -/
theorem emit_blocked (hn : (before ++ id :: rest).Nodup) (hnew : new ∉ before ++ id :: rest)
    (hr : rank new = some r) (hdone : ∀ x ∈ done, x ∈ before) (ha : isAbove rank r id)
    (hb : rest.any (isBelow rank r)) (fuel : Nat) :
    emit (constraints (before ++ id :: rest) new rank) (fuel + 1)
      ((id :: rest ++ [new]).map fun id' ↦
      (id', pending (constraints (before ++ id :: rest) new rank) done id')) = none := by
  obtain ⟨low, hlow, hbelow⟩ := List.any_eq_true.mp hb
  have hstuck : pending (constraints (before ++ id :: rest) new rank) done new ≠ 0 := by
    intro h
    have hmem := hdone low ((pending_new_eq_zero hr hnew).mp h low (by simp [hlow]) hbelow)
    exact (List.nodup_append.mp hn).2.2 low hmem low (List.mem_cons_of_mem _ hlow) rfl
  refine emit_stuck (fun x hx ↦ ?_) fuel
  rcases List.mem_append.mp hx with hx | hx
  · exact pending_from_above hn hnew hr hdone ha hx
  · rw [List.mem_singleton.mp hx]
    exact hstuck

theorem emit_new (hn : (before ++ id :: rest).Nodup) (hnew : new ∉ before ++ id :: rest)
    (hr : rank new = some r) (hdone : ∀ x, x ∈ done ↔ x ∈ before) (ha : isAbove rank r id)
    (hb : ¬ rest.any (isBelow rank r)) :
    emit (constraints (before ++ id :: rest) new rank) (rest.length + 2)
      ((id :: rest ++ [new]).map fun id' ↦
        (id', pending (constraints (before ++ id :: rest) new rank) done id')) =
      some (new :: id :: rest) := by
  have hready : pending (constraints (before ++ id :: rest) new rank) done new = 0 := by
    refine (pending_new_eq_zero hr hnew).mpr fun x hx hbelow ↦ ?_
    rcases List.mem_append.mp hx with hx | hx
    · exact (hdone x).mpr hx
    · rcases List.mem_cons.mp hx with rfl | hx
      · simp [not_isBelow_of_isAbove ha] at hbelow
      · exact absurd (List.any_eq_true.mpr ⟨x, hx, hbelow⟩) hb
  have hstep := emit_pending (id :: rest) [] hready
    (fun x hx ↦ pending_from_above hn hnew hr (fun x hx ↦ (hdone x).mp hx) ha hx)
    (fun h ↦ hnew (List.mem_append_left _ ((hdone new).mp h)))
    (fun h ↦ hnew (List.mem_append_right _ h)) (by simp) (rest.length + 1)
  rw [List.append_nil] at hstep
  rw [hstep]
  exact congrArg _ (emit_rest (new :: done) hn hnew hr fun x ↦ by simp [hdone, or_comm])

/-- Until the new node is emitted the others come as long as they are not ranked above it. -/
theorem emit_ranked (before done : List NodeId) (hn : (before ++ rest).Nodup)
    (hnew : new ∉ before ++ rest) (hr : rank new = some r) (hdone : ∀ x, x ∈ done ↔ x ∈ before) :
    emit (constraints (before ++ rest) new rank) (rest.length + 1) ((rest ++ [new]).map fun id ↦
      (id, pending (constraints (before ++ rest) new rank) done id)) =
        insertRanked new rank r rest := by
  have hnd : new ∉ done := by grind
  induction rest generalizing before done with
  | nil =>
    have hready : pending (constraints (before ++ []) new rank) done new = 0 :=
      (pending_new_eq_zero hr hnew).mpr fun x hx _ ↦ (hdone x).mpr (by simpa using hx)
    exact emit_pending [] [] hready (by simp) hnd (by simp) (by simp) 0
  | cons id rest ih =>
    by_cases ha : isAbove rank r id
    · rw [insertRanked, if_pos ha]
      split
      · next hb => exact emit_blocked hn hnew hr (fun x hx ↦ (hdone x).mp hx) ha hb _
      · next hb => exact emit_new hn hnew hr hdone ha hb
    · have hid : id ≠ new := by grind
      have hready := pending_head done hn hr (fun x hx ↦ (hdone x).mpr hx)
        (fun h ↦ absurd h ha) hid
      have hfresh : id ∉ done := by
        rw [hdone]
        exact fun h ↦ (List.nodup_append.mp hn).2.2 id h id List.mem_cons_self rfl
      have hrest : id ∉ rest := (List.nodup_cons.mp (List.nodup_append.mp hn).2.1).1
      have hstep := emit_pending [] (rest ++ [new]) hready (by simp) hfresh (by simp)
        (by simp [hrest, hid]) (rest.length + 1)
      have hassoc : before ++ id :: rest = (before ++ [id]) ++ rest := by simp
      have hih := ih (before ++ [id]) (id :: done) (hassoc ▸ hn) (hassoc ▸ hnew)
        (by simp only [List.mem_cons, hdone, List.mem_append, List.not_mem_nil]; grind)
        (by simp [hnd, hid.symm])
      rw [← hassoc] at hih
      rw [insertRanked, if_neg ha, ← hih]
      exact hstep

theorem length_filter_ne {sequence : List NodeId} (hs : sequence.Nodup) (hmem : new ∈ sequence) :
    sequence.length = (sequence.filter (· != new)).length + 1 := by
  rw [← hs.erase_eq_filter, List.length_erase_of_mem hmem]
  have := List.length_pos_of_mem hmem
  omega

theorem linearize_eq_insertRanked {sequence : List NodeId} (hs : sequence.Nodup)
    (hmem : new ∈ sequence) (hr : rank new = some r) :
    linearize sequence new rank = insertRanked new rank r (sequence.filter (· != new)) := by
  have hn : (sequence.filter (· != new)).Nodup := hs.filter _
  have hnew : new ∉ sequence.filter (· != new) := by simp
  have h := emit_ranked [] [] hn hnew hr (by simp)
  simp only [List.nil_append, pending_nil] at h
  simp only [linearize, hmem, if_true, length_filter_ne hs hmem]
  exact h

/-- Some node ranked above `r` stands in front of one ranked below it. -/
def Contradicts (rank : NodeId → Option Nat) (r : Nat) (placed : List NodeId) : Prop :=
  ∃ i j : Nat, i < j ∧ placed[i]?.any (isAbove rank r) ∧ placed[j]?.any (isBelow rank r)

theorem contradicts_cons :
    Contradicts rank r (id :: rest) ↔
      (isAbove rank r id ∧ rest.any (isBelow rank r)) ∨ Contradicts rank r rest := by
  constructor
  · rintro ⟨i, j, hij, hi, hj⟩
    obtain ⟨j, rfl⟩ : ∃ k, j = k + 1 := ⟨j - 1, by omega⟩
    rw [List.getElem?_cons_succ] at hj
    cases i with
    | zero =>
      obtain ⟨q, hq, hb⟩ := (Option.any_eq_true _ _).mp hj
      exact .inl ⟨by simpa using hi, List.any_eq_true.mpr ⟨q, List.mem_of_getElem? hq, hb⟩⟩
    | succ i => exact .inr ⟨i, j, by omega, by simpa using hi, hj⟩
  · rintro (⟨ha, hb⟩ | ⟨i, j, hij, hi, hj⟩)
    · obtain ⟨q, hq, hb⟩ := List.any_eq_true.mp hb
      obtain ⟨j, hj⟩ := List.getElem?_of_mem hq
      exact ⟨0, j + 1, by omega, by simpa using ha, by simp [hj, hb]⟩
    · exact ⟨i + 1, j + 1, by omega, by simpa using hi, by simpa using hj⟩

theorem insertRanked_eq_none (h : Contradicts rank r placed) :
    insertRanked new rank r placed = none := by
  induction placed with
  | nil =>
    obtain ⟨i, j, -, hi, -⟩ := h
    simp at hi
  | cons id rest ih =>
    rw [insertRanked]
    split
    · next ha =>
      have hb : rest.any (isBelow rank r) := by
        rcases contradicts_cons.mp h with ⟨-, hb⟩ | ⟨i, j, -, -, hj⟩
        · exact hb
        · obtain ⟨q, hq, hb⟩ := (Option.any_eq_true _ _).mp hj
          exact List.any_eq_true.mpr ⟨q, List.mem_of_getElem? hq, hb⟩
      rw [if_pos hb]
    · next ha =>
      rcases contradicts_cons.mp h with ⟨ha', -⟩ | h
      · exact absurd ha' ha
      · rw [ih h]
        rfl

theorem insertRanked_eq_some (h : ¬ Contradicts rank r placed) :
    insertRanked new rank r placed =
      some (placed.insertIdx (placed.findIdx (isAbove rank r)) new) := by
  induction placed with
  | nil => rfl
  | cons id rest ih =>
    rw [contradicts_cons, not_or, not_and] at h
    rw [insertRanked, List.findIdx_cons]
    cases ha : isAbove rank r id with
    | true => simp [h.1 ha]
    | false => simp [ih h.2]

theorem contradicts_congr {rank' : NodeId → Option Nat} (h : ∀ id ∈ placed, rank' id = rank id) :
    Contradicts rank' r placed ↔ Contradicts rank r placed := by
  induction placed with
  | nil => simp [Contradicts]
  | cons id rest ih =>
    have hany : rest.any (isBelow rank' r) = rest.any (isBelow rank r) := by
      rw [Bool.eq_iff_iff, List.any_eq_true, List.any_eq_true]
      refine exists_congr fun x ↦ and_congr_right fun hx ↦ ?_
      rw [isBelow, isBelow, h x (List.mem_cons_of_mem _ hx)]
    rw [contradicts_cons, contradicts_cons, ih fun x hx ↦ h x (List.mem_cons_of_mem _ hx), hany,
      isAbove, isAbove, h id List.mem_cons_self]

theorem findIdx_isAbove_congr {rank' : NodeId → Option Nat}
    (h : ∀ id ∈ placed, rank' id = rank id) :
    placed.findIdx (isAbove rank' r) = placed.findIdx (isAbove rank r) := by
  induction placed with
  | nil => rfl
  | cons id rest ih =>
    rw [List.findIdx_cons, List.findIdx_cons,
      ih fun x hx ↦ h x (List.mem_cons_of_mem _ hx), isAbove,
      isAbove, h id List.mem_cons_self]

end BuildScript.Placement
