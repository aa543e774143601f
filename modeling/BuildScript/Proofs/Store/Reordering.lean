import BuildScript.Proofs.Placement.Moves
import BuildScript.Proofs.Store.Indices

namespace BuildScript.Store

variable {s s' s'' : Store} {e : Entry} {node prev : NodeId}
  {moving moved done rest before after : List NodeId}

def indexBehind (s : Store) (node : NodeId) : Option NodeId → Nat
  | none => 0
  | some before =>
    let beforeAt := (s.logicalIndex? before).getD 0
    if (s.logicalIndex? node).any (· < beforeAt) then beforeAt else beforeAt + 1

theorem moveBehind_eq (s : Store) (node : NodeId) (before : Option NodeId) :
    s.moveBehind node before = s.moveTo node (s.indexBehind node before) := by
  cases before <;> rfl

theorem insertClamped_of_le {nodes : List NodeId} {k : Nat} (h : k ≤ nodes.length) (node : NodeId) :
    insertClamped nodes k node = nodes.insertIdx k node := by
  have hk : (max 0 (min (k : Int) nodes.length)).toNat = k := by omega
  rw [insertClamped, hk]

theorem placeable_moveBehind_none (h : s.find? node = some e) (he : e.isPlaceable) :
    (s.moveBehind node none).placeable = node :: s.placeable.erase node := by
  rw [moveBehind_eq, placeable_moveTo h, placeable_purge h, if_pos he, indexBehind,
    insertClamped_of_le (Nat.zero_le _), List.insertIdx_zero]

theorem append_eq_append_cons {front back : List NodeId}
    (h : front ++ back = before ++ prev :: after) :
    (∃ between, before = front ++ between ∧ back = between ++ prev :: after) ∨
      ∃ between, front = before ++ prev :: between ∧ after = between ++ back := by
  rcases List.append_eq_append_iff.mp h with ⟨between, hbefore, hback⟩ | ⟨between, hfront, hafter⟩
  · exact .inl ⟨between, hbefore, hback⟩
  · cases between with
    | nil => exact .inl ⟨[], by simp [hfront], hafter.symm⟩
    | cons first between =>
      obtain ⟨rfl, htail⟩ := List.cons.inj hafter
      exact .inr ⟨between, hfront, htail⟩

/-- The node in front counts for the index of the other one, and is not there any more when it is
put in again. -/
theorem indexBehind_eq (hs : s.placeable.Nodup) (hnode : node ∈ s.placeable)
    (hsplit : s.placeable.erase node = before ++ prev :: after) :
    s.indexBehind node (some prev) = before.length + 1 := by
  obtain ⟨front, back, hback⟩ := List.append_of_mem hnode
  rw [hback] at hs hsplit
  have hfront : node ∉ front := fun hmem ↦
    (List.nodup_append.mp hs).2.2 node hmem node List.mem_cons_self rfl
  have hnodeAt : s.logicalIndex? node = some front.length := by
    rw [logicalIndex?, hback]
    exact findIdx?_middle back hfront
  rw [List.erase_append_right _ hfront, List.erase_cons_head] at hsplit
  have hprevAt : ∀ pre post : List NodeId, front ++ node :: back = pre ++ prev :: post →
      s.logicalIndex? prev = some pre.length := by
    intro pre post he
    rw [logicalIndex?, hback, he]
    rw [he] at hs
    exact findIdx?_middle post fun hmem ↦
      (List.nodup_append.mp hs).2.2 prev hmem prev List.mem_cons_self rfl
  rcases append_eq_append_cons hsplit with ⟨between, rfl, rfl⟩ | ⟨between, rfl, rfl⟩
  · have hat := hprevAt (front ++ node :: between) after (by simp)
    have hlt : front.length < front.length + (between.length + 1) := by omega
    simp only [indexBehind, hat, hnodeAt, List.length_append, List.length_cons, Option.getD_some,
      Option.any_some, hlt, decide_true, if_true, Nat.add_assoc]
  · have hat := hprevAt before (between ++ node :: back) (by simp)
    have hlt : ¬ before.length + (between.length + 1) < before.length := by omega
    simp only [indexBehind, hat, hnodeAt, List.length_append, List.length_cons, Option.getD_some,
      Option.any_some, hlt, decide_false, Bool.false_eq_true, if_false]

theorem placeable_moveBehind_some (hs : s.placeable.Nodup) (h : s.find? node = some e)
    (he : e.isPlaceable) (hsplit : s.placeable.erase node = before ++ prev :: after) :
    (s.moveBehind node (some prev)).placeable = before ++ prev :: node :: after := by
  have hnode : node ∈ s.placeable :=
    mem_placeable.mpr ⟨e, (mem_of_find? h).1, he, (mem_of_find? h).2⟩
  have hmiddle := insertIdx_middle node (before ++ [prev]) after
  rw [List.append_assoc, List.append_assoc, List.singleton_append, List.singleton_append,
    List.length_append, List.length_singleton] at hmiddle
  rw [moveBehind_eq, placeable_moveTo h, placeable_purge h, if_pos he,
    indexBehind_eq hs hnode hsplit,
    hsplit, insertClamped_of_le (by simp), hmiddle]

def isTaken (moved : List NodeId) (e : Entry) : Bool := e.isPlaceable && moved.contains e.node

structure Shifted (moved : List NodeId) (s s' : Store) : Prop where
  others : s'.entries.filter (!isTaken moved ·) = s.entries.filter (!isTaken moved ·)
  states : s'.entries.Perm (s.entries.map fun e ↦ if isTaken moved e then relocated e else e)

theorem Shifted.refl (s : Store) : Shifted [] s s where
  others := rfl
  states := by simp [isTaken]

theorem isTaken_relocated (he : e.isPlaceable) : isTaken moved (relocated e) = isTaken moved e := by
  rw [isTaken, isTaken, relocated_isPlaceable, relocated_node, he]

theorem isTaken_cons (node : NodeId) (moved : List NodeId) (e : Entry) :
    isTaken (node :: moved) e = (isTaken [node] e || isTaken moved e) := by
  simp only [isTaken, List.contains_cons, List.contains_nil, Bool.or_false]
  cases e.isPlaceable <;> simp

theorem shifted_moveTo (hs : s.placeable.Nodup) (h : s.find? node = some e) (he : e.isPlaceable)
    (index : Int) : Shifted [node] s (s.moveTo node index) := by
  obtain ⟨before, after, front, back, hentries, -, hsplit, hmove⟩ := entries_moveTo h index
  have htaken : isTaken [node] e = true := by simp [isTaken, he, (mem_of_find? h).2]
  have hstay : ∀ x ∈ before ++ after, isTaken [node] x = false := by
    rw [placeable, hentries, List.filter_append, List.filter_cons_of_pos he, List.map_append,
      List.map_cons, List.nodup_middle, (mem_of_find? h).2, ← List.map_append,
      ← List.filter_append] at hs
    intro x hx
    by_contra hne
    have hx' : x.isPlaceable = true ∧ x.node = node := by simpa [isTaken] using hne
    exact (List.nodup_cons.mp hs).1 (List.mem_map.mpr ⟨x, List.mem_filter.mpr ⟨hx, hx'.1⟩, hx'.2⟩)
  constructor
  · have hskip : ∀ (x : Entry) (l l' : List Entry), isTaken [node] x = true →
        (l ++ x :: l').filter (!isTaken [node] ·) = (l ++ l').filter (!isTaken [node] ·) :=
      fun x l l' hx ↦ by simp [List.filter_append, hx]
    rw [hmove, hentries, hskip _ _ _ htaken,
      hskip _ _ _ ((isTaken_relocated he).trans htaken), hsplit]
  · have hmap : s.entries.map (fun e ↦ if isTaken [node] e then relocated e else e) =
        before ++ relocated e :: after := by
      have hsame : ∀ l : List Entry, (∀ x ∈ l, isTaken [node] x = false) →
          l.map (fun e ↦ if isTaken [node] e then relocated e else e) = l := fun l hl ↦
        (List.map_congr_left fun x hx ↦ by simp [hl x hx]).trans (List.map_id l)
      rw [hentries, List.map_append, List.map_cons, if_pos htaken,
        hsame before fun x hx ↦ hstay x (List.mem_append_left _ hx),
        hsame after fun x hx ↦ hstay x (List.mem_append_right _ hx)]
    rw [hmap, hmove]
    exact List.perm_middle.trans ((List.Perm.of_eq (by rw [hsplit])).trans List.perm_middle.symm)

theorem Shifted.cons (h : Shifted [node] s s') (h' : Shifted moved s' s'') :
    Shifted (node :: moved) s s'' := by
  constructor
  · have hboth : ∀ l : List Entry, l.filter (!isTaken (node :: moved) ·) =
        (l.filter (!isTaken moved ·)).filter (!isTaken [node] ·) := fun l ↦ by
      rw [List.filter_filter]
      exact List.filter_congr fun e _ ↦ by rw [isTaken_cons, Bool.not_or]
    rw [hboth, hboth, h'.others, List.filter_comm, h.others, List.filter_comm]
  · have htwice : ∀ e : Entry, (if isTaken moved (if isTaken [node] e then relocated e else e) then
        relocated (if isTaken [node] e then relocated e else e)
          else if isTaken [node] e then relocated e else e) =
        if isTaken (node :: moved) e then relocated e else e := by
      intro e
      rw [isTaken_cons node moved e]
      cases isTaken [node] e with
      | false => simp
      | true => simp [relocated_relocated]
    refine h'.states.trans ((h.states.map _).trans (.of_eq ?_))
    rw [List.map_map]
    exact List.map_congr_left fun e _ ↦ htwice e

theorem find?_moveTo_of_ne {other : NodeId} (hne : other ≠ node) (index : Int) :
    (s.moveTo node index).find? other = s.find? other := by
  cases h : s.find? node with
  | none => rw [moveTo_of_find?_eq_none h]
  | some e =>
    obtain ⟨before, after, front, back, hentries, -, hsplit, hmove⟩ := entries_moveTo h index
    have hskip : ∀ (x : Entry) (l l' : List Entry), x.node = node →
        (l ++ x :: l').find? (·.node == other) = (l ++ l').find? (·.node == other) :=
      fun x l l' hx ↦ by simp [List.find?_append, hx, hne.symm]
    have hnode := (mem_of_find? h).2
    rw [find?, find?, hmove, hentries, hskip _ _ _ hnode,
      hskip _ _ _ ((relocated_node e).trans hnode), hsplit]

def arrangeAlong (s : Store) (moving : List NodeId) (prev : Option NodeId) : List NodeId → Store
  | [] => s
  | node :: rest =>
    (if moving.contains node then s.moveBehind node prev else s).arrangeAlong
      moving (some node) rest

def movesAlong (s : Store) (moving : List NodeId) (prev : Option NodeId) :
    List NodeId → List (NodeId × Nat)
  | [] => []
  | node :: rest =>
    if moving.contains node then
      (node, s.indexBehind node prev) ::
        (s.moveBehind node prev).movesAlong moving (some node) rest
    else s.movesAlong moving (some node) rest

theorem realizeOrder_eq_arrangeAlong (s : Store) (current target : List NodeId) :
    s.realizeOrder current target = s.arrangeAlong (displaced current target) none target := by
  have hfold : ∀ (moving rest : List NodeId) (prev : Option NodeId) (s : Store),
      (rest.zip (prev :: rest.map some)).foldl
        (fun s step ↦ if moving.contains step.1 then s.moveBehind step.1 step.2 else s) s =
      s.arrangeAlong moving prev rest := by
    intro moving rest
    induction rest with
    | nil => intro prev s; rfl
    | cons node rest ih =>
      intro prev s
      rw [List.map_cons, List.zip_cons_cons, List.foldl_cons]
      exact ih (some node) _
  exact hfold _ _ _ _

theorem arrangeAlong_eq_foldl (s : Store) (moving : List NodeId) (prev : Option NodeId)
    (rest : List NodeId) : s.arrangeAlong moving prev rest =
      (s.movesAlong moving prev rest).foldl (fun s move ↦ s.moveTo move.1 move.2) s := by
  induction rest generalizing prev s with
  | nil => rfl
  | cons node rest ih =>
    rw [arrangeAlong, movesAlong]
    split
    · rw [List.foldl_cons, ← moveBehind_eq]
      exact ih _ _
    · exact ih _ _

theorem map_fst_movesAlong (s : Store) (moving : List NodeId) (prev : Option NodeId)
    (rest : List NodeId) :
    (s.movesAlong moving prev rest).map Prod.fst = rest.filter (moving.contains ·) := by
  induction rest generalizing prev s with
  | nil => rfl
  | cons node rest ih =>
    rw [movesAlong, List.filter_cons]
    split
    · rw [List.map_cons, ih]
    · exact ih _ _

def inOrder (moving done : List NodeId) (id : NodeId) : Bool :=
  done.contains id || !moving.contains id

theorem inOrder_concat_of_ne {id : NodeId} (h : id ≠ node) :
    inOrder moving (done ++ [node]) id = inOrder moving done id := by
  simp [inOrder, h]

theorem inOrder_concat_of_notMem (hn : node ∉ moving) :
    inOrder moving (done ++ [node]) = inOrder moving done := by
  funext id
  by_cases hid : id = node
  · simp [inOrder, hid, hn]
  · exact inOrder_concat_of_ne hid

theorem filter_inOrder_concat {l : List NodeId} (hl : node ∉ l) :
    l.filter (inOrder moving (done ++ [node])) = l.filter (inOrder moving done) :=
  List.filter_congr fun _ hid ↦ inOrder_concat_of_ne (ne_of_mem_of_not_mem hid hl)

theorem filter_inOrder_erase {l : List NodeId} (hl : l.Nodup) (hm : node ∈ moving)
    (hnode : node ∉ done) :
    (l.erase node).filter (inOrder moving done) = l.filter (inOrder moving done) := by
  rw [hl.erase_eq_filter, List.filter_filter]
  refine List.filter_congr fun id _ ↦ ?_
  by_cases hid : id = node
  · simp [hid, inOrder, hnode, hm]
  · simp [hid]

/-- Where the walk stands: the nodes behind it are in order, together with those that stay. -/
structure Underway (moving done rest : List NodeId) (s : Store) : Prop where
  nodup : (done ++ rest).Nodup
  perm : s.placeable.Perm (done ++ rest)
  order : s.placeable.filter (inOrder moving done) = done ++ rest.filter (!moving.contains ·)
  found : ∀ id ∈ rest, ∃ e, s.find? id = some e ∧ e.isPlaceable

namespace Underway

theorem keep (h : Underway moving done (node :: rest) s) (hn : node ∉ moving) :
    Underway moving (done ++ [node]) rest s := by
  have hassoc : done ++ node :: rest = (done ++ [node]) ++ rest := by simp
  refine ⟨hassoc ▸ h.nodup, hassoc ▸ h.perm, ?_,
    fun id hid ↦ h.found id (List.mem_cons_of_mem _ hid)⟩
  rw [inOrder_concat_of_notMem hn, h.order, List.filter_cons_of_pos (by simpa using hn),
    List.append_assoc]
  rfl

theorem placeable_moveBehind (h : Underway moving done (node :: rest) s) :
    ∃ before after, s.placeable.erase node = before ++ after ∧
      (s.moveBehind node done.getLast?).placeable = before ++ node :: after ∧
        before.getLast? = done.getLast? := by
  obtain ⟨e, hfind, he⟩ := h.found node List.mem_cons_self
  rcases List.eq_nil_or_concat' done with rfl | ⟨front, prev, rfl⟩
  · exact ⟨[], s.placeable.erase node, rfl, placeable_moveBehind_none hfind he, rfl⟩
  · have hs : s.placeable.Nodup := h.perm.nodup_iff.mpr h.nodup
    have hne : prev ≠ node := (List.nodup_append.mp h.nodup).2.2 prev (by simp) node (by simp)
    have hprev : prev ∈ s.placeable.erase node :=
      (List.mem_erase_of_ne hne).mpr (h.perm.mem_iff.mpr (by simp))
    obtain ⟨before, after, hsplit⟩ := List.append_of_mem hprev
    refine ⟨before ++ [prev], after, by rw [hsplit, List.append_assoc]; rfl, ?_, by simp⟩
    rw [List.getLast?_append, List.getLast?_singleton, Option.some_or,
      placeable_moveBehind_some hs hfind he hsplit, List.append_assoc]
    rfl

theorem mem_placeable (h : Underway moving done (node :: rest) s) : node ∈ s.placeable :=
  h.perm.mem_iff.mpr (by simp)

theorem singleMove (h : Underway moving done (node :: rest) s) :
    SingleMove s.placeable (s.moveBehind node done.getLast?).placeable := by
  obtain ⟨before, after, herase, hplaceable, -⟩ := h.placeable_moveBehind
  obtain ⟨front, back, hnode, hfront, hrest⟩ := List.exists_erase_eq h.mem_placeable
  exact ⟨node, front, back, before, after, hfront, hrest.symm.trans herase, hplaceable⟩

/-- Of what stands in front of a moved node, the part in order is what the walk has behind it. -/
theorem parts_in_order {p : NodeId → Bool} {later : List NodeId} (hn : (before ++ after).Nodup)
    (hp : (before ++ after).filter p = done ++ later) (hlast : before.getLast? = done.getLast?) :
    before.filter p = done ∧ after.filter p = later := by
  rcases List.eq_nil_or_concat' done with rfl | ⟨front, prev, rfl⟩
  · obtain rfl : before = [] := List.getLast?_eq_none_iff.mp hlast
    exact ⟨rfl, hp⟩
  · obtain ⟨start, rfl⟩ : ∃ start, before = start ++ [prev] := by
      rw [List.getLast?_append, List.getLast?_singleton, Option.some_or,
        List.getLast?_eq_some_iff] at hlast
      exact hlast
    have hprev : p prev = true :=
      (List.mem_filter.mp (hp ▸ by simp : prev ∈ (start ++ [prev] ++ after).filter p)).2
    rw [List.append_assoc, List.singleton_append] at hn
    obtain ⟨hout, -⟩ := List.nodup_cons.mp (List.nodup_middle.mp hn)
    rw [List.mem_append, not_or] at hout
    have heq : start.filter p ++ prev :: after.filter p = front ++ prev :: later := by
      simpa [List.filter_append, hprev] using hp
    obtain ⟨hstart, -, hafter⟩ := (List.append_cons_inj_of_notMem
      (fun hmem ↦ hout.1 (List.mem_filter.mp hmem).1)
      fun hmem ↦ hout.2 (List.mem_filter.mp hmem).1).mp heq
    exact ⟨by rw [List.filter_append, hstart, List.filter_cons_of_pos hprev,
      List.filter_nil], hafter⟩

theorem move (h : Underway moving done (node :: rest) s) (hm : node ∈ moving) :
    Underway moving (done ++ [node]) rest (s.moveBehind node done.getLast?) := by
  have hassoc : done ++ node :: rest = (done ++ [node]) ++ rest := by simp
  have hs : s.placeable.Nodup := h.perm.nodup_iff.mpr h.nodup
  obtain ⟨before, after, herase, hplaceable, hlast⟩ := h.placeable_moveBehind
  refine ⟨hassoc ▸ h.nodup, ?_, ?_, fun id hid ↦ ?_⟩
  · rw [hplaceable, ← hassoc]
    exact (List.perm_middle.trans (.of_eq (by rw [herase]))).trans
      ((List.perm_cons_erase h.mem_placeable).symm.trans h.perm)
  · have hnode : node ∉ done := fun hmem ↦
      (List.nodup_append.mp h.nodup).2.2 node hmem node List.mem_cons_self rfl
    have hout : node ∉ before ++ after := herase ▸ hs.not_mem_erase
    have hold : (before ++ after).filter (inOrder moving done) =
        done ++ rest.filter (!moving.contains ·) := by
      rw [← herase, filter_inOrder_erase hs hm hnode, h.order,
        List.filter_cons_of_neg (by simpa using hm)]
    obtain ⟨hbefore, hafter⟩ := parts_in_order (herase ▸ hs.erase node) hold hlast
    rw [List.mem_append, not_or] at hout
    rw [hplaceable, List.filter_append, List.filter_cons_of_pos (by simp [inOrder]),
      filter_inOrder_concat hout.1, filter_inOrder_concat hout.2, hbefore, hafter,
        List.append_assoc]
    rfl
  · have hne : id ≠ node := fun he ↦
      (List.nodup_cons.mp (List.nodup_append.mp h.nodup).2.1).1 (he ▸ hid)
    rw [moveBehind_eq, find?_moveTo_of_ne hne]
    exact h.found id (List.mem_cons_of_mem _ hid)

theorem arrangeAlong (h : Underway moving done rest s) :
    (s.arrangeAlong moving done.getLast? rest).placeable = done ++ rest ∧
      Shifted (rest.filter (moving.contains ·)) s (s.arrangeAlong moving done.getLast? rest) ∧
      Rearranged (rest.filter (moving.contains ·)).length s.placeable (done ++ rest) := by
  induction rest generalizing done s with
  | nil =>
    have hall : ∀ id ∈ s.placeable, inOrder moving done id = true := fun id hid ↦ by
      have hmem : id ∈ done := by simpa using h.perm.mem_iff.mp hid
      simp [inOrder, hmem]
    have hdone : s.placeable = done ++ [] := by
      rw [← List.filter_eq_self.mpr hall]
      exact h.order
    exact ⟨hdone, .refl s, hdone ▸ .refl _⟩
  | cons node rest ih =>
    have hassoc : done ++ node :: rest = (done ++ [node]) ++ rest := by simp
    have hlast : (done ++ [node]).getLast? = some node := by simp
    rw [Store.arrangeAlong, hassoc]
    by_cases hm : node ∈ moving
    · obtain ⟨hplaceable, hshifted, hmoves⟩ := ih (h.move hm)
      obtain ⟨e, hfind, he⟩ := h.found node List.mem_cons_self
      have hs : s.placeable.Nodup := h.perm.nodup_iff.mpr h.nodup
      have hfirst := shifted_moveTo hs hfind he (s.indexBehind node done.getLast?)
      rw [← moveBehind_eq] at hfirst
      rw [hlast] at hplaceable hshifted
      rw [if_pos (by simpa using hm), List.filter_cons_of_pos (by simpa using hm), List.length_cons]
      exact ⟨hplaceable, hfirst.cons hshifted, .move h.singleMove hmoves⟩
    · have hrest := ih (h.keep hm)
      rw [hlast] at hrest
      rwa [if_neg (by simpa using hm), List.filter_cons_of_neg (by simpa using hm)]

end Underway

theorem underway_start {target : List NodeId} (hs : s.placeable.Nodup)
    (hf : ∀ id ∈ s.placeable, ∃ e, s.find? id = some e ∧ e.isPlaceable)
    (ht : target.Perm s.placeable) : Underway (displaced s.placeable target) [] target s where
  nodup := ht.nodup_iff.mpr hs
  perm := ht.symm
  order := filter_not_displaced hs ht
  found id hid := hf id (ht.subset hid)

/-- The moves turn the store into one with the target order. No other way to the target has fewer
moves, and all entries that are not moved stay as they are. -/
structure FewestMoves (s : Store) (target : List NodeId) (moves : List (NodeId × Nat))
    (s' : Store) : Prop where
  run : s' = moves.foldl (fun s move ↦ s.moveTo move.1 move.2) s
  reached : s'.placeable = target
  enough : Rearranged moves.length s.placeable target
  fewest : ∀ n, Rearranged n s.placeable target → moves.length ≤ n
  shifted : Shifted (moves.map Prod.fst) s s'

theorem find?_isPlaceable_of_nodup (hs : s.nodes.Nodup) :
    ∀ id ∈ s.placeable, ∃ e, s.find? id = some e ∧ e.isPlaceable := by
  intro id hid
  obtain ⟨e, he, hp, rfl⟩ := mem_placeable.mp hid
  exact ⟨e, find?_of_mem hs he, hp⟩

/-- Any order of the placeable entries is reached with the fewest moves, wherever removed, hidden
and borrowed entries stand between them. A move takes the first entry for its node, which has to be
the placeable one; so it is where no node is listed twice, as in the stores of every document. -/
theorem realizeOrder_fewest_moves {target : List NodeId} (hs : s.placeable.Nodup)
    (hf : ∀ id ∈ s.placeable, ∃ e, s.find? id = some e ∧ e.isPlaceable)
    (ht : target.Perm s.placeable) :
    FewestMoves s target (s.movesAlong (displaced s.placeable target) none target)
      (s.realizeOrder s.placeable target) := by
  have hmoved := map_fst_movesAlong s (displaced s.placeable target) none target
  have hdisplaced : target.filter ((displaced s.placeable target).contains ·) =
      displaced s.placeable target :=
    filter_contains_of_sublist List.filter_sublist (ht.nodup_iff.mpr hs)
  have hcount : (s.movesAlong (displaced s.placeable target) none target).length =
      (displaced s.placeable target).length := by
    rw [← List.length_map, hmoved, hdisplaced]
  obtain ⟨hreached, hshifted, hmoves⟩ := (underway_start hs hf ht).arrangeAlong
  rw [hdisplaced, ← hcount] at hmoves
  rw [realizeOrder_eq_arrangeAlong]
  exact ⟨arrangeAlong_eq_foldl _ _ _ _, hreached, hmoves,
    fun n hn ↦ hcount ▸ length_displaced_le hs ht hn, hmoved ▸ hshifted⟩

def crowdedStore : Store where
  entries := [.fresh 7 .hidden true, .fresh 1 .existing true, .fresh 8 .toBeRemoved true,
    .fresh 2 .toBeAdded false, .fresh 9 .applied false, .fresh 3 .moved true,
      .fresh 4 .existing true]

/-- Two moves are enough to let every second node come first, and one is not. -/
theorem realizeOrder_fewest_moves_crowdedStore :
    crowdedStore.placeable = [1, 2, 3, 4] ∧ crowdedStore.nodes.Nodup ∧
      [2, 4, 1, 3].Perm crowdedStore.placeable ∧
      (crowdedStore.realizeOrder crowdedStore.placeable [2, 4, 1, 3]).placeable = [2, 4, 1, 3] ∧
      Rearranged 2 [1, 2, 3, 4] [2, 4, 1, 3] ∧ ¬ Rearranged 1 [1, 2, 3, 4] [2, 4, 1, 3] := by
  have hplaceable : crowdedStore.placeable = [1, 2, 3, 4] := by decide
  have hs : crowdedStore.nodes.Nodup := by decide
  have ht : [2, 4, 1, 3].Perm crowdedStore.placeable := by decide
  have hmoves := realizeOrder_fewest_moves (placeable_nodup hs) (find?_isPlaceable_of_nodup hs) ht
  have hcount : (crowdedStore.movesAlong (displaced crowdedStore.placeable [2, 4, 1, 3]) none
      [2, 4, 1, 3]).length = 2 := by decide +kernel
  have henough := hmoves.enough
  have hfewest := hmoves.fewest 1
  rw [hcount, hplaceable] at henough hfewest
  exact ⟨hplaceable, hs, ht, hmoves.reached, henough, fun h ↦ absurd (hfewest h) (by decide)⟩

end BuildScript.Store
