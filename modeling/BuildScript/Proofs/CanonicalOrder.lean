import BuildScript.Proofs.Placement.Linear
import BuildScript.Proofs.Placement.Moves
import BuildScript.Proofs.Reachable
import BuildScript.Proofs.Store.Indices

namespace BuildScript

open Placement

namespace Store

variable {s : Store} {pre l post before after placed : List NodeId} {node new id : NodeId}
  {e : Entry}

theorem filterMap_position (pre l post : List NodeId) (h : (pre ++ l ++ post).Nodup) :
    l.filterMap (fun id ↦ (pre ++ l ++ post).findIdx? (· == id)) =
      List.range' pre.length l.length := by
  induction l generalizing pre with
  | nil => rfl
  | cons id l ih =>
    have hassoc : pre ++ id :: l ++ post = (pre ++ [id]) ++ l ++ post := by simp
    have hid : id ∉ pre := by
      rw [List.append_assoc] at h
      exact fun hmem ↦ (List.nodup_append.mp h).2.2 id hmem id (by simp) rfl
    have hhead : (pre ++ id :: l ++ post).findIdx? (· == id) = some pre.length := by
      rw [List.append_assoc, List.cons_append]
      exact findIdx?_middle _ hid
    have hrest := ih (pre ++ [id]) (hassoc ▸ h)
    rw [← hassoc, List.length_append, List.length_singleton] at hrest
    rw [List.filterMap_cons, hhead, List.length_cons, List.range'_succ]
    simp only [hrest]

theorem filterMap_getElem? (pre l post : List NodeId) :
    (List.range' pre.length l.length).filterMap ((pre ++ l ++ post)[·]?) = l := by
  induction l generalizing pre with
  | nil => rfl
  | cons id l ih =>
    have hassoc : pre ++ id :: l ++ post = (pre ++ [id]) ++ l ++ post := by simp
    have hid : (pre ++ id :: l ++ post)[pre.length]? = some id := by simp
    have hrest := ih (pre ++ [id])
    rw [← hassoc, List.length_append, List.length_singleton] at hrest
    rw [List.length_cons, List.range'_succ, List.filterMap_cons, hid]
    simp only [hrest]

theorem displaced_self (h : placed.Nodup) : displaced placed placed = [] :=
  List.length_eq_zero_iff.mp (Nat.le_zero.mp (length_displaced_le h (.refl _) (.refl _)))

theorem displaced_forward (h : (before ++ after ++ [new]).Nodup) (ha : after ≠ []) :
    displaced (before ++ after ++ [new]) (before ++ new :: after) = [new] := by
  obtain ⟨k, hk⟩ : ∃ k, after.length = k + 1 :=
    ⟨after.length - 1, by have := List.length_pos_iff.mpr ha; omega⟩
  have hnew : new ∉ before ++ after :=
    fun hmem ↦ (List.nodup_append.mp h).2.2 new hmem new (by simp) rfl
  have hbefore := filterMap_position [] before (after ++ [new]) (by simpa using h)
  have hafter := filterMap_position before after [new] h
  have hlast := findIdx?_middle [] hnew
  simp only [List.nil_append, List.length_nil, ← List.append_assoc] at hbefore
  have hplaces : (before ++ new :: after).filterMap
      (fun id ↦ (before ++ after ++ [new]).findIdx? (· == id)) = forward before.length k := by
    rw [List.filterMap_append, hbefore, List.filterMap_cons, hlast, forward, hafter, hk,
      List.length_append, hk, List.range_eq_range', ← Nat.add_assoc]
  have hkept : (List.range before.length ++ List.range' (before.length + 1) (k + 1)).filterMap
      ((before ++ new :: after)[·]?) = before ++ after := by
    have hb := filterMap_getElem? [] before (new :: after)
    have ha := filterMap_getElem? (before ++ [new]) after []
    simp only [List.nil_append, List.append_nil, List.length_nil, List.append_assoc,
      List.singleton_append, List.length_append, List.length_singleton, hk] at hb ha
    rw [List.filterMap_append, List.range_eq_range', hb, ha]
  simp only [displaced, hplaces, longestIncreasing_forward, hkept]
  have hb : ∀ id ∈ before, (!(before ++ after).contains id) = false := by simp +contextual
  have ha : ∀ id ∈ after, (!(before ++ after).contains id) = false := by simp +contextual
  rw [List.filter_append, List.filter_eq_nil_iff.mpr (by simpa using hb), List.filter_cons_of_pos
    (by simpa using hnew), List.filter_eq_nil_iff.mpr (by simpa using ha), List.nil_append]

theorem foldl_moveBehind (before after : List NodeId) (prev : Option NodeId)
    (hb : new ∉ before) (ha : new ∉ after) (s : Store) :
    ((before ++ new :: after).zip (prev :: (before ++ new :: after).map some)).foldl
        (fun s (node, behind) ↦ if [new].contains node then s.moveBehind node behind else s) s =
      s.moveBehind new (before.getLast? <|> prev) := by
  have hskip : ∀ (l : List NodeId) (prevs : List (Option NodeId)) (s : Store), new ∉ l →
      (l.zip prevs).foldl
          (fun s (node, behind) ↦ if [new].contains node then s.moveBehind node behind else s) s =
        s := by
    intro l prevs s hl
    induction l generalizing prevs with
    | nil => rfl
    | cons id l ih =>
      cases prevs with
      | nil => rfl
      | cons p prevs =>
        rw [List.mem_cons, not_or] at hl
        rw [List.zip_cons_cons, List.foldl_cons]
        simpa [Ne.symm hl.1] using ih prevs hl.2
  induction before generalizing prev with
  | nil =>
    rw [List.nil_append, List.map_cons, List.zip_cons_cons, List.foldl_cons, hskip _ _ _ ha]
    simp
  | cons id before ih =>
    rw [List.mem_cons, not_or] at hb
    rw [List.cons_append, List.map_cons, List.zip_cons_cons, List.foldl_cons]
    have hid : [new].contains id = false := by simpa using Ne.symm hb.1
    simp only [hid, Bool.false_eq_true, if_false]
    rw [ih (some id) hb.2]
    cases before <;> rfl

theorem realizeOrder_forward (h : (before ++ after ++ [new]).Nodup) (ha : after ≠ []) (s : Store) :
    s.realizeOrder (before ++ after ++ [new]) (before ++ new :: after) =
      s.moveBehind new before.getLast? := by
  have hnew : new ∉ before ++ after :=
    fun hmem ↦ (List.nodup_append.mp h).2.2 new hmem new (by simp) rfl
  rw [List.mem_append, not_or] at hnew
  simp only [realizeOrder, displaced_forward h ha]
  rw [foldl_moveBehind before after none hnew.1 hnew.2 s]
  simp

theorem realizeOrder_self (h : placed.Nodup) (s : Store) : s.realizeOrder placed placed = s := by
  simp only [realizeOrder, displaced_self h]
  refine List.foldlRecOn (motive := fun s' ↦ s' = s) _ _ rfl fun s' hs' p _ ↦ ?_
  simpa using hs'

@[simp]
theorem placeable_add (s : Store) (new : NodeId) :
    (s.add new .toBeAdded false).placeable = s.placeable ++ [new] := by
  simp [placeable, add, Entry.fresh, Entry.isPlaceable, EntryState.isPlaceable]

/-- The entry appended last goes right behind the node that comes before it. -/
theorem entries_moveBehind_add (hs : s.nodes.Nodup) (hnew : new ∉ s.nodes)
    (hp : s.placeable = before ++ after) :
    ((s.add new .toBeAdded false).moveBehind new before.getLast?).entries =
      s.entries.insertIdx (slot s.entries before.length) (.fresh new .toBeAdded false) := by
  have hfind : (s.add new .toBeAdded false).find? new = some (.fresh new .toBeAdded false) := by
    have hnone : s.entries.find? (·.node == new) = none := by
      rw [List.find?_eq_none]
      intro e he hn
      exact hnew (by simpa using (beq_iff_eq.mp hn) ▸ mem_nodes_of_mem he)
    simp [find?, add, hnone, Entry.fresh]
  have herase : (s.add new .toBeAdded false).entries.eraseP (·.node == new) = s.entries := by
    have hnone : ∀ e ∈ s.entries, ¬ (e.node == new) = true := fun e he hn ↦
      hnew (beq_iff_eq.mp hn ▸ mem_nodes_of_mem he)
    rw [add, List.eraseP_append_right _ hnone]
    simp [Entry.fresh]
  have hmove : ∀ index : Int, ((s.add new .toBeAdded false).moveTo new index).entries =
      s.entries.insertIdx (slot s.entries index.toNat) (.fresh new .toBeAdded false) := by
    intro index
    rw [moveTo, hfind]
    simp only [herase]
    rfl
  have hnodup := placeable_nodup hs
  rw [hp] at hnodup
  have hplaced : new ∉ before ++ after := by
    rw [← hp]
    intro hmem
    obtain ⟨e, he, -, rfl⟩ := mem_placeable.mp hmem
    exact hnew (mem_nodes_of_mem he)
  rcases List.eq_nil_or_concat' before with rfl | ⟨front, last, rfl⟩
  · exact hmove 0
  · have hlast : (s.add new .toBeAdded false).logicalIndex? last = some front.length := by
      have hfront : last ∉ front := by
        intro hmem
        rw [List.append_assoc] at hnodup
        exact (List.nodup_append.mp hnodup).2.2 last hmem last (by simp) rfl
      rw [logicalIndex?, placeable_add, hp]
      simpa using findIdx?_middle (after ++ [new]) hfront
    have hself : (s.add new .toBeAdded false).logicalIndex? new =
        some (front ++ [last] ++ after).length := by
      rw [logicalIndex?, placeable_add, hp]
      exact findIdx?_middle [] hplaced
    have hbehind : ¬ front.length + 1 + after.length < front.length := by omega
    simp only [List.getLast?_append, List.getLast?_singleton, Option.some_or, moveBehind, hlast,
      hself, Option.getD_some, Option.any_some, hbehind, decide_false, Bool.false_eq_true, if_false,
      hmove, List.length_append, List.length_singleton, Int.toNat_natCast]

theorem realizeOrder_add (hs : s.nodes.Nodup) (hnew : new ∉ s.nodes) {k : Nat}
    (hk : k ≤ s.placeable.length) :
    ∃ j ≤ s.entries.length,
      ((s.add new .toBeAdded false).realizeOrder (s.placeable ++ [new])
          (s.placeable.insertIdx k new)).entries =
        s.entries.insertIdx j (.fresh new .toBeAdded false) ∧
      ((s.add new .toBeAdded false).realizeOrder (s.placeable ++ [new])
          (s.placeable.insertIdx k new)).placeable = s.placeable.insertIdx k new := by
  have hplaced : new ∉ s.placeable := by
    intro hmem
    obtain ⟨e, he, -, rfl⟩ := mem_placeable.mp hmem
    exact hnew (mem_nodes_of_mem he)
  have hnodup : (s.placeable ++ [new]).Nodup :=
    List.nodup_append.mpr ⟨placeable_nodup hs, by simp, by grind⟩
  by_cases hlast : k = s.placeable.length
  · subst hlast
    refine ⟨s.entries.length, Nat.le_refl _, ?_⟩
    rw [List.insertIdx_length_self, realizeOrder_self hnodup, List.insertIdx_length_self]
    exact ⟨rfl, placeable_add s new⟩
  · obtain ⟨before, after, hsplit, hlength⟩ : ∃ before after, s.placeable = before ++ after ∧
        before.length = k := ⟨_, _, (List.take_append_drop k _).symm, List.length_take_of_le hk⟩
    have hafter : after ≠ [] := by
      rintro rfl
      rw [hsplit, List.append_nil] at hlast
      exact hlast hlength.symm
    have htarget : (before ++ after).insertIdx k new = before ++ new :: after := by
      rw [← hlength, insertIdx_middle]
    have hentries := entries_moveBehind_add hs hnew hsplit
    refine ⟨slot s.entries before.length, slot_le_length _ _, ?_⟩
    rw [hsplit, htarget, realizeOrder_forward (hsplit ▸ hnodup) hafter]
    refine ⟨hentries, ?_⟩
    have hcount : before.length ≤ (s.entries.filter (·.isPlaceable)).length := by
      have hlen : s.placeable.length = (s.entries.filter (·.isPlaceable)).length :=
        List.length_map ..
      omega
    rw [placeable, hentries, placeable_insertIdx_slot rfl, Nat.min_eq_left hcount,
      List.map_insertIdx,
      ← placeable, hsplit, insertIdx_middle]
    rfl

theorem kept_of_insertIdx {s' : Store} (hs : s.nodes.Nodup) (hnew : new ∉ s.nodes) {j : Nat}
    (hj : j ≤ s.entries.length)
    (h : s'.entries = s.entries.insertIdx j (.fresh new .toBeAdded false)) :
    s'.entries.filter (·.node != new) = s.entries ∧
      s'.find? new = some (.fresh new .toBeAdded false) := by
  have hold : ∀ e ∈ s.entries, (e.node != new) = true := by
    intro e he
    have hne : e.node ≠ new := fun hn ↦ hnew (hn ▸ mem_nodes_of_mem he)
    simpa using hne
  have hnodes : s'.nodes.Perm (new :: s.nodes) := by
    rw [nodes, h]
    exact (List.perm_insertIdx (.fresh new .toBeAdded false) s.entries hj).map (·.node)
  have hmem : .fresh new .toBeAdded false ∈ s'.entries := by
    rw [h]
    exact (List.mem_insertIdx hj).mpr (.inl rfl)
  have hneg : ((Entry.fresh new .toBeAdded false).node != new) = false := by simp [Entry.fresh]
  refine ⟨?_, find?_of_mem (hnodes.nodup_iff.mpr (List.nodup_cons.mpr ⟨hnew, hs⟩)) hmem⟩
  rw [h, filter_insertIdx_of_neg (p := fun e : Entry ↦ e.node != new) hneg,
    List.filter_eq_self.mpr hold]

theorem kept_of_add (hs : s.nodes.Nodup) (hnew : new ∉ s.nodes) :
    (s.add new .toBeAdded false).entries.filter (·.node != new) = s.entries ∧
      (s.add new .toBeAdded false).find? new = some (.fresh new .toBeAdded false) := by
  refine kept_of_insertIdx hs hnew (Nat.le_refl s.entries.length) ?_
  rw [List.insertIdx_length_self]
  rfl

theorem placeable_fresh_nodup (hs : s.nodes.Nodup) (hnew : new ∉ s.nodes) :
    (s.placeable ++ [new]).Nodup := by
  refine (placeable_add s new).symm ▸ placeable_nodup (s := s.add new .toBeAdded false) ?_
  rw [nodes_add]
  exact List.nodup_append.mpr ⟨hs, by simp, by grind⟩

end Store

namespace Document

variable {d D : Document} {block parent id : NodeId} {s : Store} {spec : Spec} {n : Node}

def Agreed (d d' : Document) : Prop := d'.config = d.config ∧ d'.diagnostics = d.diagnostics

theorem agreed_foldl {f : Document → NodeId → Document} (hf : ∀ d id, Agreed d (f d id))
    (l : List NodeId) (d : Document) : Agreed d (l.foldl f d) :=
  List.foldlRecOn (motive := Agreed d) l f ⟨rfl, rfl⟩ fun _ h id _ ↦
    ⟨(hf _ id).1.trans h.1, (hf _ id).2.trans h.2⟩

theorem agreed_alloc (d : Document) (parent : NodeId) (state : EntryState) (spec : Spec) :
    Agreed d (d.alloc parent state spec) :=
  (alloc_induction state (M := fun d _ _ d' ↦ Agreed d d') (N := fun d _ _ d' ↦ Agreed d d')
    (fun _ _ _ _ ih ↦ ih) (fun _ _ ↦ ⟨rfl, rfl⟩)
    fun _ _ _ _ _ _ ih ih' ↦ ⟨ih'.1.trans ih.1, ih'.2.trans ih.2⟩).1 d parent spec

theorem agreed_stage (d : Document) (block : NodeId) (spec : Spec)
    (list : NodeId → Store → Store) : Agreed d (d.stage block spec list) := by
  have hmarked := agreed_foldl (f := fun d id ↦ d.modifyNode id Node.markModified)
    (fun _ _ ↦ ⟨rfl, rfl⟩) ((d.graft block .toBeAdded spec list).lineage block)
    (d.graft block .toBeAdded spec list)
  have hscanned := agreed_foldl (f := fun d id ↦ d.modifyNode id (Node.scanEdges id))
    (fun _ _ ↦ ⟨rfl, rfl⟩)
    (((d.alloc block .toBeAdded spec).modifyStore block (list d.nextId)).ownedSubtree d.nextId)
    ((d.alloc block .toBeAdded spec).modifyStore block (list d.nextId))
  have halloc := agreed_alloc d block .toBeAdded spec
  exact ⟨hmarked.1.trans (hscanned.1.trans halloc.1), hmarked.2.trans (hscanned.2.trans halloc.2)⟩

theorem appended (h : Linked d) (hs : d.store? block = some s) (spec : Spec) :
    (d.stage block spec fun id s ↦ s.add id .toBeAdded false).store? block =
        some (s.add d.nextId .toBeAdded false) ∧
      (∀ i < d.nextId, ((d.stage block spec fun id s ↦ s.add id .toBeAdded false).node? i).map
        Node.bare = (d.node? i).map Node.bare) ∧
      ((d.stage block spec fun id s ↦ s.add id .toBeAdded false).node? d.nextId).map Node.bare =
        some (headNode block .toBeAdded spec).bare := by
  have hlt := h.lt_of_store? hs
  obtain ⟨-, hext, hnew⟩ := h.alloc hlt .toBeAdded spec
  have halike : Alike ((d.alloc block .toBeAdded spec).modifyStore block
      (·.add d.nextId .toBeAdded false))
        (d.stage block spec fun id s ↦ s.add id .toBeAdded false) :=
    (Alike.recordEdges _ _).trans (.markModified _ block)
  refine ⟨?_, fun i hi ↦ ?_, ?_⟩
  · rw [halike.store?, store?_modifyStore, if_pos rfl, hext.store block hlt (Nat.ne_of_lt hlt), hs]
    rfl
  · rw [halike.bare, node?_modifyStore, hext.node i hi]
  · rw [halike.bare, node?_modifyStore, hnew]
    rfl

theorem store?_stage (h : Linked d) (hb : block < d.nextId) {b : NodeId} (hlt : b < d.nextId)
    (hne : b ≠ block) {list : NodeId → Store → Store} :
    (d.stage block spec list).store? b = d.store? b := by
  obtain ⟨-, hext, -⟩ := h.alloc hb .toBeAdded spec
  have halike : Alike ((d.alloc block .toBeAdded spec).modifyStore block (list d.nextId))
      (d.stage block spec list) := (Alike.recordEdges _ _).trans (.markModified _ block)
  rw [halike.store?, store?_modifyStore, if_neg hne.symm, hext.store b hlt (Nat.ne_of_lt hlt)]

theorem store?_placeNew_of_ne {b node : NodeId} (hne : b ≠ block) :
    (d.placeNew block node).store? b = d.store? b := by
  rcases d.placeNew_cases block node with ha | ⟨s, target, -, -, he⟩
  · exact ha.store? b
  · rw [he, store?_modifyStore, if_neg hne.symm]

theorem rankOf_eq_bare (d : Document) (kind : BlockKind) (i : NodeId) :
    d.rankOf kind i = ((d.node? i).map Node.bare).bind fun n ↦
      rankIn (d.config.orderFor kind) n.name.full := by
  rw [rankOf]
  cases d.node? i <;> rfl

/-- Where the canonical order puts a new declaration among the placeable ones of a block, and what
goes on record. -/
inductive CanonicalPlace (d : Document) (block : NodeId) (spec : Spec) (placed : List NodeId) :
    List NodeId → List Diagnostic → Prop
  | unordered : (d.node? block).bind (·.kind.blockKind?) = none →
      CanonicalPlace d block spec placed (placed ++ [d.nextId]) d.diagnostics
  | unranked {kind : BlockKind} : (d.node? block).bind (·.kind.blockKind?) = some kind →
      rankIn (d.config.orderFor kind) spec.name.full = none →
      CanonicalPlace d block spec placed (placed ++ [d.nextId]) d.diagnostics
  | contradicted {kind : BlockKind} {r : Nat} :
      (d.node? block).bind (·.kind.blockKind?) = some kind →
      rankIn (d.config.orderFor kind) spec.name.full = some r →
      Contradicts (d.rankOf kind) r placed →
      CanonicalPlace d block spec placed (placed ++ [d.nextId]) (d.diagnostics ++
        [⟨.placementConflict, block, d.nextId, conflictMessage spec.name.full kind⟩])
  | ranked {kind : BlockKind} {r : Nat} :
      (d.node? block).bind (·.kind.blockKind?) = some kind →
      rankIn (d.config.orderFor kind) spec.name.full = some r →
      ¬ Contradicts (d.rankOf kind) r placed →
      CanonicalPlace d block spec placed
        (placed.insertIdx (placed.findIdx (isAbove (d.rankOf kind) r)) d.nextId) d.diagnostics

theorem run_add (hd : Linked d) (hs : d.store? block = some s) (spec : Spec) :
    (Edit.add block spec).run d = (.ok (.node d.nextId),
      (d.stage block spec fun id s ↦ s.add id .toBeAdded false).placeNew block d.nextId) := by
  obtain ⟨n, hn, -⟩ := hd.isContainer_of_store? hs
  have hexec := EditM.exec_add (container_eq_ok hn hs) spec
  have hrun : (Edit.add block spec).run d = (Outcome.node <$> EditM.add block spec).exec d := rfl
  rw [hrun, EditM.exec_map, hexec]
  rfl

/-- The block of a new declaration after `add`, in the document `d'`: it lists the declaration as
staged at its canonical place, and all its other entries as they were and in the same order. -/
structure CanonicallyAdded (d : Document) (block : NodeId) (spec : Spec) (s : Store)
    (d' : Document) (s' : Store) : Prop where
  store : d'.store? block = some s'
  others : s'.entries.filter (·.node != d.nextId) = s.entries
  staged : s'.find? d.nextId = some (.fresh d.nextId .toBeAdded false)
  place : CanonicalPlace d block spec s.placeable s'.placeable d'.diagnostics

structure Appended (d : Document) (block : NodeId) (spec : Spec) (s : Store) (D : Document) :
    Prop where
  store : D.store? block = some (s.add d.nextId .toBeAdded false)
  kind : (D.node? block).bind (·.kind.blockKind?) = (d.node? block).bind (·.kind.blockKind?)
  rank : ∀ kind, ∀ id ∈ s.placeable, D.rankOf kind id = d.rankOf kind id
  rank_new : ∀ kind, D.rankOf kind d.nextId = rankIn (d.config.orderFor kind) spec.name.full
  name : D.nameOf d.nextId = spec.name.full
  diagnostics : D.diagnostics = d.diagnostics

namespace Appended

theorem stage (hl : Linked d) (hs : d.store? block = some s) (spec : Spec) :
    Appended d block spec s (d.stage block spec fun id s ↦ s.add id .toBeAdded false) := by
  obtain ⟨hstore, hold, hself⟩ := appended hl hs spec
  obtain ⟨hconfig, hdiag⟩ := agreed_stage d block spec fun id s ↦ s.add id .toBeAdded false
  generalize d.stage block spec (fun id s ↦ s.add id .toBeAdded false) = D at *
  refine ⟨hstore, ?_, fun kind id hid ↦ ?_, fun kind ↦ ?_, ?_, hdiag⟩
  · have hbare : ∀ o : Option Node, o.bind (·.kind.blockKind?) =
        (o.map Node.bare).bind (·.kind.blockKind?) := fun o ↦ by cases o <;> rfl
    rw [hbare, hold block (hl.lt_of_store? hs), ← hbare]
  · obtain ⟨e, he, -, rfl⟩ := Store.mem_placeable.mp hid
    rw [rankOf_eq_bare, rankOf_eq_bare, hconfig,
      hold e.node ((hl.store block s hs).links e.node (Store.mem_nodes_of_mem he)).1]
  · rw [rankOf_eq_bare, hself, hconfig]
    rfl
  · obtain ⟨n, hn, he⟩ := Option.map_eq_some_iff.mp hself
    have hfull : n.name = spec.name := congrArg (·.name) he
    simp only [nameOf, hn, hfull]

theorem stays (h : Appended d block spec s D) (hs : s.nodes.Nodup) (hnew : d.nextId ∉ s.nodes)
    (hplace : CanonicalPlace d block spec s.placeable (s.placeable ++ [d.nextId]) D.diagnostics) :
    CanonicallyAdded d block spec s D (s.add d.nextId .toBeAdded false) := by
  obtain ⟨hkept, hfind⟩ := Store.kept_of_add hs hnew
  exact ⟨h.store, hkept, hfind, (Store.placeable_add s d.nextId).symm ▸ hplace⟩

/-- Where it is ranked it goes in front of the first declaration that is ranked above it, unless
the order is contradicted already. -/
theorem placed (h : Appended d block spec s D) (hs : s.nodes.Nodup) (hnew : d.nextId ∉ s.nodes)
    {kind : BlockKind} (hk : (d.node? block).bind (·.kind.blockKind?) = some kind) {r : Nat}
    (hr : rankIn (d.config.orderFor kind) spec.name.full = some r) :
    ∃ s', CanonicallyAdded d block spec s (D.placeNew block d.nextId) s' := by
  have hrank : D.rankOf kind d.nextId = some r := (h.rank_new kind).trans hr
  have hfilter : (s.placeable ++ [d.nextId]).filter (· != d.nextId) = s.placeable := by
    have hplaced : d.nextId ∉ s.placeable := fun hmem ↦ by
      obtain ⟨e, he, -, hn⟩ := Store.mem_placeable.mp hmem
      exact hnew (hn ▸ Store.mem_nodes_of_mem he)
    have hall : ∀ id ∈ s.placeable, (id != d.nextId) = true := by grind
    simp [List.filter_eq_self.mpr hall]
  have hlin := linearize_eq_insertRanked (Store.placeable_fresh_nodup hs hnew) (by simp) hrank
  rw [hfilter] at hlin
  simp only [placeNew, h.kind, hk, h.store, hrank, Option.isNone_some, Bool.false_eq_true, if_false,
    Store.placeable_add, hlin]
  by_cases hc : Contradicts (d.rankOf kind) r s.placeable
  · rw [insertRanked_eq_none ((contradicts_congr (h.rank kind)).mpr hc)]
    obtain ⟨hkept, hfind⟩ := Store.kept_of_add hs hnew
    refine ⟨_, h.store, hkept, hfind, ?_⟩
    rw [Store.placeable_add, h.diagnostics, h.name]
    exact .contradicted hk hr hc
  · rw [insertRanked_eq_some (fun hc' ↦ hc ((contradicts_congr (h.rank kind)).mp hc')),
      findIdx_isAbove_congr (h.rank kind)]
    have hle : s.placeable.findIdx (isAbove (d.rankOf kind) r) ≤ s.placeable.length :=
      List.findIdx_le_length
    obtain ⟨j, hj, hentries, hplace⟩ := Store.realizeOrder_add hs hnew hle
    obtain ⟨hkept, hfind⟩ := Store.kept_of_insertIdx hs hnew hj hentries
    refine ⟨_, ?_, hkept, hfind, ?_⟩
    · simp only [store?_modifyStore, if_true, h.store, Option.map_some]
    · rw [hplace]
      exact h.diagnostics ▸ .ranked hk hr hc

end Appended

theorem canonicallyAdded (hl : Linked d) (hs : d.store? block = some s) (spec : Spec) :
    ∃ s', CanonicallyAdded d block spec s
      ((d.stage block spec fun id s ↦ s.add id .toBeAdded false).placeNew block d.nextId) s' := by
  have hnodup := (hl.store block s hs).nodup
  have hfresh := hl.not_listed hs (Nat.le_refl d.nextId)
  have happ := Appended.stage hl hs spec
  generalize d.stage block spec (fun id s ↦ s.add id .toBeAdded false) = D at happ
  cases hk : (d.node? block).bind (·.kind.blockKind?) with
  | none =>
    have hstays : D.placeNew block d.nextId = D := by simp only [placeNew, happ.kind, hk]
    rw [hstays]
    exact ⟨_, happ.stays hnodup hfresh (happ.diagnostics.symm ▸ .unordered hk)⟩
  | some kind =>
    cases hr : rankIn (d.config.orderFor kind) spec.name.full with
    | none =>
      have hstays : D.placeNew block d.nextId = D := by
        simp only [placeNew, happ.kind, hk, happ.store, happ.rank_new, hr, Option.isNone_none,
          if_true]
      rw [hstays]
      exact ⟨_, happ.stays hnodup hfresh (happ.diagnostics.symm ▸ .unranked hk hr)⟩
    | some r => exact happ.placed hnodup hfresh hk hr

/-- `add` lists a declaration at its canonical place and reports a contradicted order. No other
entry changes its state or its place among the others, in this block or in another. -/
theorem add_at_canonical_place (hd : Reachable d) (hs : d.store? block = some s) (spec : Spec) :
    ((Edit.add block spec).run d).1 = .ok (.node d.nextId) ∧
      (∃ s', CanonicallyAdded d block spec s ((Edit.add block spec).run d).2 s') ∧
      ∀ b < d.nextId, b ≠ block → ((Edit.add block spec).run d).2.store? b = d.store? b := by
  have hl := hd.linked
  rw [run_add hl hs spec]
  refine ⟨rfl, canonicallyAdded hl hs spec, fun b hb hne ↦ ?_⟩
  rw [store?_placeNew_of_ne hne, store?_stage hl (hl.lt_of_store? hs) hb hne]

def orderedDocument : Document :=
  ((Edit.addParsed root (.literal ⟨["dependencies"]⟩ (.integer 2))).run
    ((Edit.addParsed root (.literal ⟨["plugins"]⟩ (.integer 1))).run
      (.new ⟨"app"⟩
        { orderFor := fun _ ↦ [["plugins"], ["android"], ["dependencies"]] })).2).2

/-- A declaration of the middle group comes between the two others. -/
theorem add_between_orderedDocument :
    Reachable orderedDocument ∧
      ∃ s s', orderedDocument.store? root = some s ∧ s.placeable = [1, 2] ∧
        CanonicallyAdded orderedDocument root (.literal ⟨["android"]⟩ (.integer 3)) s
          ((Edit.add root (.literal ⟨["android"]⟩ (.integer 3))).run orderedDocument).2 s' ∧
        s'.placeable = [1, 3, 2] := by
  have hd : Reachable orderedDocument := .edit _ (.edit _ (.new _ _) trivial) trivial
  obtain ⟨s, hs⟩ : ∃ s, orderedDocument.store? root = some s :=
    Option.isSome_iff_exists.mp (by decide)
  obtain ⟨-, ⟨s', hadded⟩, -⟩ :=
    add_at_canonical_place hd hs (.literal ⟨["android"]⟩ (.integer 3))
  have hbefore : (orderedDocument.store? root).map Store.placeable = some [1, 2] := by decide
  have hafter : ((((Edit.add root (.literal ⟨["android"]⟩ (.integer 3))).run
      orderedDocument).2).store? root).map Store.placeable = some [1, 3, 2] := by decide +kernel
  rw [hs] at hbefore
  rw [hadded.store] at hafter
  exact ⟨hd, s, s', hs, by simpa using hbefore, hadded, by simpa using hafter⟩

end Document

end BuildScript
