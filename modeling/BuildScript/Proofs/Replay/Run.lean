import BuildScript.Proofs.Replay.Order
import BuildScript.Proofs.Unstaged

namespace BuildScript

def Call.relocationsIn (b : NodeId) (calls : List Call) : List (NodeId × Nat) :=
  calls.filterMap fun c ↦
    if c.step = .relocate ∧ c.target.block = b then c.newIndex.map (c.target.id, ·) else none

theorem Call.relocationsIn_append_of_ne {b : NodeId} {c : Call} (calls : List Call)
    (h : ¬ (c.step = .relocate ∧ c.target.block = b)) :
    relocationsIn b (calls ++ [c]) = relocationsIn b calls := by
  simp [relocationsIn, h]

namespace Store

variable {s : Store} {id : NodeId}

theorem inState_modifyEntry_relocated (hs : s.nodes.Nodup) :
    (s.modifyEntry id Entry.relocated).inState .moved = (s.inState .moved).filter (· ≠ id) := by
  obtain ⟨l, baseline⟩ := s
  simp only [modifyEntry, inState, nodes] at hs ⊢
  fun_induction modifyFirst id Entry.relocated l with
  | case1 => rfl
  | case2 e rest hn =>
    obtain ⟨hnot, -⟩ := List.nodup_cons.mp hs
    -- no other entry is for the node
    have hrest : ((rest.filter (·.state = .moved)).map (·.node)).filter (· ≠ id) =
        (rest.filter (·.state = .moved)).map (·.node) := by
      refine List.filter_eq_self.mpr fun x hx ↦ ?_
      obtain ⟨e', he', rfl⟩ := List.mem_map.mp hx
      have hne : e'.node ≠ id := fun he ↦
        hnot (List.mem_map.mpr ⟨e', (List.mem_filter.mp he').1, he.trans hn.symm⟩)
      simpa using hne
    by_cases hm : e.state = .moved
    · simp only [List.filter_cons, Entry.relocated, hm]
      simpa [hn] using hrest.symm
    · simp only [List.filter_cons, Entry.relocated, hm]
      simpa using hrest.symm
  | case3 e rest hn ih =>
    have ih := ih (List.nodup_cons.mp hs).2
    by_cases hm : e.state = .moved
    · simp only [List.filter_cons, hm, decide_true, if_true, List.map_cons, ih]
      simp [hn]
    · simp only [List.filter_cons, hm, decide_false, Bool.false_eq_true, if_false, ih]

theorem logicalIndex?_eq {m : NodeId} (h : m ∈ s.placeable) :
    s.logicalIndex? m = some (s.placeable.idxOf m) := by
  rw [logicalIndex?, List.findIdx?_eq_some_iff_findIdx_eq]
  exact ⟨List.idxOf_lt_length_of_mem h, rfl⟩

end Store

namespace Document

variable {d d' : Document} {b id x : NodeId} {n : Node} {s : Store} {old : List NodeId}

/-- A block owns all that it lists, and all of it is existing or moved. -/
structure OwnsWritten (d : Document) (b : NodeId) (s : Store) : Prop where
  store : d.store? b = some s
  own : ∀ e ∈ s.entries, d.isOwnedBy e.node b
  state : ∀ e ∈ s.entries, e.state = .existing ∨ e.state = .moved

namespace OwnsWritten

theorem placeable_eq (h : OwnsWritten d b s) : s.placeable = s.nodes := by
  rw [Store.placeable, List.filter_eq_self.mpr fun e he ↦ ?_]
  · rfl
  · rcases h.state e he with hst | hst <;> simp [Entry.isPlaceable, hst, EntryState.isPlaceable]

theorem inState_eq_nil (h : OwnsWritten d b s) {state : EntryState} (he : state ≠ .existing)
    (hm : state ≠ .moved) : d.inState b state = [] := by
  refine List.eq_nil_iff_forall_not_mem.mpr fun x hx ↦ ?_
  obtain ⟨s', hs', e, hmem, hst, -⟩ := mem_inState.mp hx
  rw [h.store] at hs'
  cases hs'
  rcases h.state e hmem with hst' | hst'
  · exact he (hst.symm.trans hst')
  · exact hm (hst.symm.trans hst')

theorem alike (h : OwnsWritten d b s) (ha : Alike d d') : OwnsWritten d' b s where
  store := (ha.store? b).trans h.store
  own e he := by
    obtain ⟨n, hn, hp⟩ := isOwnedBy_iff.mp (h.own e he)
    obtain ⟨n', hn', hb⟩ := ha.symm.node? hn
    exact isOwnedBy_iff.mpr ⟨n', hn', (Node.fields_of_bare hb).1.symm.trans hp⟩
  state := h.state

theorem modifyNode (h : OwnsWritten d b s) (i : NodeId) {f : Node → Node}
    (hf : ∀ n, (f n).parent = n.parent) : OwnsWritten (d.modifyNode i f) b s where
  store := h.store
  own e he := by
    obtain ⟨n, hn, hp⟩ := isOwnedBy_iff.mp (h.own e he)
    rw [isOwnedBy_iff, node?_modifyNode, hn]
    split
    · exact ⟨f n, rfl, (hf n).trans hp⟩
    · exact ⟨n, rfl, hp⟩
  state := h.state

theorem modifyStore_of_ne (h : OwnsWritten d b s) (hx : x ≠ b) (f : Store → Store) :
    OwnsWritten (d.modifyStore x f) b s where
  store := by rw [store?_modifyStore, if_neg hx, h.store]
  own := h.own
  state := h.state

theorem modifyStore (h : OwnsWritten d b s) {f : Store → Store}
    (hf : ∀ e' ∈ (f s).entries, ∃ e ∈ s.entries, e'.node = e.node)
    (hst : ∀ e' ∈ (f s).entries, e'.state = .existing ∨ e'.state = .moved) :
    OwnsWritten (d.modifyStore b f) b (f s) where
  store := by rw [store?_modifyStore, if_pos rfl, h.store, Option.map_some]
  own e' he' := by
    obtain ⟨e, he, hn⟩ := hf e' he'
    exact hn ▸ h.own e he
  state := hst

theorem drop (h : OwnsWritten d b s) (hl : Linked d) (hn : d.node? id = some n)
    (hp : n.parent = some x) (hx : x ≠ b) (hb : b ∉ (d.purge x id).ownedSubtree id) :
    OwnsWritten ((d.purge x id).release id) b s := by
  have hpurge : OwnsWritten (d.purge x id) b s := h.modifyStore_of_ne hx _
  have hlp := hl.purge x id
  have hout : ∀ e ∈ s.entries, e.node ∉ (d.purge x id).ownedSubtree id := by
    intro e he hmem
    by_cases heq : e.node = id
    · exact hx (owner_unique (isOwnedBy_iff.mpr ⟨n, hn, hp⟩) (heq ▸ h.own e he))
    · obtain ⟨m, hm, hpm⟩ := isOwnedBy_iff.mp (hpurge.own e he)
      exact hb (ownedSubtree_parent hmem heq hm hpm)
  refine ⟨?_, fun e he ↦ ?_, h.state⟩
  · rw [Document.release, hlp.store?_evicted hb, hpurge.store, Option.map_some,
      Store.without_of_forall_not_mem hout]
    intro s' hs' y hy hyl
    rw [hpurge.store] at hs'
    cases hs'
    obtain ⟨e, he, rfl⟩ := List.mem_map.mp hy
    exact absurd hyl (hout e he)
  · obtain ⟨m, hm, hpm⟩ := isOwnedBy_iff.mp (hpurge.own e he)
    refine isOwnedBy_iff.mpr ⟨m, ?_, hpm⟩
    rw [Document.release, node?_foldl_evict, if_neg (hout e he), hm]

theorem settleWithin (h : OwnsWritten d b s) (fuel : Nat) (hl : Linked d) (hx : ¬ Below d x b) :
    OwnsWritten (d.settleWithin fuel x) b s := by
  induction fuel generalizing d x with
  | zero => exact h
  | succ fuel ih =>
    have hne : ∀ {y : NodeId}, ¬ Below d y b → y ≠ b := by
      rintro y hy rfl
      exact hy .refl
    have hdrop : Linked (d.dropRemovals x) ∧ Inherits d (d.dropRemovals x) ∧
        OwnsWritten (d.dropRemovals x) b s := by
      refine List.foldlRecOn (motive := fun d' ↦ Linked d' ∧ Inherits d d' ∧ OwnsWritten d' b s) _
        (dropRemoval x) ⟨hl, .refl d, h⟩ ?_
      rintro d' ⟨hl', hi, h'⟩ id -
      obtain ⟨hl'', hc, -⟩ := dropRemoval_spec (C := fun _ _ ↦ True) hl' x id
      refine ⟨hl'', hi.trans hc.toInherits, ?_⟩
      unfold dropRemoval
      split
      · next hown =>
        obtain ⟨m, hm, hp⟩ := isOwnedBy_iff.mp hown
        refine h'.drop hl' hm hp (hne hx) fun hmem ↦ hx (hi.below ?_)
        exact (Below.child hm hp).trans (below_modifyStore.mp (ownedSubtree_below hmem))
      · exact h'.modifyStore_of_ne (hne hx) _
    rw [settleWithin_succ]
    generalize d.dropRemovals x = d₁ at hdrop
    obtain ⟨hl₁, hi₁, h₁⟩ := hdrop
    refine modifyNode ?_ x fun _ ↦ rfl
    have hstart : Linked (d₁.modifyStore x Store.settleAll) ∧
        Inherits d (d₁.modifyStore x Store.settleAll) ∧
        OwnsWritten (d₁.modifyStore x Store.settleAll) b s :=
      ⟨hl₁.settleAll x, hi₁.trans (.modifyStore d₁ x _), h₁.modifyStore_of_ne (hne hx) _⟩
    refine (List.foldlRecOn (motive := fun d' ↦ Linked d' ∧ Inherits d d' ∧ OwnsWritten d' b s) _
      (settleChild fuel x) hstart ?_).2.2
    rintro d' ⟨hl', hi, h'⟩ c -
    unfold settleChild
    split
    · exact ⟨hl', hi, h'⟩
    · next hown =>
      obtain ⟨m, hm, hp⟩ := isOwnedBy_iff.mp (by simpa using hown)
      split
      · refine ⟨hl'.settleWithin fuel c, hi.trans (.settleWithin fuel d' c), ih h' hl' ?_⟩
        exact fun hc ↦ hx (hi.below ((Below.child hm hp).trans hc))
      · exact ⟨hl'.commit c, hi.trans (.commit d' c), h'.modifyNode c fun n ↦ n.commit_fields.1⟩

theorem settleOverlays (h : OwnsWritten d b s) (hl : Linked d)
    (ho : ∀ o ∈ d.overlays, ¬ Below d o b) : OwnsWritten d.settleOverlays b s := by
  refine (settleOverlays_induction (P := fun d' ↦ Linked d' ∧ Inherits d d' ∧ OwnsWritten d' b s)
    ⟨hl, .refl d, h⟩ ?_).2.2
  rintro d' fuel o hmem ⟨hl', hi, h'⟩
  refine ⟨hl'.settleWithin fuel o, hi.trans (.settleWithin fuel d' o), h'.settleWithin _ hl' ?_⟩
  exact fun hb ↦ ho o hmem (hi.below hb)

end OwnsWritten

end Document

namespace Run

open Document

variable {σ : Type} {w : Writer σ} {b id x : NodeId} {order moved : List NodeId}
  {d d' : Document} {calls : List Call} {r : Run (σ × List Call)}

/-- As long as the block lives its nodes stand in `order`, and the relocations already asked for
together with those that are left are those of the nodes in `moved`, each to its place. -/
def Relocates (b : NodeId) (order moved : List NodeId) (d : Document) (calls : List Call) : Prop :=
  d.isLive b → ∃ s, OwnsWritten d b s ∧ s.nodes = order ∧
    Call.relocationsIn b calls ++ (s.inState .moved).map (fun m ↦ (m, order.idxOf m)) =
      moved.map fun m ↦ (m, order.idxOf m)

namespace Relocates

theorem beside (h : Relocates b order moved d calls)
    (hd : d'.isLive b → d.isLive b ∧ ∀ s, OwnsWritten d b s → OwnsWritten d' b s) :
    Relocates b order moved d' calls := by
  intro hlive
  obtain ⟨hlive, howns⟩ := hd hlive
  obtain ⟨s, ht, hrest⟩ := h hlive
  exact ⟨s, howns s ht, hrest⟩

theorem note (h : Relocates b order moved d calls) {call : Call}
    (hc : ¬ (call.step = .relocate ∧ call.target.block = b)) :
    Relocates b order moved d (calls ++ [call]) := by
  intro hlive
  rw [Call.relocationsIn_append_of_ne _ hc]
  exact h hlive

theorem inState_eq_nil (h : Relocates b order moved d calls) (hl : Linked d)
    {state : EntryState} (he : state ≠ .existing) (hm : state ≠ .moved) :
    d.inState b state = [] := by
  by_cases hlive : d.isLive b
  · obtain ⟨s, ht, -⟩ := h hlive
    exact ht.inState_eq_nil he hm
  · have hdead : d.node? b = none := by simpa [isLive] using hlive
    simp [inState, hl.store?_of_node?_eq_none hdead]

theorem modifyNode (h : Relocates b order moved d calls) (i : NodeId) {f : Node → Node}
    (hf : ∀ n, (f n).parent = n.parent) : Relocates b order moved (d.modifyNode i f) calls :=
  h.beside fun hlive ↦ ⟨(Inherits.modifyNode d i hf).isLive hlive, fun _ ht ↦ ht.modifyNode i hf⟩

theorem modifyStore_of_ne (h : Relocates b order moved d calls) (hx : x ≠ b) (f : Store → Store) :
    Relocates b order moved (d.modifyStore x f) calls :=
  h.beside fun hlive ↦ ⟨hlive, fun _ ht ↦ ht.modifyStore_of_ne hx f⟩

theorem drop (h : Relocates b order moved d calls) (hl : Linked d) {n : Node}
    (hn : d.node? id = some n) (hp : n.parent = some x) (hx : x ≠ b) :
    Relocates b order moved ((d.purge x id).release id) calls := by
  refine h.beside fun hlive ↦ ⟨(Inherits.drop d x id).isLive hlive, fun s ht ↦ ?_⟩
  refine ht.drop hl hn hp hx fun hmem ↦ ?_
  obtain ⟨m, hm⟩ := isLive_iff.mp hlive
  exact (node?_of_foldl_evict hm).1 hmem

theorem settle_self (h : Relocates b order moved d calls) :
    Relocates b order moved (d.modifyStore b Store.settle) calls := by
  intro hlive
  obtain ⟨s, ht, hs, hcalls⟩ := h hlive
  have hentries : ∀ e' ∈ s.settle.entries, ∃ e ∈ s.entries, e' = Store.settled e := by
    intro e' he'
    rw [Store.settle_entries] at he'
    obtain ⟨e, he, rfl⟩ := List.mem_map.mp he'
    exact ⟨e, he, rfl⟩
  refine ⟨s.settle, ht.modifyStore (fun e' he' ↦ ?_) (fun e' he' ↦ ?_), ?_, ?_⟩
  · obtain ⟨e, he, rfl⟩ := hentries e' he'
    exact ⟨e, he, Store.settled_node e⟩
  · obtain ⟨e, he, rfl⟩ := hentries e' he'
    rw [Store.settled_state]
    exact ht.state e he
  · rw [Store.nodes_settle, ← hs]
  · have hmoved : s.settle.inState .moved = s.inState .moved := by
      rw [Store.inState, Store.inState, Store.settle_entries, List.filter_map, List.map_map]
      simp only [Function.comp_def, Store.settled_state, Store.settled_node]
    rw [hmoved]
    exact hcalls

end Relocates

/-- The block's relocations are on their way in a run. -/
def Schedules (b : NodeId) (order moved : List NodeId) (r : Run (σ × List Call)) : Prop :=
  Relocates b order moved r.document r.writer.2

namespace Schedules

theorem delete (h : Schedules b order moved r) (hl : Linked r.document) (hx : x ≠ b) (id : NodeId) :
    Schedules b order moved (r.delete w.recorded x id) := by
  have hstep := deletion w.recorded x id r
  generalize r.delete w.recorded x id = r' at hstep
  cases hstep with
  | foreign => exact Relocates.modifyStore_of_ne h hx _
  | unwritten hn hp => exact Relocates.drop h hl hn hp hx
  | refused => exact Relocates.note h (by simp [request])
  | deleted hn hp => exact (Relocates.drop h hl hn hp hx).note (by simp [request])

theorem create (h : Schedules b order moved r) (hw : ∀ t call, w.refusal? t call = none)
    (hx : x ≠ b) (id : NodeId) : Schedules b order moved (r.create w.recorded x id) := by
  have hstep := creation w.recorded x id r
  generalize r.create w.recorded x id = r' at hstep
  cases hstep with
  | dead => exact h
  | refused _ hm => simp [Writer.recorded, hw] at hm
  | created range =>
    have hnode := Relocates.modifyNode h id fun n ↦ congrArg (·.1.1) (place_createdAt range n)
    exact (hnode.modifyStore_of_ne hx _).note (by simp [request])

theorem relocate_of_ne (h : Schedules b order moved r) (hx : x ≠ b) (id : NodeId) :
    Schedules b order moved (r.relocate w.recorded x id) := by
  have hstep := relocating w.recorded x id r
  generalize r.relocate w.recorded x id = r' at hstep
  cases hstep with
  | dead => exact h
  | refused => exact Relocates.note h (by simp [relocation, request, target, hx])
  | relocated =>
    exact (Relocates.modifyStore_of_ne h hx _).note (by simp [relocation, request, target, hx])

theorem flush {inner : NodeId → Run (σ × List Call) → Run (σ × List Call)}
    (h : Schedules b order moved r)
    (hin : Schedules b order moved (inner id { r with clean := true }))
    (x : NodeId) : Schedules b order moved (r.flush w.recorded inner x id) := by
  have hstep := flushing w.recorded inner x id r
  generalize r.flush w.recorded inner x id = r' at hstep
  cases hstep with
  | idle => exact h
  | inside => exact hin
  | settled => exact Relocates.modifyNode hin id fun _ ↦ rfl
  | refused => exact Relocates.note h (by simp [request])
  | flushed =>
    have hnode := Relocates.modifyNode h id (f := (·.commit.markWritten)) fun n ↦ n.commit_fields.1
    exact hnode.note (by simp [request])

/-- In the block itself each relocation takes one node from those that are left. -/
theorem relocate_self (hw : ∀ t call, w.refusal? t call = none) (hl : Linked r.document)
    {s : Store} {rest : List NodeId} (ht : OwnsWritten r.document b s) (hs : s.nodes = order)
    (hleft : s.inState .moved = id :: rest)
    (hcalls : Call.relocationsIn b r.writer.2 ++
      (id :: rest).map (fun m ↦ (m, order.idxOf m)) = moved.map fun m ↦ (m, order.idxOf m)) :
    ∃ s', OwnsWritten (r.relocate w.recorded b id).document b s' ∧ s'.nodes = order ∧
      s'.inState .moved = rest ∧
      Call.relocationsIn b (r.relocate w.recorded b id).writer.2 ++
        rest.map (fun m ↦ (m, order.idxOf m)) = moved.map fun m ↦ (m, order.idxOf m) := by
  have hmem : id ∈ s.inState .moved := by simp [hleft]
  obtain ⟨e, he, -, rfl⟩ := Store.mem_inState.mp hmem
  obtain ⟨n, hn, -⟩ := isOwnedBy_iff.mp (ht.own e he)
  have hnodup := (hl.store b s ht.store).nodup
  have hindex : ((r.document.store? b).bind (·.logicalIndex? e.node)).getD 0 =
      order.idxOf e.node := by
    have hplace : e.node ∈ s.placeable := ht.placeable_eq ▸ Store.mem_nodes_of_mem he
    rw [ht.store, Option.bind_some, Store.logicalIndex?_eq hplace, ht.placeable_eq, hs,
      Option.getD_some]
  have hstep := relocating w.recorded b e.node r
  generalize r.relocate w.recorded b e.node = r' at hstep
  cases hstep with
  | dead hdead => simp [hdead] at hn
  | refused _ hm => simp [Writer.recorded, hw] at hm
  | relocated hn' =>
    refine ⟨s.modifyEntry e.node Entry.relocated, ht.modifyStore (fun e' he' ↦ ?_)
      (fun e' he' ↦ ?_), ?_, ?_, ?_⟩
    · rcases Store.mem_modifyFirst he' with he' | ⟨e₀, he₀, -, rfl⟩
      · exact ⟨e', he', rfl⟩
      · exact ⟨e₀, he₀, rfl⟩
    · rcases Store.mem_modifyFirst he' with he' | ⟨e₀, -, -, rfl⟩
      · exact ht.state e' he'
      · exact .inl rfl
    · rw [Store.nodes_modifyEntry (f := Entry.relocated) fun _ ↦ rfl, hs]
    · have hnd := Store.inState_nodup hnodup .moved
      rw [hleft] at hnd
      obtain ⟨hnot, -⟩ := List.nodup_cons.mp hnd
      rw [Store.inState_modifyEntry_relocated hnodup, hleft, List.filter_cons_of_neg (by simp)]
      exact List.filter_eq_self.mpr fun m hm ↦ by
        simpa using fun heq : m = e.node ↦ hnot (heq ▸ hm)
    · rw [← hcalls]
      simp [pass, Writer.recorded, Call.relocationsIn, relocation, request, target, hindex]

theorem relocations_self (h : Schedules b order moved r) (hw : ∀ t call, w.refusal? t call = none)
    (hl : Linked r.document) : Schedules b order moved (r.relocations w.recorded b) := by
  -- The induction is on the nodes left to relocate, with the store as it is before each turn.
  have hfold : ∀ (rest : List NodeId) (r : Run (σ × List Call)) (s : Store), Linked r.document →
      OwnsWritten r.document b s → s.nodes = order → s.inState .moved = rest →
      Call.relocationsIn b r.writer.2 ++ rest.map (fun m ↦ (m, order.idxOf m)) =
        moved.map (fun m ↦ (m, order.idxOf m)) →
      Schedules b order moved (rest.foldl (relocate w.recorded b) r) := by
    intro rest
    induction rest with
    | nil =>
      intro r s _ ht hs hleft hcalls _
      rw [← hleft] at hcalls
      exact ⟨s, ht, hs, hcalls⟩
    | cons id rest ih =>
      intro r s hl ht hs hleft hcalls
      obtain ⟨s', ht', hs', hleft', hcalls'⟩ := relocate_self hw hl ht hs hleft hcalls
      exact ih _ s' (hl.relocate b id) ht' hs' hleft' hcalls'
  by_cases hlive : r.document.isLive b
  · obtain ⟨s, ht, hs, hcalls⟩ := h hlive
    have hlist : r.document.inState b .moved = s.inState .moved := by
      simp only [inState, ht.store]
    rw [relocations, hlist]
    exact hfold _ r s hl ht hs rfl hcalls
  · have hdead : r.document.node? b = none := by simpa [isLive] using hlive
    have hlist : r.document.inState b .moved = [] := by
      simp [inState, hl.store?_of_node?_eq_none hdead]
    rw [relocations, hlist]
    exact h

theorem block (h : Schedules b order moved r) (hw : ∀ t call, w.refusal? t call = none)
    (hl : Linked r.document) (fuel : Nat) (x : NodeId) :
    Schedules b order moved (r.block w.recorded fuel x) := by
  induction fuel generalizing r x with
  | zero => exact h
  | succ fuel ih =>
    obtain ⟨hl₁, -, -⟩ := Continues.deletions (w := w.recorded) hl x
    obtain ⟨hl₂, -, -⟩ := Continues.creations (w := w.recorded) hl₁ x
    obtain ⟨hl₃, -⟩ := Continues.flushes (w := w.recorded) (Continues.block w.recorded fuel) hl₂ x
    have h₁ : Schedules b order moved (r.deletions w.recorded x) := by
      by_cases hx : x = b
      · rw [deletions, hx, Relocates.inState_eq_nil h hl (by simp) (by simp)]
        exact h
      · exact (List.foldlRecOn (motive := fun r ↦ Linked r.document ∧ Schedules b order moved r) _
          (Run.delete w.recorded x) ⟨hl, h⟩ fun r hr id _ ↦
            ⟨hr.1.delete x id, hr.2.delete hr.1 hx id⟩).2
    have h₂ : Schedules b order moved ((r.deletions w.recorded x).creations w.recorded x) := by
      by_cases hx : x = b
      · rw [creations, hx, Relocates.inState_eq_nil (hx ▸ h₁) (hx ▸ hl₁) (by simp) (by simp)]
        exact hx ▸ h₁
      · exact List.foldlRecOn (motive := Schedules b order moved) _ (Run.create w.recorded x) h₁
          fun r hr id _ ↦ hr.create hw hx id
    have h₃ : Schedules b order moved
        (((r.deletions w.recorded x).creations w.recorded x).flushes w.recorded fuel x) :=
      (List.foldlRecOn (motive := fun r ↦ Linked r.document ∧ Schedules b order moved r) _
        (Run.flush w.recorded (Run.block w.recorded fuel) x) ⟨hl₂, h₂⟩ fun r hr id _ ↦
          ⟨hr.1.flush x id fun i _ hr' ↦ hr'.block w.recorded fuel i,
            hr.2.flush (ih (r := { r with clean := true }) hr.2 hr.1 id) x⟩).2
    have h₄ : Schedules b order moved (r.phases w.recorded fuel x) := by
      by_cases hx : x = b
      · subst hx
        exact h₃.relocations_self hw hl₃
      · exact List.foldlRecOn (motive := Schedules b order moved) _ (Run.relocate w.recorded x) h₃
          fun r hr id _ ↦ hr.relocate_of_ne hx id
    rw [block_succ]
    generalize r.phases w.recorded fuel x = r' at h₄
    by_cases hx : x = b
    · subst hx
      exact Relocates.settle_self h₄
    · exact Relocates.modifyStore_of_ne h₄ hx _

end Schedules

end Run

namespace Store

variable {s : Store} {node : NodeId} {e : Entry}

theorem filter_nodes_moveTo (h : s.find? node = some e) (index : Int) {p : NodeId → Bool}
    (hp : p node = false) : (s.moveTo node index).nodes.filter p = s.nodes.filter p := by
  obtain ⟨before, after, k, hs, -, hm⟩ := moveTo_entries h index
  have hnode : e.node = node := (mem_of_find? h).2
  rw [nodes, nodes, hm, hs, List.map_insertIdx, relocated_node, hnode,
    Store.filter_insertIdx_of_neg hp]
  simp [hnode, hp]

theorem mem_inState_moveTo (h : s.find? node = some e) (he : e.state ≠ .toBeAdded)
    (index : Int) {x : NodeId} :
    x ∈ (s.moveTo node index).inState .moved ↔ x = node ∨ x ∈ s.inState .moved := by
  obtain ⟨rest, hperm, hperm'⟩ := perm_moveTo h index
  have hnode : e.node = node := (mem_of_find? h).2
  simp only [mem_inState, hperm'.mem_iff, hperm.mem_iff, List.mem_cons]
  constructor
  · rintro ⟨e', rfl | he', hst, rfl⟩
    · exact .inl (by rw [relocated_node, hnode])
    · exact .inr ⟨e', .inr he', hst, rfl⟩
  · rintro (rfl | ⟨e', rfl | he', hst, rfl⟩)
    · exact ⟨relocated e, .inl rfl, by simp [relocated, he], by rw [relocated_node, hnode]⟩
    · exact ⟨relocated e', .inl rfl, by simp [relocated, he], relocated_node e'⟩
    · exact ⟨e', .inr he', hst, rfl⟩

end Store

namespace Document

variable {σ : Type} {d : Document} {b : NodeId} {s : Store} {old : List NodeId}

def moveAll (d : Document) (b : NodeId) (moves : List (NodeId × Int)) : Document :=
  moves.foldl (fun d m ↦ ((Edit.moveTo b m.1 m.2).run d).2) d

theorem Reached.moveAll (hd : Reachable d) (b : NodeId) (moves : List (NodeId × Int)) :
    Reachable (d.moveAll b moves) :=
  List.foldlRecOn (motive := Reachable) moves _ hd fun _ hd _ _ ↦ .edit _ hd trivial

/-- A block of the main tree after moves within it: what has not been moved stands in the old
order. -/
structure Shuffled (d : Document) (b : NodeId) (old : List NodeId) (s : Store) : Prop where
  main : Below d root b
  ownsWritten : OwnsWritten d b s
  perm : old.Perm s.nodes
  stays : old.filter (· ∉ s.inState .moved) = s.nodes.filter (· ∉ s.inState .moved)

namespace Shuffled

theorem moveTo (h : Shuffled d b old s) (node : NodeId) (index : Int) :
    ∃ s', Shuffled ((Edit.moveTo b node index).run d).2 b old s' := by
  have hedit := Edit.edited (.moveTo b node index) d
  generalize ((Edit.moveTo b node index).run d).2 = d' at hedit
  cases hedit with
  | unchanged => exact ⟨s, h⟩
  | @moveTo _ _ s₀ e n index hs hf =>
    rw [h.ownsWritten.store] at hs
    cases hs
    have ha := Alike.markModified (d.modifyStore b (·.moveTo node index)) b
    have hstate := h.ownsWritten.state e (Store.mem_of_find? hf).1
    have hne : e.state ≠ .toBeAdded := by rcases hstate with he | he <;> simp [he]
    have hmoved := fun x ↦ Store.mem_inState_moveTo (x := x) hf hne index
    refine ⟨s.moveTo node index, ha.below.mpr (below_modifyStore.mpr h.main),
      (h.ownsWritten.modifyStore (fun e' he' ↦ ?_) fun e' he' ↦ ?_).alike ha,
      h.perm.trans (Store.nodes_moveTo index).symm, ?_⟩
    · rcases Store.mem_moveTo he' with he' | ⟨e₀, he₀, -, rfl⟩
      · exact ⟨e', he', rfl⟩
      · exact ⟨e₀, he₀, Store.relocated_node e₀⟩
    · rcases Store.mem_moveTo he' with he' | ⟨e₀, he₀, -, rfl⟩
      · exact h.ownsWritten.state e' he'
      · rcases h.ownsWritten.state e₀ he₀ with he | he <;>
          exact .inr (by simp [Store.relocated, he])
    · -- what stays now has stayed before
      have hsplit : ∀ l : List NodeId, l.filter (· ∉ (s.moveTo node index).inState .moved) =
          (l.filter (· ∉ s.inState .moved)).filter (· ≠ node) := by
        intro l
        rw [List.filter_filter]
        exact List.filter_congr fun x _ ↦ by simp [hmoved x, not_or]
      rw [Store.filter_nodes_moveTo hf index (by simp [hmoved node]), hsplit, hsplit, h.stays]

theorem moveAll (h : Shuffled d b old s) (moves : List (NodeId × Int)) :
    ∃ s', Shuffled (d.moveAll b moves) b old s' := by
  induction moves generalizing d s with
  | nil => exact ⟨s, h⟩
  | cons m moves ih =>
    obtain ⟨s', h'⟩ := h.moveTo m.1 m.2
    exact ih h'

end Shuffled

/-- Where nothing is refused, a visible block is left in its order, and the relocations in it are
those of the moved nodes, each to its place. -/
theorem OwnsWritten.relocations_apply (ht : OwnsWritten d b s) (hd : Reachable d)
    (hb : Below d root b) {w : Writer σ} (hw : ∀ t call, w.refusal? t call = none) (t : σ)
    (hlive : (d.apply w.recorded (t, [])).document.isLive b)
    (hshown : (d.apply w.recorded (t, [])).document.isConcealed b = false) :
    (d.apply w.recorded (t, [])).document.placeable b = s.nodes ∧
      Call.relocationsIn b (d.apply w.recorded (t, [])).writer.2 =
        (s.inState .moved).map fun m ↦ (m, s.nodes.idxOf m) := by
  have hstart : Run.Schedules b s.nodes (s.inState .moved)
      { document := d, writer := ((t, []) : σ × List Call) } := fun _ ↦ ⟨s, ht, rfl, rfl⟩
  have hmain : Run.Schedules b s.nodes (s.inState .moved) (d.writeMain w.recorded (t, [])) := by
    have hblock := hstart.block hw hd.linked d.nodes.size root
    unfold writeMain
    split
    · generalize Run.block w.recorded d.nodes.size root _ = r at hblock
      dsimp only
      split
      · exact Run.Relocates.modifyNode hblock root fun _ ↦ rfl
      · exact hblock
    · exact hstart
  have hc := OnlyUnstages.writeMain hd.linked w.recorded (t, [])
  have hlinked := hd.linked.writeMain w.recorded (t, [])
  obtain ⟨htraced, hroot, hover⟩ := hd.fullyTraced.toTraced.apply w.recorded (t, [])
  have hclean := hroot (clean_apply (w := w.recorded) (fun t call ↦ hw t.1 call) d (t, []))
  rw [apply_eq] at hlive hshown htraced hover hclean ⊢
  generalize d.writeMain w.recorded (t, []) = r at *
  have hout : ∀ o ∈ r.document.overlays, ¬ Below r.document o b := fun o ho hob ↦
    hd.overlaysApart.not_below hd.linked (hc.overlays ▸ ho) hb (hc.below hob)
  obtain ⟨s', ht', hs', hcalls⟩ := hmain ((OnlyUnstages.settleOverlays hlinked).isLive hlive)
  have hlast := ht'.settleOverlays hlinked hout
  have hunstaged : r.document.settleOverlays.isStagedAt b = false := by
    rw [Bool.eq_false_iff]
    intro hst
    have hconc := htraced.isConcealed_of_isStagedAt hclean hover hlive hst
    simp [hshown] at hconc
  have hnone : s'.inState .moved = [] := by
    refine List.eq_nil_iff_forall_not_mem.mpr fun x hx ↦ ?_
    obtain ⟨e, he, hst, -⟩ := Store.mem_inState.mp hx
    have hpending := (isStagedAt_eq_false.mp hunstaged).2 s' e hlast.store he
    simp [Entry.isStaged, hst, EntryState.isPending] at hpending
  rw [hnone, List.map_nil, List.append_nil] at hcalls
  refine ⟨?_, hcalls⟩
  rw [placeable, hlast.store, ← hs']
  exact hlast.placeable_eq

/-- Let a block of the main tree own all its entries, all of them existing, and let moves within it
be written by a writer that refuses nothing, so that the block is still there and shown. Carrying
out the relocations one after the other on the old order yields the block's order exactly when no
two of them cross at a node that stays. It always does when the relocated nodes are all taken out
first. -/
theorem replay_relocations_iff (hd : Reachable d) (hb : root ∈ d.lineage b)
    (hs : d.store? b = some s)
    (hentries : ∀ e ∈ s.entries, e.state = .existing ∧ d.isOwnedBy e.node b)
    (moves : List (NodeId × Int)) {w : Writer σ} (hw : ∀ t call, w.refusal? t call = none) (t : σ)
    {r : Run (σ × List Call)} (hr : r = (d.moveAll b moves).apply w.recorded (t, []))
    (hlive : r.document.isLive b) (hshown : r.document.isConcealed b = false) :
    (Order.replay (d.placeable b) (Call.relocationsIn b r.writer.2) = r.document.placeable b ↔
      Order.Uncrossed (d.placeable b) (r.document.placeable b)
        ((Call.relocationsIn b r.writer.2).map Prod.fst)) ∧
    Order.replay ((d.placeable b).filter
        (· ∉ (Call.relocationsIn b r.writer.2).map Prod.fst))
      (Call.relocationsIn b r.writer.2) = r.document.placeable b := by
  subst hr
  have howns : OwnsWritten d b s :=
    ⟨hs, fun e he ↦ (hentries e he).2, fun e he ↦ .inl (hentries e he).1⟩
  have hbelow : Below d root b := ((mem_lineage hd.linked.older).mp hb).2.2
  have hstart : Shuffled d b s.nodes s := ⟨hbelow, howns, .refl _, rfl⟩
  obtain ⟨s', h'⟩ := hstart.moveAll moves
  have hd' : Reachable (d.moveAll b moves) := Reached.moveAll hd b moves
  obtain ⟨hplace, hcalls⟩ := h'.ownsWritten.relocations_apply hd' h'.main hw t hlive hshown
  have hold : d.placeable b = s.nodes := by
    rw [placeable, hs]
    exact howns.placeable_eq
  have hnodup := (hd.linked.store b s hs).nodup
  have hnodup' := (hd'.linked.store b s' h'.ownsWritten.store).nodup
  have hmoved : s'.inState .moved = s'.nodes.filter (· ∈ s'.inState .moved) :=
    eq_filter_of_sublist (List.filter_sublist.map Entry.node) hnodup'
  have hfst : ((s'.inState .moved).map fun m ↦ (m, s'.nodes.idxOf m)).map Prod.fst =
      s'.inState .moved := by
    rw [List.map_map]
    exact List.map_id _
  rw [hold, hplace, hcalls, hfst, Order.replay_map, Order.replay_map, h'.stays]
  have hstays := h'.stays
  generalize s'.inState .moved = ms at hmoved hstays
  have hneg : ∀ l : List NodeId, l.filter (· ∉ ms) = l.filter fun x ↦ !decide (x ∈ ms) :=
    fun l ↦ List.filter_congr fun x _ ↦ decide_not
  rw [hneg, hneg] at hstays
  have hiff := Order.replayTo_eq_iff hnodup hnodup' h'.perm hstays
  have hall := Order.replayTo_filter hnodup' (· ∈ ms)
  rw [← hmoved] at hiff hall
  exact ⟨hiff, hneg _ ▸ hall⟩

def listDocument : Document :=
  ["a", "b", "c", "d"].foldl (fun d name ↦
    ((Edit.addParsed root (.literal ⟨[name]⟩ (.integer 1))).run d).2) (.new ⟨"list"⟩ {})

def listRun (moves : List (NodeId × Int)) : Run (Unit × List Call) :=
  (listDocument.moveAll root moves).apply Writer.noop.recorded ((), [])

/-- The last two literals go to the front and the first one to the end. -/
theorem replay_relocations_listRun :
    Reachable listDocument ∧ listDocument.placeable root = [1, 2, 3, 4] ∧
      (listRun [(4, 0), (3, 0), (1, 3)]).document.placeable root = [3, 4, 2, 1] ∧
      Order.replay [1, 2, 3, 4]
        (Call.relocationsIn root (listRun [(4, 0), (3, 0), (1, 3)]).writer.2) = [3, 4, 2, 1] := by
  have hd : Reachable listDocument :=
    .edit _ (.edit _ (.edit _ (.edit _ (.new _ _) trivial) trivial) trivial) trivial
  have hold : listDocument.placeable root = [1, 2, 3, 4] := by decide
  have hnew : (listRun [(4, 0), (3, 0), (1, 3)]).document.placeable root = [3, 4, 2, 1] := by decide
  obtain ⟨hiff, -⟩ := replay_relocations_iff hd (b := root) (by decide)
    (s := ⟨listDocument.entries root, none⟩) (by decide) (by decide) [(4, 0), (3, 0), (1, 3)]
    (w := .noop) (fun _ _ ↦ rfl) () rfl (by decide) (by decide)
  rw [hold] at hiff
  exact ⟨hd, hold, hnew, (hiff.mpr (by decide)).trans hnew⟩

/-- The first literal goes behind the third, which then goes in front of it: the relocations, one
after the other, put the third literal before the second, which neither move has touched. -/
theorem crossed_relocations_listRun :
    Reachable listDocument ∧ root ∈ listDocument.lineage root ∧
      (∀ e ∈ listDocument.entries root,
        e.state = .existing ∧ listDocument.isOwnedBy e.node root) ∧
      (∀ t call, Writer.noop.refusal? t call = none) ∧
      Call.relocationsIn root (listRun [(1, 2), (3, 1)]).writer.2 = [(3, 1), (1, 2)] ∧
      Order.replay (listDocument.placeable root)
        (Call.relocationsIn root (listRun [(1, 2), (3, 1)]).writer.2) = [3, 2, 1, 4] ∧
      (listRun [(1, 2), (3, 1)]).document.placeable root = [2, 3, 1, 4] :=
  ⟨.edit _ (.edit _ (.edit _ (.edit _ (.new _ _) trivial) trivial) trivial) trivial, by decide,
    by decide, fun _ _ ↦ rfl, by decide, by decide, by decide⟩

end Document

end BuildScript
