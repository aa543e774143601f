import BuildScript.Proofs.Isolation
import BuildScript.Proofs.Visibility

namespace BuildScript

def Call.job (c : Call) : Step × NodeId := (c.step, c.target.id)

namespace Log

variable {log log' : Log}

def jobs (log : Log) : List (Step × NodeId) := log.map (·.1.job)

theorem jobs_eq (log : Log) : log.jobs = log.briefs.map fun c ↦ (c.step, c.node) := by
  rw [jobs, briefs, List.map_map]
  rfl

/-- The refused calls that are worth another try. A refused creation is given up with its node. -/
def retries (log : Log) : Log := log.filter fun p ↦ p.2.isSome && p.1.step ≠ .create

theorem retries_append (log log' : Log) : retries (log ++ log') = retries log ++ retries log' :=
  List.filter_append ..

theorem isEmpty_retries_append (log log' : Log) :
    (retries (log ++ log')).isEmpty = ((retries log).isEmpty && (retries log').isEmpty) := by
  rw [retries_append]
  cases retries log <;> rfl

end Log

namespace Store

variable {s : Store}

theorem filter_nodes_settle {p : Entry → Bool} (hp : ∀ e, p (settled e) = p e) :
    (s.settle.entries.filter p).map (·.node) = (s.entries.filter p).map (·.node) := by
  have hnode : ((·.node) ∘ settled : Entry → NodeId) = (·.node) := funext settled_node
  rw [s.settle_entries, List.filter_map, List.map_map, hnode]
  exact congrArg _ (List.filter_congr fun e _ ↦ hp e)

end Store

namespace Document

variable {ov l : List NodeId} {d d' d'' : Document} {b id x : NodeId} {state : EntryState}
  {fuel : Nat}

/-- From `d` to `d'` only entries of `b` have changed. None has gone or become placeable or
unplaceable, and what waits for a deletion or a creation still does. -/
structure Relabels (b : NodeId) (d d' : Document) : Prop where
  nodes : ∀ y, d'.node? y = d.node? y
  stores : ∀ y, y ≠ b → d'.store? y = d.store? y
  placeable : d'.placeable b = d.placeable b
  removed : d'.inState b .toBeRemoved = d.inState b .toBeRemoved
  added : d'.inState b .toBeAdded = d.inState b .toBeAdded
  overlays : d'.overlays = d.overlays
  nextId : d'.nextId = d.nextId

namespace Relabels

theorem refl (b : NodeId) (d : Document) : Relabels b d d :=
  ⟨fun _ ↦ rfl, fun _ _ ↦ rfl, rfl, rfl, rfl, rfl, rfl⟩

theorem trans (h : Relabels b d d') (h' : Relabels b d' d'') : Relabels b d d'' where
  nodes y := (h'.nodes y).trans (h.nodes y)
  stores y hy := (h'.stores y hy).trans (h.stores y hy)
  placeable := h'.placeable.trans h.placeable
  removed := h'.removed.trans h.removed
  added := h'.added.trans h.added
  overlays := h'.overlays.trans h.overlays
  nextId := h'.nextId.trans h.nextId

theorem modifyStore {f : Store → Store}
    (hf : ∀ s, d.store? b = some s → (f s).placeable = s.placeable ∧
      (f s).inState .toBeRemoved = s.inState .toBeRemoved ∧
      (f s).inState .toBeAdded = s.inState .toBeAdded) : Relabels b d (d.modifyStore b f) := by
  have hstore : (d.modifyStore b f).store? b = (d.store? b).map f := by
    rw [store?_modifyStore, if_pos rfl]
  refine ⟨fun _ ↦ rfl, fun y hy ↦ ?_, ?_, ?_, ?_, rfl, rfl⟩
  · rw [store?_modifyStore, if_neg (Ne.symm hy)]
  all_goals
    cases hs : d.store? b with
    | none => simp [Document.placeable, Document.inState, hstore, hs]
    | some s => simp [Document.placeable, Document.inState, hstore, hs, hf s hs]

theorem settle (b : NodeId) (d : Document) : Relabels b d (d.modifyStore b Store.settle) := by
  refine .modifyStore fun s _ ↦ ⟨?_, ?_, ?_⟩
  · exact Store.filter_nodes_settle fun e ↦ by simp [Entry.isPlaceable, Store.settled_state]
  · exact Store.filter_nodes_settle fun e ↦ by simp [Store.settled_state]
  · exact Store.filter_nodes_settle fun e ↦ by simp [Store.settled_state]

theorem agrees (h : Relabels b d d') (ho : d.Older) (hid : d.isOwnedBy id b) : Agrees d d' id where
  node x n' hn' := ⟨n', h.nodes x ▸ hn', rfl⟩
  overlays := h.overlays
  nextId := h.nextId
  nodes y _ _ := h.nodes y
  stores y hy := by
    obtain ⟨n, hn, hp⟩ := isOwnedBy_iff.mp hid
    refine h.stores y ?_
    rintro rfl
    exact Below.not_parent ho hn hp hy

end Relabels

theorem placeable_congr (h : d'.store? b = d.store? b) : d'.placeable b = d.placeable b := by
  rw [Document.placeable, Document.placeable, h]

/-- What is planned for a block depends on nothing around it. -/
theorem Agrees.plan_eq (h : Agrees d d' b) (hw : Writable ov d b) (fuel : Nat) :
    d'.plan fuel b = d.plan fuel b := by
  induction fuel generalizing b with
  | zero => rfl
  | succ fuel ih =>
    have hstore := h.stores b .refl
    have hin := inState_congr hstore
    have hplace := placeable_congr hstore
    have hflush : ∀ id ∈ d.placeable b,
        d'.flushPlan (d'.plan fuel) b id = d.flushPlan (d.plan fuel) b id := by
      intro id hid
      have hown := hw.isOwnedBy_of_placeable hid
      have hchild := h.pristine hw.owned.linked.older hown
      simp only [flushPlan, hchild.node, hin, ih hchild.agrees (hw.child hown)]
    simp only [plan, hin, hplace, isNeverWritten, hstore]
    rw [List.flatMap_congr hflush]

theorem Relabels.flushPlan_eq (h : Relabels b d d') (hw : Writable ov d b)
    (hid : id ∈ d.placeable b) :
    d'.flushPlan (d'.plan fuel) b id = d.flushPlan (d.plan fuel) b id := by
  have hown := hw.isOwnedBy_of_placeable hid
  have hplan := (h.agrees hw.owned.linked.older hown).plan_eq (hw.child hown) fuel
  simp only [flushPlan, h.nodes, h.added, hplan]

theorem Writable.not_mem_inState_drop {n : Node} (hw : Writable ov d b) (hn : d.node? id = some n)
    (hp : n.parent = some b) : id ∉ ((d.purge b id).release id).inState b state := by
  intro hid
  obtain ⟨s', hs', e, he, -, hnode⟩ := mem_inState.mp hid
  rw [hw.store?_drop_parent hn hp] at hs'
  obtain ⟨s, hs, rfl⟩ := Option.map_eq_some_iff.mp hs'
  exact Store.not_mem_nodes_purge (hw.owned.linked.store b s hs).nodup
    (hnode ▸ Store.mem_nodes_of_mem he)

theorem isNeverWritten_settle (h : Linked d) (hid : id ∈ d.inState b .toBeRemoved) :
    (d.modifyStore b Store.settle).isNeverWritten b id = d.isNeverWritten b id := by
  obtain ⟨s, hs, e, he, hst, rfl⟩ := mem_inState.mp hid
  have hnodup := (h.store b s hs).nodup
  have hmem : e ∈ s.settle.entries := by
    rw [s.settle_entries]
    exact List.mem_map.mpr ⟨e, he, if_pos hst⟩
  have hfind := Store.find?_of_mem (s.nodes_settle.symm ▸ hnodup) hmem
  simp [isNeverWritten, hs, hfind, Store.find?_of_mem hnodup he]

theorem Changed.inState_eq_filter (h : Changed b (d.inState b state) d d')
    (hw : Writable ov d b) :
    d'.inState b state = (d.inState b state).filter (· ∈ d'.inState b state) := by
  have hsub : ∀ x ∈ d'.inState b state, x ∈ d.inState b state := by
    intro x hx
    by_contra hnot
    exact hnot ((h.mem_inState hnot).mp hx)
  refine eq_filter_of_sublist ?_ (hw.inState_nodup state)
  cases hs : d.store? b with
  | none => simp [Document.inState, h.leaf hs]
  | some s =>
    obtain ⟨s', hs', hnodes, -⟩ := h.own s hs
    have hnodup := (hw.owned.linked.store b s hs).nodup
    simp only [Document.inState, hs, hs'] at hsub ⊢
    have hmine : (s'.inState state).Sublist s.nodes := (List.filter_sublist.map _).trans hnodes
    have hkept : ((s.inState state).filter (· ∈ s'.inState state)).Sublist s.nodes :=
      List.filter_sublist.trans (List.filter_sublist.map _)
    rw [eq_of_sublist_of_mem_iff hnodup hmine hkept fun x ↦ ?_]
    · exact List.filter_sublist
    · simpa using hsub x

theorem flatMap_ite_singleton {p : NodeId → Prop} [DecidablePred p] (g : NodeId → Brief)
    (l : List NodeId) : l.flatMap (fun x ↦ if p x then [g x] else []) = (l.filter p).map g := by
  induction l with
  | nil => rfl
  | cons x l ih =>
    rw [List.flatMap_cons, ih, List.filter_cons]
    split <;> simp_all

theorem inState_settle (d : Document) (b : NodeId) (state : EntryState) :
    (d.modifyStore b Store.settle).inState b state = d.inState b state := by
  have hstore : (d.modifyStore b Store.settle).store? b = (d.store? b).map Store.settle := by
    rw [store?_modifyStore, if_pos rfl]
  unfold Document.inState
  rw [hstore]
  cases d.store? b with
  | none => rfl
  | some s => exact Store.filter_nodes_settle fun e ↦ by simp [Store.settled_state]

def removals (d : Document) (b : NodeId) : List Brief :=
  ((d.inState b .toBeRemoved).filter (!d.isNeverWritten b ·)).map (⟨.delete, ·, b⟩)

theorem plan_succ (d : Document) (fuel : Nat) (b : NodeId) : d.plan (fuel + 1) b =
    d.removals b ++ (d.inState b .toBeAdded).map (⟨.create, ·, b⟩) ++
      (d.placeable b).flatMap (d.flushPlan (d.plan fuel) b) ++
      (d.inState b .moved).map (⟨.relocate, ·, b⟩) := rfl

theorem removals_congr (h : d'.store? b = d.store? b) : d'.removals b = d.removals b := by
  simp only [removals, inState_congr h, isNeverWritten, h]

theorem removals_eq (hin : d'.inState b .toBeRemoved = d.inState b .toBeRemoved)
    (hnever : ∀ x ∈ d.inState b .toBeRemoved, d'.isNeverWritten b x = d.isNeverWritten b x) :
    d'.removals b = d.removals b := by
  rw [removals, removals, hin, List.filter_congr fun x hx ↦ congrArg (!·) (hnever x hx)]

theorem removals_settle (h : Linked d) : (d.modifyStore b Store.settle).removals b = d.removals b :=
  removals_eq (inState_settle d b _) fun _ hx ↦ isNeverWritten_settle h hx

theorem Changed.removals_eq (h : Changed b (d.inState b state) d d') (hw : Writable ov d b)
    (hw' : Writable ov d' b) (hstate : state ≠ .toBeRemoved)
    (hin : d'.inState b .toBeRemoved = d.inState b .toBeRemoved) :
    d'.removals b = d.removals b := by
  refine Document.removals_eq hin fun x hx ↦ h.isNeverWritten_eq hw hw' fun hmem ↦ ?_
  exact hstate ((hw.owned.linked.endsIn hx).eq_of_mem hmem)

def deletePlan (d : Document) (b id : NodeId) : List Brief :=
  if id ∈ d.inState b .toBeRemoved ∧ d.isNeverWritten b id = false then [⟨.delete, id, b⟩] else []

def relocatePlan (d : Document) (b id : NodeId) : List Brief :=
  if id ∈ d.inState b .moved then [⟨.relocate, id, b⟩] else []

end Document

namespace Run

variable {σ : Type} {w : Writer σ} {ov l : List NodeId} {b id : NodeId} {fuel : Nat}
  {r r' r'' : Run (σ × Log)} {T : Document → NodeId → List Brief} {L L' : Log}

open Document

/-- The calls in `L` are those of steps on the children in `l`. The ones to be tried again are just
what the document still needs for these children, and the run is clean if there are none. -/
structure Leaves (T : Document → NodeId → List Brief) (r : Run (σ × Log)) (l : List NodeId)
    (L : Log) (r' : Run (σ × Log)) : Prop where
  log : r'.writer.2 = r.writer.2 ++ L
  clean : r'.clean = (r.clean && (Log.retries L).isEmpty)
  rest : Log.briefs (Log.retries L) = l.flatMap (T r'.document)

theorem Leaves.nil (T : Document → NodeId → List Brief) (r : Run (σ × Log)) :
    Leaves T r [] [] r := ⟨by simp, by simp [Log.retries], rfl⟩

theorem Leaves.append {l l' : List NodeId} (h : Leaves T r l L r')
    (h' : Leaves T r' l' L' r'')
    (hsame : ∀ id ∈ l, T r''.document id = T r'.document id) :
    Leaves T r (l ++ l') (L ++ L') r'' where
  log := by rw [h'.log, h.log, List.append_assoc]
  clean := by
    rw [h'.clean, h.clean, Log.isEmpty_retries_append, Bool.and_assoc]
  rest := by
    rw [Log.retries_append, Log.briefs_append, h.rest, h'.rest, List.flatMap_append,
      List.flatMap_congr hsame]

theorem Leaves.foldl {A : Document → NodeId → Prop} {f : Run (σ × Log) → NodeId → Run (σ × Log)}
    (h : Advances ov b A f)
    (hstep : ∀ r id, Writable ov r.document b → A r.document id → ∃ L, Leaves T r [id] L (f r id))
    (hsame : ∀ r id l d', Writable ov r.document b → A r.document id →
      Writable ov (f r id).document b → (∀ i ∈ l, A (f r id).document i) →
      Changed b l (f r id).document d' → Writable ov d' b → id ∉ l →
      T d' id = T (f r id).document id)
    (hl : l.Nodup) (hw : Writable ov r.document b) (ha : ∀ id ∈ l, A r.document id) :
    Writable ov (l.foldl f r).document b ∧ Changed b l r.document (l.foldl f r).document ∧
      ∃ L, Leaves T r l L (l.foldl f r) := by
  suffices hall : Writable ov (l.foldl f r).document b ∧
      Changed b l r.document (l.foldl f r).document ∧ (Writable ov r.document b →
        Writable ov (l.foldl f r).document b ∧ ∃ L, Leaves T r l L (l.foldl f r)) from
    ⟨hall.1, hall.2.1, (hall.2.2 hw).2⟩
  refine h.foldl (Q := fun r l r' ↦ Writable ov r.document b →
    Writable ov r'.document b ∧ ∃ L, Leaves T r l L r') (fun r hw ↦ ⟨hw, [], .nil T r⟩) ?_
    hl hw ha
  intro r id l r' hw hid hnot hw' hrest hc hq _
  obtain ⟨hw'', L', h'⟩ := hq hw'
  obtain ⟨L, h⟩ := hstep r id hw hid
  refine ⟨hw'', L ++ L', h.append h' fun i hi ↦ ?_⟩
  obtain rfl := List.mem_singleton.mp hi
  exact hsame r i l _ hw hid hw' hrest hc hw'' hnot

theorem Leaves.silent {d : Document} (h : T d id = []) :
    Leaves T r [id] [] { r with document := d } :=
  ⟨by simp, by simp [Log.retries], by simp [h, Log.retries, Log.briefs]⟩

theorem Leaves.accept {call : Call} {d : Document} {report : Report}
    (hm : w.audited.refusal? r.writer call = none) (h : T d id = []) :
    Leaves T r [id] [(call, none)] (r.pass w.audited call d report) where
  log := congrArg (fun a ↦ r.writer.2 ++ [(call, a)]) hm
  clean := by simp [Log.retries, pass]
  rest := by simp [Log.retries, Log.briefs, pass, h]

theorem Leaves.refuse {call : Call} {message : String}
    (hm : w.audited.refusal? r.writer call = some message) (hs : call.step ≠ .create)
    (h : T r.document id = [call.brief]) :
    Leaves T r [id] [(call, some message)] (r.fail w.audited call message).unclean where
  log := congrArg (fun a ↦ r.writer.2 ++ [(call, a)]) hm
  clean := by simp [Log.retries, hs, unclean]
  rest := by simp [Log.retries, Log.briefs, hs, h, unclean, fail]

theorem leaves_delete (hw : Writable ov r.document b)
    (hid : id ∈ r.document.inState b .toBeRemoved) :
    ∃ L, Leaves (deletePlan · b) r [id] L (r.delete w.audited b id) := by
  have hgone : ∀ n, r.document.node? id = some n → n.parent = some b →
      deletePlan ((r.document.purge b id).release id) b id = [] := fun n hn hp ↦
    if_neg fun h ↦ hw.not_mem_inState_drop hn hp h.1
  have hstep := Run.deletion w.audited b id r
  generalize r.delete w.audited b id = r' at hstep
  cases hstep with
  | foreign hforeign =>
    obtain ⟨n, hn, hp⟩ := isOwnedBy_iff.mp (hw.isOwnedBy_of_inState (by simp) hid)
    exact absurd hp (hforeign n hn)
  | unwritten hn hp => exact ⟨[], .silent (hgone _ hn hp)⟩
  | refused hn hp hnever hm => exact ⟨_, .refuse hm (by simp [request]) (if_pos ⟨hid, hnever⟩)⟩
  | deleted hn hp hnever hm => exact ⟨_, .accept hm (hgone _ hn hp)⟩

theorem leaves_create (hw : Writable ov r.document b)
    (hid : id ∈ r.document.inState b .toBeAdded) :
    ∃ L, Leaves (fun _ _ ↦ []) r [id] L (r.create w.audited b id) := by
  obtain ⟨n, hn, -⟩ := isOwnedBy_iff.mp (hw.isOwnedBy_of_inState (by simp) hid)
  have hstep := Run.creation w.audited b id r
  generalize r.create w.audited b id = r' at hstep
  cases hstep with
  | dead hdead => simp [hn] at hdead
  | @refused n message hn hm =>
    refine ⟨[(r.request .create b id n, some message)], ?_, ?_, rfl⟩
    · exact congrArg (fun a ↦ r.writer.2 ++ [(r.request .create b id n, a)]) hm
    · simp [Log.retries, request, fail]
  | created range hn hm => exact ⟨_, .accept hm rfl⟩

theorem leaves_relocate (hw : Writable ov r.document b)
    (hid : id ∈ r.document.inState b .moved) :
    ∃ L, Leaves (relocatePlan · b) r [id] L (r.relocate w.audited b id) := by
  obtain ⟨n, hn, -⟩ := isOwnedBy_iff.mp (hw.isOwnedBy_of_inState (by simp) hid)
  have hstep := Run.relocating w.audited b id r
  generalize r.relocate w.audited b id = r' at hstep
  cases hstep with
  | dead hdead => simp [hn] at hdead
  | refused hn hm => exact ⟨_, .refuse hm (by simp [relocation, request]) (if_pos hid)⟩
  | relocated hn hm =>
    refine ⟨_, .accept hm (if_neg fun hmem ↦ ?_)⟩
    obtain ⟨s', hs', e, he, hst, hnode⟩ := mem_inState.mp hmem
    rw [Document.modifyEntry, store?_modifyStore, if_pos rfl] at hs'
    obtain ⟨s, hs, rfl⟩ := Option.map_eq_some_iff.mp hs'
    obtain ⟨e₀, -, -, rfl⟩ :=
      Store.mem_modifyEntry_self (hw.owned.linked.store b s hs).nodup he hnode
    simp [Entry.relocated] at hst

/-- What is left to do for a block is what has been refused in it. -/
def Returns (ov : List NodeId) (w : Writer σ) (fuel : Nat) : Prop :=
  ∀ b (r : Run (σ × Log)), Writable ov r.document b →
    ∃ L, Leaves (·.plan fuel) r [b] L (r.block w.audited fuel b)

theorem leaves_flush (hin : Returns ov w fuel) (hw : Writable ov r.document b)
    (hid : id ∈ r.document.placeable b) (hnew : id ∉ r.document.inState b .toBeAdded) :
    ∃ L, Leaves (fun d ↦ d.flushPlan (d.plan fuel) b) r [id] L
      (r.flush w.audited (block w.audited fuel) b id) := by
  have hown := hw.isOwnedBy_of_placeable hid
  have hconf := block_confined w.audited fuel id { r with clean := true } (hw.child hown)
  obtain ⟨L, h⟩ := hin id { r with clean := true } (hw.child hown)
  have hstep := Run.flushing w.audited (block w.audited fuel) b id r
  generalize r.flush w.audited (block w.audited fuel) b id = r' at hstep
  cases hstep with
  | idle hidle =>
    refine ⟨[], .silent (d := r.document) ?_⟩
    unfold flushPlan
    cases hn : r.document.node? id with
    | none => rfl
    | some n => simp [hidle n hn]
  | @inside n hn hm hc hunclean =>
    have hn' := (hconf.nodes id fun _ ↦ rfl).trans hn
    refine ⟨L, h.log, ?_, ?_⟩
    · rw [h.clean] at hunclean ⊢
      simp_all
    · rw [h.rest]
      simp [flushPlan, hn', hm, hc]
  | @settled n hn hm hc hclean =>
    have hn' := (hconf.nodes id fun _ ↦ rfl).trans hn
    have hnone : Log.retries L = [] := by
      rw [h.clean] at hclean
      simpa using hclean
    refine ⟨L, h.log, by simp [hnone], ?_⟩
    rw [hnone]
    simp [flushPlan, hn', Node.markWritten, Log.briefs]
  | @refused n message hn hm hc hrefused =>
    refine ⟨_, .refuse hrefused (by simp [request]) ?_⟩
    simp only [flushPlan, hn, hm, hc, hnew]
    rfl
  | @flushed n hn hm hc haccepted =>
    refine ⟨_, .accept haccepted ?_⟩
    simp [flushPlan, hn, Node.markWritten]

theorem deletions_leave (w : Writer σ) (hw : Writable ov r.document b) :
    Writable ov (r.deletions w.audited b).document b ∧
      ∃ L, Leaves (fun d _ ↦ d.removals b) r [b] L (r.deletions w.audited b) := by
  obtain ⟨hw', hc, L, h⟩ := Leaves.foldl (T := (deletePlan · b))
    (advances_delete w.audited ov b) (fun r id hw hid ↦ leaves_delete hw hid)
    (fun r id l d' _ _ hw _ hc hw' hnot ↦ by
      simp only [deletePlan, hc.mem_inState hnot, hc.isNeverWritten_eq hw hw' hnot])
    (hw.inState_nodup .toBeRemoved) hw fun _ hid ↦ hid
  unfold deletions
  refine ⟨hw', L, h.log, h.clean, h.rest.trans ?_⟩
  rw [List.flatMap_singleton, removals, hc.inState_eq_filter hw, List.filter_filter]
  refine (flatMap_ite_singleton _ _).trans (congrArg _ (List.filter_congr fun x _ ↦ ?_))
  rw [Bool.eq_iff_iff]
  simp [and_comm]

theorem creations_leave (w : Writer σ) (hw : Writable ov r.document b) :
    ∃ L, Leaves (fun _ _ ↦ []) r [b] L (r.creations w.audited b) := by
  obtain ⟨-, -, L, h⟩ := Leaves.foldl (T := fun _ _ ↦ []) (advances_create w.audited ov b)
    (fun r id hw hid ↦ leaves_create hw hid) (fun _ _ _ _ _ _ _ _ _ _ _ ↦ rfl)
    (hw.inState_nodup .toBeAdded) hw fun _ hid ↦ hid
  exact ⟨L, h.log, h.clean, h.rest.trans (by simp)⟩

theorem relocations_leave (w : Writer σ) (hw : Writable ov r.document b) :
    ∃ L, Leaves (fun d _ ↦ (d.inState b .moved).map (⟨.relocate, ·, b⟩)) r [b] L
      (r.relocations w.audited b) := by
  obtain ⟨-, hc, L, h⟩ := Leaves.foldl (T := (relocatePlan · b))
    (advances_relocate w.audited ov b) (fun r id hw hid ↦ leaves_relocate hw hid)
    (fun r id l d' _ _ _ _ hc _ hnot ↦ by simp only [relocatePlan, hc.mem_inState hnot])
    (hw.inState_nodup .moved) hw fun _ hid ↦ hid
  unfold relocations
  refine ⟨L, h.log, h.clean, h.rest.trans ?_⟩
  rw [List.flatMap_singleton, hc.inState_eq_filter hw]
  exact flatMap_ite_singleton _ _

theorem store?_flush (w : Writer σ) (fuel : Nat) (hw : Writable ov r.document b)
    (hid : r.document.isOwnedBy id b) :
    (r.flush w.audited (block w.audited fuel) b id).document.store? b = r.document.store? b := by
  have hinner := (block_confined w.audited fuel id { r with clean := true }
    (hw.child hid)).store?_parent hw.owned.linked.older hid
  have hstep := Run.flushing w.audited (block w.audited fuel) b id r
  generalize r.flush w.audited (block w.audited fuel) b id = r' at hstep
  cases hstep with
  | idle => rfl
  | inside => exact hinner
  | settled => exact hinner
  | refused => rfl
  | flushed => rfl

theorem flushPlan_changed {d d' : Document} (hw : Writable ov d b) (hid : d.isOwnedBy id b)
    (hl : ∀ i ∈ l, d.isOwnedBy i b) (hc : Changed b l d d') (hnot : id ∉ l) :
    d'.flushPlan (d'.plan fuel) b id = d.flushPlan (d.plan fuel) b id := by
  have hself : Agrees d d id := ⟨.refl d, fun _ _ _ ↦ rfl, fun _ _ ↦ rfl⟩
  obtain ⟨hagrees, hnode⟩ := hself.changed hw.owned.linked.older hc hid hl hnot
  simp only [flushPlan, hnode, hc.mem_inState hnot, hagrees.plan_eq (hw.child hid) fuel]

theorem flushes_leave (hin : Returns ov w fuel) (hw : Writable ov r.document b)
    (hnew : r.document.inState b .toBeAdded = []) :
    Writable ov (r.flushes w.audited fuel b).document b ∧
      (r.flushes w.audited fuel b).document.store? b = r.document.store? b ∧
      ∃ L, Leaves (fun d _ ↦ (d.placeable b).flatMap (d.flushPlan (d.plan fuel) b)) r [b] L
        (r.flushes w.audited fuel b) := by
  have hflush : Advances ov b _ _ := advances_flush w.audited (block_confined w.audited fuel) b
  have hadv := hflush.strengthen (B := fun d id ↦ id ∉ d.inState b .toBeAdded)
    fun d d' id i _ _ hc hne hi ↦ by rwa [hc.mem_inState (by simpa using hne)]
  have hstep : ∀ (r : Run (σ × Log)) id, Writable ov r.document b →
      id ∈ r.document.placeable b →
      (r.flush w.audited (block w.audited fuel) b id).document.store? b =
        r.document.store? b := fun r id hw hid ↦
    store?_flush w fuel hw (hw.isOwnedBy_of_placeable hid)
  obtain ⟨hw', -, L, h⟩ := Leaves.foldl (T := fun d ↦ d.flushPlan (d.plan fuel) b) hadv
    (fun r id hw hid ↦ leaves_flush hin hw hid.1 hid.2)
    (fun r id l d' hw hid hw' hrest hc _ hnot ↦
      flushPlan_changed hw'
        (hw'.isOwnedBy_of_placeable (placeable_congr (hstep r id hw hid.1) ▸ hid.1))
        (fun i hi ↦ hw'.isOwnedBy_of_placeable (hrest i hi).1) hc hnot)
    hw.placeable_nodup hw fun id hid ↦ ⟨hid, by simp [hnew]⟩
  have hstore := (hflush.foldl (Q := fun r _ r' ↦ r'.document.store? b = r.document.store? b)
    (fun _ ↦ rfl) (fun r id _ _ hw hid _ _ _ _ hq ↦ hq.trans (hstep r id hw hid))
    hw.placeable_nodup hw fun _ hid ↦ hid).2.2
  refine ⟨hw', hstore, L, h.log, h.clean, h.rest.trans ?_⟩
  rw [List.flatMap_singleton, flushes, placeable_congr hstore]

theorem relabels_relocate (w : Writer σ) (hw : Writable ov r.document b)
    (hid : id ∈ r.document.inState b .moved) :
    Relabels b r.document (r.relocate w.audited b id).document := by
  have hstep := Run.relocating w.audited b id r
  generalize r.relocate w.audited b id = r' at hstep
  cases hstep with
  | dead => exact .refl _ _
  | refused => exact .refl _ _
  | relocated =>
    refine .modifyStore fun s hs ↦ ?_
    have hmoved : ∀ e ∈ s.entries, e.node = id → e.state = .moved := fun e he hn ↦
      hw.owned.linked.state_of_mem_inState hid hs he hn
    refine ⟨?_, ?_, ?_⟩
    · exact Store.filter_nodes_modifyEntry (fun _ ↦ rfl) fun e he hn ↦ by
        simp [Entry.isPlaceable, Entry.relocated, hmoved e he hn, EntryState.isPlaceable]
    · exact Store.filter_nodes_modifyEntry (fun _ ↦ rfl) fun e he hn ↦ by
        simp [Entry.relocated, hmoved e he hn]
    · exact Store.filter_nodes_modifyEntry (fun _ ↦ rfl) fun e he hn ↦ by
        simp [Entry.relocated, hmoved e he hn]

theorem relabels_relocations (w : Writer σ) (hw : Writable ov r.document b) :
    Writable ov (r.relocations w.audited b).document b ∧
      Changed b (r.document.inState b .moved) r.document (r.relocations w.audited b).document ∧
      Relabels b r.document (r.relocations w.audited b).document :=
  (advances_relocate w.audited ov b).foldl
    (Q := fun r _ r' ↦ Relabels b r.document r'.document) (fun r ↦ .refl b r.document)
    (fun _ _ _ _ hw hid _ _ _ _ hq ↦ (relabels_relocate w hw hid).trans hq)
    (hw.inState_nodup .moved) hw fun _ hid ↦ hid

theorem creations_end (w : Writer σ) (hw : Writable ov r.document b) :
    Writable ov (r.creations w.audited b).document b ∧
      (r.creations w.audited b).document.inState b .toBeAdded = [] ∧
      (r.creations w.audited b).document.removals b = r.document.removals b := by
  have ho := hw.owned.linked.older
  have hself : Agrees r.document r.document b := ⟨.refl _, fun _ _ _ ↦ rfl, fun _ _ ↦ rfl⟩
  obtain ⟨hw', hc, L, h⟩ := creations_spec w ho hw fun id hid ↦
    ⟨hid, hself.pristine ho (hw.isOwnedBy_of_inState (by simp) hid)⟩
  have hnone : (r.creations w.audited b).document.inState b .toBeAdded = [] := by
    refine List.eq_nil_iff_forall_not_mem.mpr fun id hid ↦ ?_
    by_cases hmem : id ∈ r.document.inState b .toBeAdded
    · exact absurd ((h.ends id hmem).eq_of_mem hid) (by simp)
    · exact hmem ((hc.mem_inState hmem).mp hid)
  have hremoved : (r.creations w.audited b).document.inState b .toBeRemoved =
      r.document.inState b .toBeRemoved :=
    hc.inState_eq_of_ends hw (fun _ hid ↦ hid) h.ends (by simp) (by simp)
  exact ⟨hw', hnone, hc.removals_eq hw hw' (by simp) hremoved⟩

/-- A block is left with what has been refused in it, and asks for no more in the next run. -/
theorem returns (ov : List NodeId) (w : Writer σ) (fuel : Nat) : Returns ov w fuel := by
  induction fuel with
  | zero =>
    intro b r _
    exact ⟨[], by simp [block], by simp [block, Log.retries], rfl⟩
  | succ fuel ih =>
    intro b r hw
    obtain ⟨hw₁, L₁, h₁⟩ := deletions_leave w hw
    obtain ⟨L₂, h₂⟩ := creations_leave w hw₁
    obtain ⟨hw₂, hnone, hremovals₂⟩ := creations_end w hw₁
    obtain ⟨hw₃, hstore, L₃, h₃⟩ := flushes_leave ih hw₂ hnone
    obtain ⟨L₄, h₄⟩ := relocations_leave w hw₃
    obtain ⟨hw₄, hc₄, hrelabels⟩ := relabels_relocations w hw₃
    rw [block_succ, phases]
    generalize r.deletions w.audited b = r₁ at *
    generalize r₁.creations w.audited b = r₂ at *
    generalize r₂.flushes w.audited fuel b = r₃ at *
    generalize r₃.relocations w.audited b = r₄ at *
    have hsettle := Relabels.settle b r₄.document
    have hlast := hrelabels.trans hsettle
    have hremovals : (r₄.document.modifyStore b Store.settle).removals b =
        r₁.document.removals b := by
      rw [removals_settle hw₄.owned.linked, hc₄.removals_eq hw₃ hw₄ (by simp) hrelabels.removed,
        removals_congr hstore, hremovals₂]
    have hadded : (r₄.document.modifyStore b Store.settle).inState b .toBeAdded = [] := by
      rw [hlast.added, inState_congr hstore, hnone]
    have hflush : ∀ id ∈ r₃.document.placeable b,
        (r₄.document.modifyStore b Store.settle).flushPlan
          ((r₄.document.modifyStore b Store.settle).plan fuel) b id =
        r₃.document.flushPlan (r₃.document.plan fuel) b id := fun id hid ↦
      hlast.flushPlan_eq hw₃ hid
    refine ⟨L₁ ++ L₂ ++ L₃ ++ L₄, ?_, ?_, ?_⟩
    · simp only [h₄.log, h₃.log, h₂.log, h₁.log, List.append_assoc]
    · simp only [h₄.clean, h₃.clean, h₂.clean, h₁.clean, Log.isEmpty_retries_append,
        Bool.and_assoc]
    · simp only [Log.retries_append, Log.briefs_append, h₁.rest, h₂.rest, h₃.rest, h₄.rest,
        List.flatMap_singleton]
      rw [plan_succ, hremovals, hadded, hlast.placeable, List.flatMap_congr hflush,
        inState_settle]
      rfl

end Run

namespace Document

variable {σ τ : Type} {ov : List NodeId} {d : Document} {b : NodeId} {c c' : Brief} {fuel : Nat}

theorem plan_owned (h : Writable ov d b) (hc : c ∈ d.plan fuel b) : d.isOwnedBy c.node c.block := by
  induction fuel generalizing b with
  | zero => simp [plan] at hc
  | succ fuel ih =>
    rcases mem_plan_succ.mp hc with ⟨id, hid, -, rfl⟩ | ⟨id, hid, rfl⟩ | ⟨id, hid, hc⟩ |
      ⟨id, hid, rfl⟩
    · exact h.isOwnedBy_of_inState (by simp) hid
    · exact h.isOwnedBy_of_inState (by simp) hid
    · have hown := h.isOwnedBy_of_placeable hid
      rcases mem_flushPlan hc with ⟨rfl, -⟩ | hc
      · exact hown
      · exact ih (h.child hown) hc
    · exact h.isOwnedBy_of_inState (by simp) hid

/-- A node has one parent, so a plan has no job twice. -/
theorem eq_of_job_eq (h : Writable ov d b) (hc : c ∈ d.plan fuel b) (hc' : c' ∈ d.plan fuel b)
    (he : (c.step, c.node) = (c'.step, c'.node)) : c = c' := by
  obtain ⟨n, hn, hp⟩ := isOwnedBy_iff.mp (plan_owned h hc)
  obtain ⟨n', hn', hp'⟩ := isOwnedBy_iff.mp (plan_owned h hc')
  obtain ⟨step, node, block⟩ := c
  obtain ⟨step', node', block'⟩ := c'
  simp only [Prod.mk.injEq] at he
  obtain ⟨rfl, rfl⟩ := he
  rw [hn] at hn'
  cases hn'
  rw [hp] at hp'
  cases hp'
  rfl

theorem nodup_jobs_audit (ho : Owned False ov (fun _ ↦ False) d) (w : Writer σ) (s : σ) :
    (d.audit w s).jobs.Nodup := by
  have hroot : Writable ov d root := ⟨ho, .refl⟩
  have hplan : (d.runPlan.map fun c ↦ (c.step, c.node)).Nodup := by
    unfold runPlan
    split
    · exact (nodup_plan hroot).map_on fun c hc c' hc' he ↦ eq_of_job_eq hroot hc hc' he
    · exact List.nodup_nil
  rw [Log.jobs_eq, executes_audit ho w s]
  exact hplan.sublist (List.filter_sublist.map _)

theorem runPlan_settleOverlays (ho : Owned False ov (fun _ ↦ False) d)
    (hov : ∀ o ∈ d.overlays, o ∈ ov) : d.settleOverlays.runPlan = d.runPlan := by
  have hsettles : Settles ov d d.settleOverlays := .overlays ho hov
  have hinherits := Inherits.settleOverlays d
  have hmain : ∀ y, Below d root y →
      d.settleOverlays.node? y = d.node? y ∧ d.settleOverlays.store? y = d.store? y := fun y hy ↦
    hsettles.beside y (ho.not_below_of_main hy)
  have hagrees : Agrees d d.settleOverlays root :=
    ⟨hinherits, fun y hy _ ↦ (hmain y hy).1, fun y hy ↦ (hmain y hy).2⟩
  have hmodified : d.settleOverlays.isModified root = d.isModified root := by
    rw [isModified, isModified, (hmain root .refl).1]
  have hsize : d.settleOverlays.nodes.size = d.nodes.size := hinherits.nextId
  rw [runPlan, runPlan, hmodified, hsize, hagrees.plan_eq ⟨ho, .refl⟩]

/-- A run leaves the calls to be made that were refused in it, but for creations. -/
theorem runPlan_apply (ho : Owned False ov (fun _ ↦ False) d) (hov : ∀ o ∈ d.overlays, o ∈ ov)
    (w : Writer σ) (s : σ) : (d.apply w s).document.runPlan = (d.audit w s).retries.briefs := by
  have hdoc := congrArg Run.document (forget_apply w.simulates_audited d (s, []))
  obtain ⟨hown, hi⟩ := ho.writeMain w.audited (s, [])
  rw [← hdoc, Run.forget, audit, apply_eq,
    runPlan_settleOverlays hown fun o hmem ↦ hov o (hi.overlays ▸ hmem)]
  have hroot : Writable ov d root := ⟨ho, .refl⟩
  obtain ⟨L, h⟩ := Run.returns ov w d.nodes.size root { document := d, writer := (s, []) } hroot
  have hconf := Run.block_confined w.audited d.nodes.size root
    { document := d, writer := (s, []) } hroot
  simp only [writeMain]
  split
  · next hmod =>
    generalize Run.block w.audited d.nodes.size root _ = r at h hconf
    have hlog : r.writer.2 = L := h.log
    have hrest : L.retries.briefs = r.document.plan d.nodes.size root := by simpa using h.rest
    have hsize : r.document.nodes.size = d.nodes.size := hconf.nextId
    have hmod' : r.document.isModified root = true := by
      rw [isModified, hconf.nodes root fun _ ↦ rfl]
      exact hmod
    simp only [hlog]
    split
    · next hclean =>
      have hnone : L.retries = [] := by simpa [h.clean] using hclean
      have hwritten : (r.document.modifyNode root Node.markWritten).isModified root = false := by
        simp [isModified, Option.any_map, Node.markWritten]
      rw [runPlan, hwritten, hnone]
      rfl
    · rw [runPlan, if_pos hmod', hsize, hrest]
  · next hmod =>
    rw [runPlan, if_neg hmod]
    rfl

/-- A second run under a writer that refuses nothing does just what the first was refused, in the
same order and each job once. It tries no refused creation again, and nothing that was accepted. -/
theorem retry_exact (hd : Reached InMainTree d) (w : Writer σ) (s : σ) (v : Writer τ) (t : τ)
    (hv : ∀ t call, v.refusal? t call = none) :
    ((d.apply w s).document.audit v t).briefs = (d.audit w s).retries.briefs ∧
      ((d.apply w s).document.audit v t).jobs.Nodup ∧
      ∀ p ∈ d.audit w s, p.2 = none ∨ p.1.step = .create →
        p.1.job ∉ ((d.apply w s).document.audit v t).jobs := by
  have ho : Owned False d.overlays (fun _ ↦ False) d := hd.owned fun _ _ ha ↦ ⟨ha, False.elim⟩
  have hown := (ho.apply w s).1
  have hcalls : ((d.apply w s).document.audit v t).briefs = (d.audit w s).retries.briefs := by
    rw [briefs_audit_accepting hown hv t, runPlan_apply ho (fun _ h ↦ h) w s]
  refine ⟨hcalls, nodup_jobs_audit hown v t, fun p hp hdone hmem ↦ ?_⟩
  rw [Log.jobs_eq, hcalls, ← Log.jobs_eq] at hmem
  obtain ⟨q, hq, he⟩ := List.mem_map.mp hmem
  obtain ⟨hq, hretry⟩ := List.mem_filter.mp hq
  obtain rfl := List.inj_on_of_nodup_map (nodup_jobs_audit ho w s) hq hp he
  rcases hdone with hnone | hcreate
  · simp [hnone] at hretry
  · simp [hcreate] at hretry

/-- The value of `2` was refused and is flushed again; the refused block `5` is not. -/
theorem retry_exact_refused_block :
    Reached InMainTree stagedDocument ∧
    (stagedDocument.audit (.refusing [(.create, "signing"), (.flush, "minSdk")]) 0).jobs =
      [(.create, 5), (.flush, 2)] ∧
    ((stagedDocument.apply (.refusing [(.create, "signing"), (.flush, "minSdk")])
      0).document.audit .noop ()).briefs = [⟨.flush, 2, 1⟩] := by
  have hd : Reached InMainTree stagedDocument := reached_stagedDocument.mono fun _ _ h ↦ h.1
  have hfirst : (stagedDocument.audit (.refusing [(.create, "signing"), (.flush, "minSdk")])
      0).jobs = [(.create, 5), (.flush, 2)] := by decide
  have hretries : (stagedDocument.audit (.refusing [(.create, "signing"), (.flush, "minSdk")])
      0).retries.briefs = [⟨.flush, 2, 1⟩] := by decide
  obtain ⟨hcalls, -, -⟩ := retry_exact hd
    (.refusing [(.create, "signing"), (.flush, "minSdk")]) 0 .noop () fun _ _ ↦ rfl
  exact ⟨hd, hfirst, hcalls.trans hretries⟩

end Document

end BuildScript
