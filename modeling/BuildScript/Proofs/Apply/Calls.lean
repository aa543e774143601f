import BuildScript.Proofs.Apply.Plan

namespace BuildScript

theorem eq_filter_of_sublist {l₁ l : List NodeId} (h : l₁.Sublist l) (hl : l.Nodup) :
    l₁ = l.filter (· ∈ l₁) := by
  induction h with
  | slnil => rfl
  | @cons l₁ l a h ih =>
    obtain ⟨ha, hl⟩ := List.nodup_cons.mp hl
    have hnot : a ∉ l₁ := fun hmem ↦ ha (h.subset hmem)
    rw [List.filter_cons_of_neg (by simpa using hnot)]
    exact ih hl
  | @cons_cons l₁ l a h ih =>
    obtain ⟨ha, hl⟩ := List.nodup_cons.mp hl
    rw [List.filter_cons_of_pos (by simp)]
    refine congrArg (a :: ·) ((ih hl).trans (List.filter_congr fun x hx ↦ ?_))
    have hne : x ≠ a := by
      rintro rfl
      exact ha hx
    simp [hne]

theorem eq_of_sublist_of_mem_iff {l₁ l₂ l : List NodeId} (hl : l.Nodup) (h₁ : l₁.Sublist l)
    (h₂ : l₂.Sublist l) (h : ∀ x, x ∈ l₁ ↔ x ∈ l₂) : l₁ = l₂ := by
  rw [eq_filter_of_sublist h₁ hl, eq_filter_of_sublist h₂ hl]
  exact List.filter_congr fun x _ ↦ by simp [h x]

namespace Document

variable {ov l : List NodeId} {d d' d'' : Document} {b i id x : NodeId} {n : Node}
  {state : EntryState}

/-- What lies below `b` is still as it was in `d`, and so is its store. -/
structure Agrees (d d' : Document) (b : NodeId) : Prop extends Inherits d d' where
  nodes : ∀ y, Below d b y → y ≠ b → d'.node? y = d.node? y
  stores : ∀ y, Below d b y → d'.store? y = d.store? y

theorem Agrees.changed (h : Agrees d d' i) (ho : d.Older) (hc : Changed b l d' d'')
    (hi : d.isOwnedBy i b) (hl : ∀ id ∈ l, d.isOwnedBy id b) (hnot : i ∉ l) :
    Agrees d d'' i ∧ d''.node? i = d'.node? i := by
  obtain ⟨n, hn, hp⟩ := isOwnedBy_iff.mp hi
  have hout : ∀ y, Below d i y → ∀ id ∈ l, ¬ Below d' id y := by
    intro y hy id hid hb
    obtain ⟨m, hm, hpm⟩ := isOwnedBy_iff.mp (hl id hid)
    obtain rfl := Below.sibling_eq ho hm hn hpm hp (h.below hb) hy
    exact hnot hid
  refine ⟨⟨h.toInherits.trans hc.toInherits, fun y hy hne ↦ ?_, fun y hy ↦ ?_⟩,
    hc.nodes i (hout i .refl)⟩
  · exact (hc.nodes y (hout y hy)).trans (h.nodes y hy hne)
  · have hyb : y ≠ b := by
      rintro rfl
      exact Below.not_parent ho hn hp hy
    exact (hc.stores y (hout y hy) hyb).trans (h.stores y hy)

/-- A child that no step has touched yet. -/
structure Pristine (d : Document) (b : NodeId) (d' : Document) (id : NodeId) : Prop where
  child : d.isOwnedBy id b
  agrees : Agrees d d' id
  node : d'.node? id = d.node? id

theorem Agrees.pristine (h : Agrees d d' b) (ho : d.Older) (hid : d.isOwnedBy id b) :
    Pristine d b d' id := by
  obtain ⟨n, hn, hp⟩ := isOwnedBy_iff.mp hid
  have hchild := Below.child hn hp
  refine ⟨hid, ⟨h.toInherits, fun y hy _ ↦ h.nodes y (hchild.trans hy) ?_,
    fun y hy ↦ h.stores y (hchild.trans hy)⟩, h.nodes id hchild ?_⟩
  · rintro rfl
    exact Below.not_parent ho hn hp hy
  · rintro rfl
    exact Below.not_parent ho hn hp .refl

theorem Pristine.changed (h : Pristine d b d' i) (ho : d.Older) (hc : Changed b l d' d'')
    (hl : ∀ id ∈ l, d.isOwnedBy id b) (hnot : i ∉ l) : Pristine d b d'' i := by
  obtain ⟨ha, hn⟩ := h.agrees.changed ho hc h.child hl hnot
  exact ⟨h.child, ha, hn.trans h.node⟩

/-- A child that can be flushed: nothing inside it has been touched, and a leaf is unmodified if it
has just been created. -/
structure Ready (d : Document) (b : NodeId) (d' : Document) (id : NodeId) : Prop where
  child : d.isOwnedBy id b
  agrees : Agrees d d' id
  placeable : id ∈ d'.placeable b
  node : ∃ n n', d.node? id = some n ∧ d'.node? id = some n' ∧ n'.isContainer = n.isContainer ∧
    n'.modified = (n.modified && (n.isContainer || decide (id ∉ d.inState b .toBeAdded)))

theorem Ready.changed (h : Ready d b d' i) (ho : d.Older) (hc : Changed b l d' d'')
    (hl : ∀ id ∈ l, d.isOwnedBy id b) (hnot : i ∉ l) : Ready d b d'' i := by
  obtain ⟨ha, hn⟩ := h.agrees.changed ho hc h.child hl hnot
  obtain ⟨n, n', hd, hd', hrest⟩ := h.node
  exact ⟨h.child, ha, (hc.mem_placeable hnot).mpr h.placeable, n, n', hd, hn.trans hd', hrest⟩

theorem Changed.inState_eq (h : Changed b l d d') (hw : Writable ov d b)
    (hl : ∀ id ∈ l, id ∈ d'.inState b state ↔ id ∈ d.inState b state) :
    d'.inState b state = d.inState b state := by
  have hmem : ∀ x, x ∈ d'.inState b state ↔ x ∈ d.inState b state := by
    intro x
    by_cases hx : x ∈ l
    · exact hl x hx
    · exact h.mem_inState hx
  cases hs : d.store? b with
  | none => simp [Document.inState, hs, h.leaf hs]
  | some s =>
    obtain ⟨s', hs', hsub, -⟩ := h.own s hs
    simp only [Document.inState, hs, hs'] at hmem ⊢
    exact eq_of_sublist_of_mem_iff (hw.owned.linked.store b s hs).nodup
      ((List.filter_sublist.map _).trans hsub) (List.filter_sublist.map _) hmem

theorem Changed.placeable_eq (h : Changed b l d d') (hw : Writable ov d b) {p : NodeId → Bool}
    (hmem : ∀ x, x ∈ d'.placeable b ↔ x ∈ d.placeable b ∧ p x) :
    d'.placeable b = (d.placeable b).filter p := by
  cases hs : d.store? b with
  | none => simp [Document.placeable, hs, h.leaf hs]
  | some s =>
    obtain ⟨s', hs', hsub, -⟩ := h.own s hs
    simp only [Document.placeable, hs, hs'] at hmem ⊢
    refine eq_of_sublist_of_mem_iff (hw.owned.linked.store b s hs).nodup
      ((List.filter_sublist.map _).trans hsub)
      (List.filter_sublist.trans (List.filter_sublist.map _)) fun x ↦ ?_
    rw [hmem x, List.mem_filter]

def EndsIn (b : NodeId) (state : EntryState) (d : Document) (id : NodeId) : Prop :=
  ∀ s, d.store? b = some s → ∀ e ∈ s.entries, e.node = id → e.state = state

theorem EndsIn.changed (h : EndsIn b state d id) (hc : Changed b l d d') (hnot : id ∉ l) :
    EndsIn b state d' id := by
  intro s' hs' e he hn
  cases hs : d.store? b with
  | none => simp [hc.leaf hs] at hs'
  | some s =>
    obtain ⟨s'', hs'', -, hiff⟩ := hc.own s hs
    rw [hs'] at hs''
    cases hs''
    exact h s hs e ((hiff e (hn ▸ hnot)).mp he) hn

theorem EndsIn.eq_of_mem {state' : EntryState} (h : EndsIn b state d id)
    (hid : id ∈ d.inState b state') : state' = state := by
  obtain ⟨s, hs, e, he, rfl, hn⟩ := mem_inState.mp hid
  exact h s hs e he hn

theorem EndsIn.not_mem_placeable (h : EndsIn b state d id) (hstate : state.isPlaceable = false) :
    id ∉ d.placeable b := by
  intro hid
  obtain ⟨s, hs, e, he, hp, hn⟩ := mem_placeable.mp hid
  rw [Entry.isPlaceable, h s hs e he hn, hstate] at hp
  cases hp

theorem Linked.endsIn (h : Linked d) (hid : id ∈ d.inState b state) : EndsIn b state d id :=
  fun _ hs _ he hn ↦ h.state_of_mem_inState hid hs he hn

theorem Changed.inState_eq_of_ends {start stop : EntryState} (h : Changed b l d d')
    (hw : Writable ov d b) (hl : ∀ id ∈ l, id ∈ d.inState b start)
    (hends : ∀ id ∈ l, EndsIn b stop d' id) (hstart : state ≠ start) (hstop : state ≠ stop) :
    d'.inState b state = d.inState b state := by
  refine h.inState_eq hw fun id hid ↦ ⟨fun hmem ↦ ?_, fun hmem ↦ ?_⟩
  · exact absurd ((hends id hid).eq_of_mem hmem) hstop
  · exact absurd ((hw.owned.linked.endsIn (hl id hid)).eq_of_mem hmem) hstart

theorem inState_congr (h : d'.store? b = d.store? b) (state : EntryState) :
    d'.inState b state = d.inState b state := by
  rw [Document.inState, Document.inState, h]

theorem Writable.isNeverWritten_iff (h : Writable ov d b) : d.isNeverWritten b id = true ↔
    ∃ s, d.store? b = some s ∧ ∃ e ∈ s.entries, e.restore = some .toBeAdded ∧ e.node = id := by
  cases hs : d.store? b with
  | none => simp [isNeverWritten, hs]
  | some s =>
    simp only [isNeverWritten, hs, Option.bind_some, Option.any_eq_true, beq_iff_eq,
      Option.some.injEq, exists_eq_left']
    constructor
    · rintro ⟨e, he, hr⟩
      obtain ⟨hmem, hn⟩ := Store.mem_of_find? he
      exact ⟨e, hmem, hr, hn⟩
    · rintro ⟨e, he, hr, rfl⟩
      exact ⟨e, Store.find?_of_mem (h.owned.linked.store b s hs).nodup he, hr⟩

theorem Changed.isNeverWritten_eq (h : Changed b l d d') (hw : Writable ov d b)
    (hw' : Writable ov d' b) (hx : x ∉ l) : d'.isNeverWritten b x = d.isNeverWritten b x := by
  rw [Bool.eq_iff_iff, hw.isNeverWritten_iff, hw'.isNeverWritten_iff]
  exact h.exists_entry_iff hx (·.restore = some .toBeAdded)

theorem Pristine.created (h : Pristine d b d' id) (ho : d.Older)
    (hbase : id ∈ d.inState b .toBeAdded) (hid : id ∈ d'.inState b .toBeAdded)
    {range : SourceRange}
    (hends : EndsIn b .existing
      ((d'.modifyNode id (·.createdAt range)).modifyEntry b id (·.createdAt range)) id) :
    Ready d b ((d'.modifyNode id (·.createdAt range)).modifyEntry b id (·.createdAt range)) id := by
  obtain ⟨n, hn, hp⟩ := isOwnedBy_iff.mp h.child
  have hchanged : Changed b [id] d'
      ((d'.modifyNode id (·.createdAt range)).modifyEntry b id (·.createdAt range)) :=
    (Changed.modifyNode b d' id fun n ↦ congrArg (·.1.1) (place_createdAt range n)).again
      (.modifyEntry _ b id fun _ ↦ rfl)
  refine ⟨h.child, ⟨h.agrees.toInherits.trans hchanged.toInherits, fun y hy hne ↦ ?_,
    fun y hy ↦ ?_⟩, ?_, n, n.createdAt range, hn, ?_, ?_, ?_⟩
  · rw [Document.modifyEntry, node?_modifyStore, node?_modifyNode, if_neg (Ne.symm hne)]
    exact h.agrees.nodes y hy hne
  · have hyb : b ≠ y := by
      rintro rfl
      exact Below.not_parent ho hn hp hy
    rw [Document.modifyEntry, store?_modifyStore, if_neg hyb]
    exact h.agrees.stores y hy
  · obtain ⟨s, hs, e, he, -, hid⟩ := mem_inState.mp hid
    have hs' : ((d'.modifyNode id (·.createdAt range)).modifyEntry b id
        (·.createdAt range)).store? b = some (s.modifyEntry id (·.createdAt range)) := by
      rw [Document.modifyEntry, store?_modifyStore, if_pos rfl, store?_modifyNode, hs]
      rfl
    have hmem : id ∈ (s.modifyEntry id (·.createdAt range)).nodes := by
      rw [Store.nodes_modifyEntry (f := (·.createdAt range)) fun _ ↦ rfl]
      exact hid ▸ Store.mem_nodes_of_mem he
    obtain ⟨e', he', hid'⟩ := List.mem_map.mp hmem
    refine mem_placeable.mpr ⟨_, hs', e', he', ?_, hid'⟩
    simp [Entry.isPlaceable, hends _ hs' e' he' hid', EntryState.isPlaceable]
  · rw [Document.modifyEntry, node?_modifyStore, node?_modifyNode, if_pos rfl, h.node, hn]
    rfl
  · exact congrArg (·.1.2) (place_createdAt range n)
  · rw [Node.modified_createdAt]
    simp [hbase]

theorem Ready.flushPlan_eq {inner : NodeId → List Brief} {n' : Node} (h : Ready d b d' id)
    (hn : d'.node? id = some n') : d.flushPlan inner b id =
      if n'.modified then if n'.isContainer then inner id else [⟨.flush, id, b⟩] else [] := by
  obtain ⟨n, m, hd, hd', hc, hm⟩ := h.node
  rw [hn] at hd'
  cases hd'
  simp only [flushPlan, hd, hc, hm]
  cases n.modified <;> cases n.isContainer <;> simp

end Document

namespace Run

variable {σ : Type} {w : Writer σ} {ov : List NodeId} {d : Document} {b id : NodeId}
  {r r' : Run (σ × Log)}

open Document

theorem log_delete (hw : Writable ov r.document b) (hid : id ∈ r.document.inState b .toBeRemoved) :
    ∃ L, (r.delete w.audited b id).writer.2 = r.writer.2 ++ L ∧
      Log.briefs L = (if r.document.isNeverWritten b id then [] else [⟨.delete, id, b⟩]) ∧
      EndsIn b .toBeRemoved (r.delete w.audited b id).document id := by
  have hgone : ∀ n, r.document.node? id = some n → n.parent = some b →
      EndsIn b .toBeRemoved ((r.document.purge b id).release id) id := by
    intro n hn hp s' hs' e he hid
    rw [hw.store?_drop_parent hn hp] at hs'
    obtain ⟨s, hs, rfl⟩ := Option.map_eq_some_iff.mp hs'
    exact absurd (hid ▸ Store.mem_nodes_of_mem he)
      (Store.not_mem_nodes_purge (hw.owned.linked.store b s hs).nodup)
  have hstep := Run.deletion w.audited b id r
  generalize r.delete w.audited b id = r' at hstep
  cases hstep with
  | foreign hforeign =>
    obtain ⟨n, hn, hp⟩ := isOwnedBy_iff.mp (hw.isOwnedBy_of_inState (by simp) hid)
    exact absurd hp (hforeign n hn)
  | unwritten hn hp hnever => exact ⟨[], by simp, by simp [hnever, Log.briefs], hgone _ hn hp⟩
  | refused hn hp hnever => exact ⟨[_], rfl, by simp [hnever]; rfl, hw.owned.linked.endsIn hid⟩
  | deleted hn hp hnever => exact ⟨[_], rfl, by simp [hnever]; rfl, hgone _ hn hp⟩

structure Deletes (b : NodeId) (r : Run (σ × Log)) (l : List NodeId) (L : Log)
    (r' : Run (σ × Log)) : Prop where
  log : r'.writer.2 = r.writer.2 ++ L
  briefs : Log.briefs L = (l.filter (!r.document.isNeverWritten b ·)).map (⟨.delete, ·, b⟩)
  ends : ∀ id ∈ l, EndsIn b .toBeRemoved r'.document id

theorem Deletes.cons {l : List NodeId} {L : Log} (hw : Writable ov r.document b)
    (hid : id ∈ r.document.inState b .toBeRemoved) (hnot : id ∉ l)
    (hw' : Writable ov (r.delete w.audited b id).document b)
    (hc : Changed b l (r.delete w.audited b id).document r'.document)
    (h : Deletes b (r.delete w.audited b id) l L r') : ∃ L, Deletes b r (id :: l) L r' := by
  obtain ⟨L₀, hlog, hbriefs, hends⟩ := log_delete (w := w) hw hid
  have hch := (advances_delete w.audited ov b).changed r id hw hid
  have hsame : l.filter (!(r.delete w.audited b id).document.isNeverWritten b ·) =
      l.filter (!r.document.isNeverWritten b ·) := by
    refine List.filter_congr fun x hx ↦ ?_
    have hne : x ∉ [id] := fun hmem ↦ hnot (List.mem_singleton.mp hmem ▸ hx)
    rw [hch.isNeverWritten_eq hw hw' hne]
  refine ⟨L₀ ++ L, by rw [h.log, hlog, List.append_assoc], ?_, fun i hi ↦ ?_⟩
  · rw [Log.briefs_append, hbriefs, h.briefs, hsame, List.filter_cons]
    cases r.document.isNeverWritten b id <;> simp
  · rcases List.mem_cons.mp hi with rfl | hi
    · exact hends.changed hc hnot
    · exact h.ends i hi

theorem deletions_spec (w : Writer σ) (hw : Writable ov r.document b) :
    Writable ov (r.deletions w.audited b).document b ∧
      Changed b (r.document.inState b .toBeRemoved) r.document
        (r.deletions w.audited b).document ∧
      ∃ L, Deletes b r (r.document.inState b .toBeRemoved) L (r.deletions w.audited b) :=
  (advances_delete w.audited ov b).foldl (Q := fun r l r' ↦ ∃ L, Deletes b r l L r')
    (fun r ↦ ⟨[], by simp, rfl, by simp⟩)
    (fun _ _ _ _ hw hid hnot hw' _ hc ⟨_, h⟩ ↦ h.cons hw hid hnot hw' hc) (hw.inState_nodup _) hw
    fun _ hid ↦ hid

theorem log_create (ho : d.Older) (hw : Writable ov r.document b)
    (hid : id ∈ r.document.inState b .toBeAdded) (hbase : id ∈ d.inState b .toBeAdded)
    (hp : Pristine d b r.document id) :
    ∃ call refusal, (r.create w.audited b id).writer.2 = r.writer.2 ++ [(call, refusal)] ∧
      call.brief = ⟨.create, id, b⟩ ∧ EndsIn b .existing (r.create w.audited b id).document id ∧
      (refusal ≠ none → id ∉ (r.create w.audited b id).document.placeable b) ∧
      (refusal = none → Ready d b (r.create w.audited b id).document id) := by
  obtain ⟨n, hn, hpar⟩ := isOwnedBy_iff.mp (hw.isOwnedBy_of_inState (by simp) hid)
  have hstep := Run.creation w.audited b id r
  generalize r.create w.audited b id = r' at hstep
  cases hstep with
  | dead hdead => simp [hn] at hdead
  | @refused m message hm hrefused =>
    have hnone : ∀ s, ((r.document.purge b id).release id).store? b = some s → id ∉ s.nodes := by
      intro s' hs'
      rw [hw.store?_drop_parent hn hpar] at hs'
      obtain ⟨s, hs, rfl⟩ := Option.map_eq_some_iff.mp hs'
      exact Store.not_mem_nodes_purge (hw.owned.linked.store b s hs).nodup
    refine ⟨_, _, rfl, rfl, fun s hs e he hid ↦ ?_, fun _ hmem ↦ ?_, fun haccept ↦ ?_⟩
    · exact absurd (hid ▸ Store.mem_nodes_of_mem he) (hnone s hs)
    · obtain ⟨s, hs, e, he, -, hid⟩ := mem_placeable.mp hmem
      exact hnone s hs (hid ▸ Store.mem_nodes_of_mem he)
    · exact absurd (hrefused.symm.trans haccept) (by simp)
  | @created m range hm haccepted =>
    have hends : EndsIn b .existing ((r.document.modifyNode id (·.createdAt range)).modifyEntry b id
        (·.createdAt range)) id := by
      intro s' hs' e he hid
      rw [Document.modifyEntry, store?_modifyStore, if_pos rfl] at hs'
      obtain ⟨s, hs, rfl⟩ := Option.map_eq_some_iff.mp hs'
      obtain ⟨e₀, -, -, rfl⟩ :=
        Store.mem_modifyEntry_self (hw.owned.linked.store b s hs).nodup he hid
      rfl
    refine ⟨_, _, rfl, rfl, hends, fun hr ↦ absurd haccepted hr, fun _ ↦ ?_⟩
    exact hp.created ho hbase hid hends

/-- The calls in `L` create the children in `l`. Those that are refused are no longer placeable, the
others are ready for what is inside them. -/
structure Creates (d : Document) (b : NodeId) (r : Run (σ × Log)) (l : List NodeId) (L : Log)
    (r' : Run (σ × Log)) : Prop where
  log : r'.writer.2 = r.writer.2 ++ L
  briefs : Log.briefs L = l.map (⟨.create, ·, b⟩)
  ends : ∀ id ∈ l, EndsIn b .existing r'.document id
  refused : ∀ id ∈ l, id ∈ Log.refusedCreations L → id ∉ r'.document.placeable b
  ready : ∀ id ∈ l, id ∉ Log.refusedCreations L → Ready d b r'.document id

theorem Creates.mem_of_refused {l : List NodeId} {L : Log} {x : NodeId} (h : Creates d b r l L r')
    (hx : x ∈ Log.refusedCreations L) : x ∈ l := by
  obtain ⟨c, hc⟩ := Log.exists_brief_of_refused hx
  rw [h.briefs] at hc
  obtain ⟨y, hy, he⟩ := List.mem_map.mp hc
  cases he
  exact hy

theorem Creates.cons {l : List NodeId} {L : Log} (ho : d.Older) (hw : Writable ov r.document b)
    (hid : id ∈ r.document.inState b .toBeAdded) (hbase : id ∈ d.inState b .toBeAdded)
    (hp : Pristine d b r.document id) (hnot : id ∉ l) (hl : ∀ i ∈ l, d.isOwnedBy i b)
    (hc : Changed b l (r.create w.audited b id).document r'.document)
    (h : Creates d b (r.create w.audited b id) l L r') : ∃ L, Creates d b r (id :: l) L r' := by
  obtain ⟨call, refusal, hlog, hbrief, hends, hrefused, hready⟩ :=
    log_create (w := w) ho hw hid hbase hp
  have hself : id ∉ Log.refusedCreations L := fun hmem ↦ hnot (h.mem_of_refused hmem)
  have hmem : ∀ x, x ∈ Log.refusedCreations ((call, refusal) :: L) ↔
      (x = id ∧ refusal ≠ none) ∨ x ∈ Log.refusedCreations L := by
    intro x
    have hstep : call.step = .create := congrArg Brief.step hbrief
    have htarget : call.target.id = id := congrArg Brief.node hbrief
    rw [Log.mem_refusedCreations_cons, hstep, htarget]
    simp [eq_comm, and_comm]
  refine ⟨(call, refusal) :: L, ?_, ?_, fun i hi ↦ ?_, fun i hi hr ↦ ?_, fun i hi hr ↦ ?_⟩
  · rw [h.log, hlog, List.append_assoc, List.singleton_append]
  · rw [Log.briefs, List.map_cons, hbrief]
    exact congrArg _ h.briefs
  · rcases List.mem_cons.mp hi with rfl | hi
    · exact hends.changed hc hnot
    · exact h.ends i hi
  · rcases List.mem_cons.mp hi with rfl | hi
    · rw [hc.mem_placeable hnot]
      exact hrefused (((hmem i).mp hr).resolve_right hself).2
    · refine h.refused i hi (((hmem i).mp hr).resolve_left fun he ↦ ?_)
      exact hnot (he.1 ▸ hi)
  · rw [hmem, not_or] at hr
    rcases List.mem_cons.mp hi with rfl | hi
    · exact (hready (by simpa using hr.1)).changed ho hc hl hnot
    · exact h.ready i hi hr.2

theorem creations_spec (w : Writer σ) (ho : d.Older) (hw : Writable ov r.document b)
    (hl : ∀ id ∈ r.document.inState b .toBeAdded,
      id ∈ d.inState b .toBeAdded ∧ Pristine d b r.document id) :
    Writable ov (r.creations w.audited b).document b ∧
      Changed b (r.document.inState b .toBeAdded) r.document
        (r.creations w.audited b).document ∧
      ∃ L, Creates d b r (r.document.inState b .toBeAdded) L (r.creations w.audited b) := by
  have hadv := (advances_create w.audited ov b).strengthen
    (B := fun d' id ↦ id ∈ d.inState b .toBeAdded ∧ Pristine d b d' id)
    fun d' d'' id i _ hid hc hne hi ↦
      ⟨hi.1, hi.2.changed ho hc (by simpa using hid.2.child) (by simpa using hne)⟩
  refine hadv.foldl (Q := fun r l r' ↦ ∃ L, Creates d b r l L r')
    (fun r ↦ ⟨[], by simp, rfl, by simp, by simp, by simp⟩) ?_ (hw.inState_nodup _) hw
    fun id hid ↦ ⟨hid, hl id hid⟩
  rintro r id l r' hw ⟨hid, hbase, hp⟩ hnot - hrest hc ⟨L, h⟩
  exact h.cons ho hw hid hbase hp hnot (fun i hi ↦ (hrest i hi).2.2.child) hc

def Follows (ov : List NodeId) (d : Document) (w : Writer σ) (fuel : Nat) : Prop :=
  ∀ b (r : Run (σ × Log)), Writable ov d b → Writable ov r.document b → Agrees d r.document b →
    ∃ L, (r.block w.audited fuel b).writer.2 = r.writer.2 ++ L ∧ d.Executes (d.plan fuel b) L

theorem log_flush {fuel : Nat} (hin : Follows ov d w fuel) (hd : Writable ov d b)
    (hw : Writable ov r.document b) (hid : Ready d b r.document id) :
    ∃ L, (r.flush w.audited (block w.audited fuel) b id).writer.2 = r.writer.2 ++ L ∧
      d.Executes (d.flushPlan (d.plan fuel) b id) L ∧
      (r.flush w.audited (block w.audited fuel) b id).document.store? b = r.document.store? b := by
  have hown := hw.isOwnedBy_of_placeable hid.placeable
  have hblock := hin id { r with clean := true } (hd.child hid.child) (hw.child hown) hid.agrees
  have hstore := (block_confined w.audited fuel id { r with clean := true }
    (hw.child hown)).store?_parent hw.owned.linked.older hown
  obtain ⟨L, hlog, hex⟩ := hblock
  have hstep := Run.flushing w.audited (block w.audited fuel) b id r
  generalize r.flush w.audited (block w.audited fuel) b id = r' at hstep
  cases hstep with
  | idle hidle =>
    obtain ⟨n, n', -, hn, -⟩ := hid.node
    refine ⟨[], by simp, ?_, rfl⟩
    rw [hid.flushPlan_eq hn, hidle n' hn]
    rfl
  | inside hn hm hc =>
    rw [hid.flushPlan_eq hn, hm, hc]
    exact ⟨L, hlog, hex, hstore⟩
  | settled hn hm hc =>
    rw [hid.flushPlan_eq hn, hm, hc]
    exact ⟨L, hlog, hex, hstore⟩
  | refused hn hm hc =>
    rw [hid.flushPlan_eq hn, hm, hc]
    exact ⟨[_], rfl, rfl, rfl⟩
  | flushed hn hm hc =>
    rw [hid.flushPlan_eq hn, hm, hc]
    exact ⟨[_], rfl, rfl, rfl⟩

structure Flushes (d : Document) (fuel : Nat) (b : NodeId) (r : Run (σ × Log)) (l : List NodeId)
    (L : Log) (r' : Run (σ × Log)) : Prop where
  log : r'.writer.2 = r.writer.2 ++ L
  executes : d.Executes (l.flatMap (d.flushPlan (d.plan fuel) b)) L
  store : r'.document.store? b = r.document.store? b

theorem Flushes.cons {fuel : Nat} {l : List NodeId} {L : Log} (hin : Follows ov d w fuel)
    (hd : Writable ov d b) (hw : Writable ov r.document b) (hid : Ready d b r.document id)
    (hnot : id ∉ l) (hl : ∀ i ∈ l, d.isOwnedBy i b)
    (h : Flushes d fuel b (r.flush w.audited (block w.audited fuel) b id) l L r') :
    ∃ L, Flushes d fuel b r (id :: l) L r' := by
  obtain ⟨L₀, hlog, hex, hstore⟩ := log_flush hin hd hw hid
  have hself : d.Within [id] (Log.refusedCreations L₀) :=
    Executes.within (l := [id]) (by simpa using hex) hd (by simpa using hid.child)
  have hrest : d.Within l (Log.refusedCreations L) := h.executes.within hd hl
  refine ⟨L₀ ++ L, by rw [h.log, hlog, List.append_assoc], ?_, h.store.trans hstore⟩
  refine hex.append h.executes (fun c hc ↦ hrest.isSpared hd hl ?_)
    fun c hc ↦ hself.isSpared hd (by simpa using hid.child) ?_
  · rcases flushPlan_block hd hid.child hc with rfl | ⟨hb, -⟩
    · exact .inl rfl
    · exact .inr ⟨id, hnot, hid.child, hb⟩
  · obtain ⟨i, hi, hc⟩ := List.mem_flatMap.mp hc
    rcases flushPlan_block hd (hl i hi) hc with rfl | ⟨hb, -⟩
    · exact .inl rfl
    · refine .inr ⟨i, fun hmem ↦ ?_, hl i hi, hb⟩
      exact hnot (List.mem_singleton.mp hmem ▸ hi)

theorem flushes_spec {fuel : Nat} (hin : Follows ov d w fuel) (hd : Writable ov d b)
    (hw : Writable ov r.document b)
    (hl : ∀ id ∈ r.document.placeable b, Ready d b r.document id) :
    Writable ov (r.flushes w.audited fuel b).document b ∧
      ∃ L, Flushes d fuel b r (r.document.placeable b) L (r.flushes w.audited fuel b) := by
  have hflush : Advances ov b _ _ := advances_flush w.audited (block_confined w.audited fuel) b
  have hadv := hflush.strengthen (B := Ready d b) fun d' d'' id i _ hid hc hne hi ↦
      hi.changed hd.owned.linked.older hc (by simpa using hid.child) (by simpa using hne)
  obtain ⟨hw', -, hq⟩ := hadv.foldl (Q := fun r l r' ↦ ∃ L, Flushes d fuel b r l L r')
    (fun r ↦ ⟨[], by simp, rfl, rfl⟩)
    (fun r id l r' hw ⟨_, hid⟩ hnot _ hrest _ ⟨_, h⟩ ↦
      h.cons hin hd hw hid hnot fun i hi ↦ (hrest i hi).2.child)
    hw.placeable_nodup hw fun id hid ↦ ⟨hid, hl id hid⟩
  exact ⟨hw', hq⟩

theorem log_relocate (hw : Writable ov r.document b) (hid : id ∈ r.document.inState b .moved) :
    ∃ call refusal, (r.relocate w.audited b id).writer.2 = r.writer.2 ++ [(call, refusal)] ∧
      call.brief = ⟨.relocate, id, b⟩ := by
  obtain ⟨n, hn, -⟩ := isOwnedBy_iff.mp (hw.isOwnedBy_of_inState (by simp) hid)
  have hstep := Run.relocating w.audited b id r
  generalize r.relocate w.audited b id = r' at hstep
  cases hstep with
  | dead hdead => simp [hn] at hdead
  | refused => exact ⟨_, _, rfl, rfl⟩
  | relocated => exact ⟨_, _, rfl, rfl⟩

theorem relocations_spec (w : Writer σ) (hw : Writable ov r.document b) :
    ∃ L, (r.relocations w.audited b).writer.2 = r.writer.2 ++ L ∧
      Log.briefs L = (r.document.inState b .moved).map (⟨.relocate, ·, b⟩) := by
  refine ((advances_relocate w.audited ov b).foldl (Q := fun r l r' ↦ ∃ L,
      r'.writer.2 = r.writer.2 ++ L ∧ Log.briefs L = l.map (⟨.relocate, ·, b⟩))
    (fun r ↦ ⟨[], by simp, rfl⟩) ?_ (hw.inState_nodup _) hw fun _ hid ↦ hid).2.2
  rintro r id l r' hw hid - - - - ⟨L, hlog, hbriefs⟩
  obtain ⟨call, refusal, hlog₀, hbrief⟩ := log_relocate (w := w) hw hid
  refine ⟨(call, refusal) :: L, ?_, ?_⟩
  · rw [hlog, hlog₀, List.append_assoc, List.singleton_append]
  · rw [Log.briefs, List.map_cons, hbrief]
    exact congrArg _ hbriefs

end Run

end BuildScript
