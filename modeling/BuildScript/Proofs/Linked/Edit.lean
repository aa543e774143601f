import BuildScript.Proofs.Document.Edited
import BuildScript.Proofs.Linked.Alloc

namespace BuildScript

theorem Entry.withdraw_restore {e : Entry} (h : e.restore ≠ some .toBeRemoved) :
    e.withdraw.restore ≠ some .toBeRemoved := by
  unfold Entry.withdraw
  split
  · exact h
  · next hs => simpa using hs

theorem Store.relocated_restore (e : Entry) : (Store.relocated e).restore = e.restore := by
  unfold Store.relocated
  split <;> rfl

namespace Document

variable {d d' : Document} {b block node old new i : NodeId} {s : Store} {n : Node} {spec : Spec}

namespace StoreFits

theorem of_perm {s' : Store} (h : d.StoreFits b s) (hp : s'.nodes.Perm s.nodes)
    (hr : ∀ e ∈ s'.entries, e.restore ≠ some .toBeRemoved) : d.StoreFits b s' :=
  h.of_subset (hp.nodup_iff.mpr h.nodup) (fun _ ↦ hp.mem_iff.mp) hr

theorem modifyEntry (h : d.StoreFits b s) {f : Entry → Entry} (hf : ∀ e, (f e).node = e.node)
    (hr : ∀ e, e.restore ≠ some .toBeRemoved → (f e).restore ≠ some .toBeRemoved) :
    d.StoreFits b (s.modifyEntry node f) := by
  refine h.of_perm (.of_eq (Store.nodes_modifyEntry hf)) fun e he ↦ ?_
  rcases Store.mem_modifyFirst he with he | ⟨e₀, he₀, -, rfl⟩
  · exact h.restored e he
  · exact hr e₀ (h.restored e₀ he₀)

theorem mapPicked (h : d.StoreFits b s) {f : Entry → Entry} (hf : ∀ e, (f e).node = e.node)
    (hr : ∀ e, e.restore ≠ some .toBeRemoved → (f e).restore ≠ some .toBeRemoved)
    (p : NodeId → Bool) : d.StoreFits b (s.mapPicked p f) := by
  refine h.of_perm (.of_eq (Store.nodes_mapPicked hf)) fun e he ↦ ?_
  rcases Store.mem_mapPicked he with he | ⟨e₀, he₀, -, -, rfl⟩
  · exact h.restored e he
  · exact hr e₀ (h.restored e₀ he₀)

theorem remove (h : d.StoreFits b s) (node : NodeId) : d.StoreFits b (s.remove node) :=
  h.modifyEntry Entry.withdraw_node fun _ ↦ Entry.withdraw_restore

theorem removeAll (h : d.StoreFits b s) (p : NodeId → Bool) : d.StoreFits b (s.removeAll p) :=
  h.mapPicked Entry.withdraw_node (fun _ ↦ Entry.withdraw_restore) p

theorem hideAll (h : d.StoreFits b s) (p : NodeId → Bool) : d.StoreFits b (s.hideAll p) :=
  h.mapPicked (f := fun e ↦ { e with state := .hidden }) (fun _ ↦ rfl) (fun _ hr ↦ hr) p

theorem moveTo (h : d.StoreFits b s) (node : NodeId) (index : Int) :
    d.StoreFits b (s.moveTo node index) := by
  refine h.of_perm (Store.nodes_moveTo index) fun e he ↦ ?_
  rcases Store.mem_moveTo he with he | ⟨e₀, he₀, -, rfl⟩
  · exact h.restored e he
  · rw [Store.relocated_restore]
    exact h.restored e₀ he₀

theorem realizeOrder (h : d.StoreFits b s) {current target : List NodeId}
    (ht : ∀ node ∈ target, node ∈ s.placeable) : d.StoreFits b (s.realizeOrder current target) :=
  Store.realizeOrder_induction _ (fun _ node index h _ ↦ h.moveTo node index) ht h

theorem replace (h : d.StoreFits b s) (hnew : new ∉ s.nodes) (hl : d.Links b new) (old : NodeId) :
    d.StoreFits b (s.replace old new) := by
  by_cases hold : old ∈ s.nodes
  · refine h.of_insert (Store.nodes_replace hold) hnew hl fun e he ↦ ?_
    rcases Store.mem_replaceFirst he with he | ⟨e₀, he₀, -, rfl | rfl⟩
    · exact h.restored e he
    · exact Entry.withdraw_restore (h.restored e₀ he₀)
    · simp [Store.replacement, Entry.fresh]
  · rwa [Store.replace_of_not_mem hold]

end StoreFits

/-- What a placement can do: nothing, a note, or moves of placeable entries. -/
theorem placeNew_cases (d : Document) (block node : NodeId) :
    Alike d (d.placeNew block node) ∨ ∃ s target, d.store? block = some s ∧
      (∀ x ∈ target, x ∈ s.placeable) ∧
      d.placeNew block node = d.modifyStore block (·.realizeOrder s.placeable target) := by
  simp only [placeNew]
  split
  · next kind s hk hs =>
    split
    · exact .inl (.refl d)
    · split
      · next target ht => exact .inr ⟨s, target, hs, Placement.linearize_subset ht, rfl⟩
      · exact .inl ⟨fun _ ↦ rfl, rfl, rfl, rfl, rfl, rfl, fun _ ↦ rfl⟩
  · exact .inl (.refl d)

def replaceIn (d : Document) (old new : NodeId) (blocks : List NodeId) : Document :=
  blocks.foldl (fun d b ↦ d.modifyStore b (·.replace old new)) d

theorem store?_replaceIn {blocks : List NodeId} (hb : blocks.Nodup) (d : Document)
    (old new y : NodeId) : (d.replaceIn old new blocks).store? y =
      if y ∈ blocks then (d.store? y).map (·.replace old new) else d.store? y :=
  store?_foldl_modifyStore hb (·.replace old new) d y

theorem node?_replaceIn (d : Document) (old new : NodeId) (blocks : List NodeId) (i : NodeId) :
    (d.replaceIn old new blocks).node? i = d.node? i := by
  simp only [node?, replaceIn, (foldl_modifyStore_fields blocks (·.replace old new) d).1]

theorem replaceIn_modifyNode (d : Document) (old new i : NodeId) (blocks : List NodeId)
    (f : Node → Node) :
    (d.replaceIn old new blocks).modifyNode i f = (d.modifyNode i f).replaceIn old new blocks := by
  induction blocks generalizing d with
  | nil => rfl
  | cons b blocks ih => exact ih (d.modifyStore b _)

theorem alike_modifyStore (h : ∀ s, d.store? b = some s → old ∉ s.nodes) :
    Alike d (d.modifyStore b (·.replace old new)) := by
  refine ⟨fun i ↦ ?_, Table.size_modify .., rfl, rfl, rfl, rfl, fun _ ↦ rfl⟩
  rw [store?_modifyStore]
  split
  · next hb =>
    subst hb
    cases hs : d.store? b with
    | none => rfl
    | some s => simp [Store.replace_of_not_mem (h s hs)]
  · rfl

theorem alike_replaceIn (old new : NodeId) (blocks : List NodeId) (ha : Alike d d') :
    Alike (d.replaceIn old new blocks) (blocks.foldl (fun d holder ↦
      if (d.store? holder).any (·.contains old) then
        (d.modifyStore holder (·.replace old new)).markModified holder
      else d) d') := by
  induction blocks generalizing d d' with
  | nil => exact ha
  | cons b blocks ih =>
    rw [replaceIn, List.foldl_cons, List.foldl_cons]
    apply ih
    split
    · exact (ha.modifyStore b _).trans (.markModified _ b)
    · next hc =>
      have hold : ∀ s, d'.store? b = some s → old ∉ s.nodes := by
        intro s hs hmem
        simp [hs, Store.contains_iff.mpr hmem] at hc
      exact (ha.modifyStore b _).trans (alike_modifyStore hold).symm

def withSuccessor (d : Document) (block : NodeId) (n : Node) (spec : Spec) : Document :=
  (d.alloc block .toBeAdded spec).modifyNode d.nextId fun m ↦ { m with holders := n.holders }

def replaced (d : Document) (block old : NodeId) (n : Node) (spec : Spec) : Document :=
  (d.withSuccessor block n spec).replaceIn old d.nextId (block :: n.holders)

theorem alike_stageReplacement (h : Linked d) (hs : d.store? block = some s)
    (hn : d.node? old = some n) (spec : Spec) :
    Alike (d.replaced block old n spec) (d.stageReplacement block old spec) := by
  obtain ⟨m, hm, -⟩ := h.isContainer_of_store? hs
  obtain ⟨-, hext, -⟩ := h.alloc (lt_nextId hm) .toBeAdded spec
  have hold : (d.alloc block .toBeAdded spec).node? old = some n :=
    (hext.node old (lt_nextId hn)).trans hn
  simp only [stageReplacement, putInPlace, node?_modifyStore, hold, Option.map_some,
    Option.getD_some]
  refine .trans ?_ ((((Alike.dropEdges _ old).trans (.recordEdges _ d.nextId))).trans
    (.markModified _ block))
  rw [replaced, withSuccessor, ← replaceIn_modifyNode]
  exact (alike_replaceIn old d.nextId n.holders (.refl _)).congr_modifyNode d.nextId
    fun n n' he ↦ by
    obtain ⟨name, kind, parent, source, modified, holders, edges, pending⟩ := n
    obtain ⟨name', kind', parent', source', modified', holders', edges', pending'⟩ := n'
    simp_all [Node.bare]

namespace Linked

theorem lt_of_store? (h : Linked d) (hs : d.store? b = some s) : b < d.nextId := by
  obtain ⟨n, hn, -⟩ := h.isContainer_of_store? hs
  exact lt_nextId hn

theorem store_root (h : Linked d) : (d.store? Document.root).isSome := by
  obtain ⟨n, hn, hc, -⟩ := h.root
  rw [h.keyed, hn]
  exact hc

theorem store_of_isBlock (h : Linked d) (hb : (d.node? b).any Node.isBlock) :
    (d.store? b).isSome := by
  obtain ⟨n, hn, hblock⟩ := (Option.any_eq_true _ _).mp hb
  rw [h.keyed, hn, Option.any_some]
  obtain ⟨_, kind, _⟩ := n
  cases kind <;> simp_all [Node.isBlock, Node.isContainer, Kind.isBlock, Kind.isContainer]

theorem lt_of_mem_entries (h : Linked d) {e : Entry} (he : e ∈ d.entries b) :
    e.node < d.nextId := by
  obtain ⟨s, hs, he⟩ := mem_entries.mp he
  exact ((h.store b s hs).links e.node (Store.mem_nodes_of_mem he)).1

theorem not_listed (h : Linked d) (hs : d.store? b = some s) {x : NodeId} (hx : d.nextId ≤ x) :
    x ∉ s.nodes := fun hmem ↦
  absurd ((h.store b s hs).links x hmem).1 (Nat.not_lt.mpr hx)

theorem graft (h : Linked d) (hs : d.store? b = some s) (state : EntryState) (spec : Spec)
    {list : NodeId → Store → Store}
    (hlist : ∀ d' : Document, d'.StoreFits b s → d.nextId ∉ s.nodes → d'.Links b d.nextId →
      d'.StoreFits b (list d.nextId s)) : Linked (d.graft b state spec list) := by
  obtain ⟨hl, hext, hnode⟩ := h.alloc (h.lt_of_store? hs) state spec
  have hlt := h.lt_of_store? hs
  refine alike (hl.modifyStore fun s' hs' ↦ ?_) (.recordEdges _ _)
  rw [hext.store b hlt (Nat.ne_of_lt hlt), hs] at hs'
  obtain rfl : s = s' := by simpa using hs'
  have hnew : d.nextId ∉ s.nodes := fun hmem ↦
    Nat.lt_irrefl _ ((h.store b s hs).links _ hmem).1
  refine hlist _ (hl.store b s ?_) hnew ⟨lt_nextId hnode, fun n hn ↦ .inl ?_⟩
  · rw [hext.store b hlt (Nat.ne_of_lt hlt), hs]
  · rw [hnode] at hn
    cases hn
    rfl

theorem graft_add (h : Linked d) (hs : d.store? b = some s) (state : EntryState) (spec : Spec)
    (existsInSource : Bool) :
    Linked (d.graft b state spec fun id s ↦ s.add id state existsInSource) :=
  h.graft hs state spec fun _ hf hnew hl ↦ hf.add hnew hl state existsInSource

theorem graft_addAt (h : Linked d) (hs : d.store? b = some s) (state : EntryState) (spec : Spec)
    (existsInSource : Bool) (index : Int) :
    Linked (d.graft b state spec fun id s ↦ s.addAt id state existsInSource index) :=
  h.graft hs state spec fun _ hf hnew hl ↦ hf.addAt hnew hl state existsInSource index

theorem placeNew (h : Linked d) (block node : NodeId) : Linked (d.placeNew block node) := by
  rcases d.placeNew_cases block node with ha | ⟨s, target, hs, ht, he⟩
  · exact h.alike ha
  · rw [he]
    refine h.modifyStore fun s' hs' ↦ ?_
    rw [hs] at hs'
    cases hs'
    exact (h.store block s hs).realizeOrder ht

theorem add (h : Linked d) (hs : d.store? b = some s) (spec : Spec) :
    Linked ((d.stage b spec fun id s ↦ s.add id .toBeAdded false).placeNew b d.nextId) :=
  ((h.graft_add hs .toBeAdded spec false).alike (.markModified _ b)).placeNew b d.nextId

theorem hideNamed (h : Linked d) (b : NodeId) (name : String) : Linked (d.hideNamed b name) :=
  h.modifyStore fun s hs ↦ (h.store b s hs).hideAll _

theorem setHolders (h : Linked d) (hn : d.node? i = some n) (hr : i ≠ Document.root)
    {holders : List NodeId} {f : Node → Node} (hf : f n = { n with holders })
    (hsub : n.holders ⊆ holders) (hd : holders.Nodup)
    (hp : ∀ p, n.parent = some p → p ∉ holders) : Linked (d.modifyNode i f) := by
  have hnode : ∀ x n', (d.modifyNode i f).node? x = some n' →
      ∃ n, d.node? x = some n ∧ n'.Fits x ∧ n'.parent = n.parent ∧ n.holders ⊆ n'.holders := by
    intro x n' hn'
    rcases node?_of_modifyNode hn' with ⟨rfl, n₁, hn₁, rfl⟩ | ⟨-, hn'⟩
    · obtain rfl := Option.some.inj (hn.symm.trans hn₁)
      rw [hf]
      have hfit := h.node i n hn
      exact ⟨n, hn, ⟨hfit.older, hd, hp, hfit.settable⟩, rfl, hsub⟩
    · exact ⟨n', hn', h.node x n' hn', rfl, fun _ hx ↦ hx⟩
  refine ⟨?_, fun j ↦ ?_, fun x n' hn' ↦ ?_, fun b s hs ↦ ?_, ?_, h.sources⟩
  · exact h.sizes.trans (d.nodes.size_modify i _).symm
  · rw [store?_modifyNode, h.keyed, node?_modifyNode]
    split
    · next hj =>
      subst hj
      rw [hn, Option.map_some, hf]
      rfl
    · rfl
  · obtain ⟨-, -, hfit, -⟩ := hnode x n' hn'
    exact hfit
  · have hnext := Nat.le_of_eq (nextId_modifyNode d i f).symm
    refine (h.store b s hs).mono fun x ↦ Links.mono hnext fun n' hn' _ ↦ ?_
    obtain ⟨n, hn, -, hpar, hh⟩ := hnode x n' hn'
    exact ⟨n, hn, hpar, hh⟩
  · obtain ⟨m, hm, hrest⟩ := h.root
    exact ⟨m, by rw [node?_modifyNode, if_neg hr]; exact hm, hrest⟩

theorem replaceIn (h : Linked d) {blocks : List NodeId} (hb : blocks.Nodup)
    (hl : ∀ b ∈ blocks, d.Links b new)
    (hnew : ∀ b ∈ blocks, ∀ s, d.store? b = some s → new ∉ s.nodes) :
    Linked (d.replaceIn old new blocks) := by
  induction blocks generalizing d with
  | nil => exact h
  | cons b blocks ih =>
    obtain ⟨hnot, hrest⟩ := List.nodup_cons.mp hb
    refine ih (h.modifyStore fun s hs ↦ ?_) hrest
      (fun c hc ↦ hl c (List.mem_cons_of_mem _ hc)) fun c hc s hs ↦ ?_
    · exact (h.store b s hs).replace (hnew b List.mem_cons_self s hs) (hl b List.mem_cons_self) old
    · have hne : b ≠ c := fun he ↦ hnot (he ▸ hc)
      rw [store?_modifyStore, if_neg hne] at hs
      exact hnew c (List.mem_cons_of_mem _ hc) s hs

theorem withSuccessor (h : Linked d) (hs : d.store? block = some s) (hn : d.node? old = some n)
    (hp : n.parent = some block) (spec : Spec) : Linked (d.withSuccessor block n spec) := by
  have hlt := h.lt_of_store? hs
  obtain ⟨hl, -, hnode⟩ := h.alloc hlt .toBeAdded spec
  have hroot : d.nextId ≠ Document.root := by
    intro he
    rw [he] at hlt
    exact Nat.not_lt_zero _ hlt
  have hfit := h.node old n hn
  refine hl.setHolders hnode hroot rfl (by simp [headNode]) hfit.distinct fun p he ↦ ?_
  obtain rfl : block = p := by simpa [headNode] using he
  exact hfit.foreign block hp

theorem successor_links (h : Linked d) (hs : d.store? block = some s) (n : Node) (spec : Spec) :
    ∀ b ∈ block :: n.holders, (d.withSuccessor block n spec).Links b d.nextId ∧
      ∀ s, (d.withSuccessor block n spec).store? b = some s → d.nextId ∉ s.nodes := by
  have hlt := h.lt_of_store? hs
  obtain ⟨hl, hext, hnode⟩ := h.alloc hlt .toBeAdded spec
  refine fun b hb ↦ ⟨⟨?_, fun m hm ↦ ?_⟩, fun s' hs' hmem ↦ ?_⟩
  · rw [Document.withSuccessor, nextId_modifyNode]
    exact lt_nextId hnode
  · rw [Document.withSuccessor, node?_modifyNode, if_pos rfl, hnode] at hm
    cases hm
    rcases List.mem_cons.mp hb with rfl | hb
    · exact .inl rfl
    · exact .inr hb
  · -- only the parent can have the new node so far, and it has not got it yet
    rw [Document.withSuccessor, store?_modifyNode] at hs'
    rcases ((hl.store b s' hs').links _ hmem).2 _ hnode with hpar | hhold
    · obtain rfl : block = b := by simpa [headNode] using hpar
      rw [hext.store block hlt (Nat.ne_of_lt hlt)] at hs'
      exact Nat.lt_irrefl _ ((h.store block s' hs').links _ hmem).1
    · simp [headNode] at hhold

theorem holders_nodup (h : Linked d) (hn : d.node? old = some n) (hp : n.parent = some block) :
    (block :: n.holders).Nodup :=
  List.nodup_cons.mpr ⟨(h.node old n hn).foreign block hp, (h.node old n hn).distinct⟩

theorem replaced (h : Linked d) (hs : d.store? block = some s) (hn : d.node? old = some n)
    (hp : n.parent = some block) (spec : Spec) : Linked (d.replaced block old n spec) := by
  have hlinks := h.successor_links hs n spec
  exact (h.withSuccessor hs hn hp spec).replaceIn (h.holders_nodup hn hp)
    (fun b hb ↦ (hlinks b hb).1) fun b hb ↦ (hlinks b hb).2

theorem stageReplacement (h : Linked d) (hs : d.store? block = some s)
    (hn : d.node? old = some n) (hp : n.parent = some block) (spec : Spec) :
    Linked (d.stageReplacement block old spec) :=
  (h.replaced hs hn hp spec).alike (alike_stageReplacement h hs hn spec)

theorem stageValue (h : Linked d) (hn : d.node? node = some n) (hset : n.isSettable)
    (value : Value) : Linked (d.stageValue node value) := by
  have hpending : Linked (d.modifyNode node fun n ↦ { n with pending := some value }) := by
    refine h.modifyNode fun m hm ↦ ⟨rfl, rfl, rfl, fun _ ↦ ?_⟩
    rw [hn] at hm
    cases hm
    exact hset
  exact (hpending.alike (.recordEdges _ node)).alike (.markModified _ node)

theorem edit (h : Linked d) (edit : Edit) : Linked (edit.run d).2 := by
  have he := edit.edited d
  generalize (edit.run d).2 = d' at he
  cases he with
  | unchanged => exact h
  | addParsed spec hs => exact h.graft_add hs .existing spec _
  | addParsedAtFront spec hs => exact h.graft_addAt hs .existing spec _ 0
  | @addParsedResetting block s spec name hs =>
    refine (h.hideNamed block name).graft_add (s := s.hideAll (d.isNamed name)) ?_ .existing spec _
    simp [Document.hideNamed, hs]
  | add spec hs => exact h.add hs spec
  | @addAt block s spec index hs =>
    exact (h.graft_addAt hs .toBeAdded spec false index).alike (.markModified _ block)
  | @addBeforeAllOfKind block s spec tag index hs =>
    exact (h.graft_addAt hs .toBeAdded spec false index).alike (.markModified _ block)
  | @remove block node s e hs =>
    have hrem : Linked (d.modifyStore block (·.remove node)) :=
      h.modifyStore fun s hs ↦ (h.store block s hs).remove node
    exact (hrem.alike (.dropEdges _ node)).alike (.markModified _ block)
  | @removeNamed block s name hs =>
    have hrem : Linked (d.modifyStore block (·.removeAll (d.isNamed name))) :=
      h.modifyStore fun s hs ↦ (h.store block s hs).removeAll _
    exact (hrem.alike (.foldl_dropEdges _ _)).alike (.markModified _ block)
  | @hideNamed block s name hs => exact h.hideNamed block name
  | replace spec hs he hne hn hp => exact h.stageReplacement hs hn hp spec
  | @moveTo block node s e n index hs he hplace hn hp =>
    have hmove : Linked (d.modifyStore block (·.moveTo node index)) :=
      h.modifyStore fun s hs ↦ (h.store block s hs).moveTo node index
    exact hmove.alike (.markModified _ block)
  | setValue value hn hset => exact h.stageValue hn hset value
  | setLiteral block name value hn hset => exact h.stageValue hn hset value
  | addLiteral name value hs => exact h.add hs _

end Linked

/-- What holds between a document and each of the documents that changes are made up of. -/
structure EditKeeps (R : Document → Document → Prop) : Prop where
  trans {d d' d'' : Document} : R d d' → R d' d'' → R d d''
  alike {d d' : Document} : Alike d d' → R d d'
  extend {d d' : Document} : Linked d → Extends d.nextId d d' → R d d'
  modifyStore (d : Document) (b : NodeId) (f : Store → Store) : R d (d.modifyStore b f)
  setHolders (d : Document) (i : NodeId) (l : List NodeId) :
    R d (d.modifyNode i fun n ↦ { n with holders := l })
  setPending (d : Document) (i : NodeId) (value : Value) :
    R d (d.modifyNode i fun n ↦ { n with pending := some value })

namespace EditKeeps

variable {R : Document → Document → Prop}

theorem graft (hR : EditKeeps R) (h : Linked d) (hs : d.store? block = some s)
    (state : EntryState) (spec : Spec) (list : NodeId → Store → Store) :
    R d (d.graft block state spec list) := by
  obtain ⟨-, hext, -⟩ := h.alloc (h.lt_of_store? hs) state spec
  exact hR.trans (hR.trans (hR.extend h hext) (hR.modifyStore _ block _))
    (hR.alike (.recordEdges _ _))

theorem stage (hR : EditKeeps R) (h : Linked d) (hs : d.store? block = some s) (spec : Spec)
    (list : NodeId → Store → Store) : R d (d.stage block spec list) :=
  hR.trans (hR.graft h hs .toBeAdded spec list) (hR.alike (.markModified _ block))

theorem placeNew (hR : EditKeeps R) (d : Document) (block node : NodeId) :
    R d (d.placeNew block node) := by
  rcases placeNew_cases d block node with ha | ⟨s, target, -, -, he⟩
  · exact hR.alike ha
  · rw [he]
    exact hR.modifyStore d block _

theorem stageReplacement (hR : EditKeeps R) (h : Linked d) (hs : d.store? block = some s)
    (hn : d.node? old = some n) (spec : Spec) : R d (d.stageReplacement block old spec) := by
  obtain ⟨-, hext, -⟩ := h.alloc (h.lt_of_store? hs) .toBeAdded spec
  have hsucc : R d (d.withSuccessor block n spec) :=
    hR.trans (hR.extend h hext) (hR.setHolders _ d.nextId n.holders)
  have hreplaced : R d (d.replaced block old n spec) :=
    List.foldlRecOn (motive := R d) _ _ hsucc fun d' h b _ ↦ hR.trans h (hR.modifyStore d' b _)
  exact hR.trans hreplaced (hR.alike (alike_stageReplacement h hs hn spec))

theorem stageValue (hR : EditKeeps R) (d : Document) (node : NodeId) (value : Value) :
    R d (d.stageValue node value) :=
  hR.trans (hR.trans (hR.setPending d node value) (hR.alike (.recordEdges _ node)))
    (hR.alike (.markModified _ node))

theorem edit (hR : EditKeeps R) (h : Linked d) (edit : Edit) : R d (edit.run d).2 := by
  have he := edit.edited d
  generalize (edit.run d).2 = d' at he
  cases he with
  | unchanged => exact hR.alike (.refl d)
  | addParsed spec hs | addParsedAtFront spec hs => exact hR.graft h hs .existing spec _
  | @addParsedResetting block s spec name hs =>
    refine hR.trans (hR.modifyStore d block _)
      (hR.graft (s := s.hideAll (d.isNamed name)) (h.hideNamed block name) ?_ .existing spec _)
    simp [Document.hideNamed, hs]
  | add spec hs => exact hR.trans (hR.stage h hs spec _) (hR.placeNew _ _ _)
  | addAt spec _ hs | addBeforeAllOfKind spec _ _ hs => exact hR.stage h hs spec _
  | @remove block node =>
    exact hR.trans (hR.modifyStore d block _)
      (hR.alike ((Alike.dropEdges _ node).trans (.markModified _ block)))
  | @removeNamed block =>
    exact hR.trans (hR.modifyStore d block _)
      (hR.alike ((Alike.foldl_dropEdges _ _).trans (.markModified _ block)))
  | @hideNamed block => exact hR.modifyStore d block _
  | replace spec hs _ _ hn => exact hR.stageReplacement h hs hn spec
  | @moveTo block =>
    exact hR.trans (hR.modifyStore d block _) (hR.alike (.markModified _ block))
  | setValue value | setLiteral _ _ value => exact hR.stageValue d _ value
  | addLiteral name value hs => exact hR.trans (hR.stage h hs _ _) (hR.placeNew _ _ _)

end EditKeeps

end Document

end BuildScript
