import BuildScript.Proofs.Store.Entries

namespace BuildScript

namespace Kind

theorem isContainer_withValue (v : Value) (k : Kind) :
    (k.withValue v).isContainer = k.isContainer := by
  cases k <;> rfl

end Kind

namespace Node

def bare (n : Node) : Node := { n with modified := false, edges := [] }

end Node

namespace Document

variable {d : Document} {i : NodeId} {n : Node}

theorem lt_nextId (h : d.node? i = some n) : i < d.nextId := Table.lt_size_of_get? h

theorem node?_of_le (h : d.nextId ≤ i) : d.node? i = none := by
  cases hn : d.node? i with
  | none => rfl
  | some n => exact absurd (lt_nextId hn) (Nat.not_lt.mpr h)

@[simp]
theorem nextId_push (d : Document) (n : Node) : (d.push n).nextId = d.nextId + 1 :=
  d.nodes.size_push (some n)

@[simp]
theorem nextId_modifyNode (d : Document) (i : NodeId) (f : Node → Node) :
    (d.modifyNode i f).nextId = d.nextId := d.nodes.size_modify i f

theorem store?_push (hd : d.stores.size = d.nodes.size) (n : Node) (i : NodeId) :
    (d.push n).store? i =
      if i = d.nextId then if n.isContainer then some {} else none else d.store? i := by
  simp only [store?, push, Table.get?_push, hd, nextId]
  rfl

theorem map_node?_modifyNode {α : Type} {j : NodeId} {f : Node → Node} {g : Node → α}
    (hf : ∀ n, d.node? j = some n → g (f n) = g n) (i : NodeId) :
    ((d.modifyNode j f).node? i).map g = (d.node? i).map g := by
  rw [node?_modifyNode]
  split
  · next hi =>
    subst hi
    cases hn : d.node? j with
    | none => rfl
    | some n => exact congrArg some (hf n hn)
  · rfl

theorem node?_of_modifyNode {j : NodeId} {f : Node → Node} {m : Node}
    (h : (d.modifyNode j f).node? i = some m) :
    j = i ∧ (∃ n, d.node? i = some n ∧ m = f n) ∨ j ≠ i ∧ d.node? i = some m := by
  rw [node?_modifyNode] at h
  split at h
  · next hi =>
    obtain ⟨n, hn, rfl⟩ := Option.map_eq_some_iff.mp h
    exact .inl ⟨hi, n, hn, rfl⟩
  · next hi => exact .inr ⟨hi, h⟩

theorem store?_of_modifyStore {j : NodeId} {f : Store → Store} {s' : Store}
    (h : (d.modifyStore j f).store? i = some s') :
    j = i ∧ (∃ s, d.store? i = some s ∧ s' = f s) ∨ j ≠ i ∧ d.store? i = some s' := by
  rw [store?_modifyStore] at h
  split at h
  · next hi =>
    obtain ⟨s, hs, rfl⟩ := Option.map_eq_some_iff.mp h
    exact .inl ⟨hi, s, hs, rfl⟩
  · next hi => exact .inr ⟨hi, h⟩

theorem node?_of_push {m : Node} (h : (d.push n).node? i = some m) :
    i = d.nextId ∧ m = n ∨ d.node? i = some m := by
  rw [node?_push] at h
  split at h
  · next hi => exact .inl ⟨hi, (Option.some.inj h).symm⟩
  · exact .inr h

theorem store?_of_push {s : Store} (hd : d.stores.size = d.nodes.size)
    (h : (d.push n).store? i = some s) : i = d.nextId ∧ s = {} ∨ d.store? i = some s := by
  rw [store?_push hd] at h
  split at h
  · next hi =>
    split at h
    · exact .inl ⟨hi, (Option.some.inj h).symm⟩
    · simp at h
  · exact .inr h

theorem store?_of_mem_push {s : Store} {e : Entry} (hd : d.stores.size = d.nodes.size)
    (hs : (d.push n).store? i = some s) (he : e ∈ s.entries) : d.store? i = some s := by
  refine (store?_of_push hd hs).resolve_left ?_
  rintro ⟨-, rfl⟩
  simp at he

theorem mem_store?_add {b c : NodeId} {s : Store} {e : Entry} {state : EntryState}
    {existsInSource : Bool}
    (hs : (d.modifyStore b (·.add i state existsInSource)).store? c = some s) (he : e ∈ s.entries) :
    (∃ s₀, d.store? c = some s₀ ∧ e ∈ s₀.entries) ∨
      c = b ∧ e = .fresh i state existsInSource := by
  rcases store?_of_modifyStore hs with ⟨hb, s₀, hs₀, rfl⟩ | ⟨-, hs₀⟩
  · exact (Store.mem_add he).imp (fun he₀ ↦ ⟨s₀, hs₀, he₀⟩) fun he₀ ↦ ⟨hb.symm, he₀⟩
  · exact .inl ⟨s, hs₀, he⟩

theorem entries_eq {s : Store} (h : d.store? i = some s) : d.entries i = s.entries := by
  simp only [entries, h]

theorem mem_entries {e : Entry} : e ∈ d.entries i ↔ ∃ s, d.store? i = some s ∧ e ∈ s.entries := by
  cases hs : d.store? i <;> simp [entries, hs]

/-- No order is kept in a block for a reset to restore. -/
def Unmoved (d : Document) (b : NodeId) : Prop := ∀ s, d.store? b = some s → s.baseline = none

theorem Unmoved.congr {d' : Document} (h : d.Unmoved i) (hs : d'.store? i = d.store? i) :
    d'.Unmoved i := fun s hs' ↦ h s (hs ▸ hs')

theorem Unmoved.modifyStore (h : d.Unmoved i) {block : NodeId} {f : Store → Store}
    (hf : ∀ s, d.store? block = some s → s.baseline = none → (f s).baseline = none) :
    (d.modifyStore block f).Unmoved i := by
  intro s' hs'
  rcases store?_of_modifyStore hs' with ⟨rfl, s, hs, rfl⟩ | ⟨-, hs'⟩
  · exact hf s hs (h s hs)
  · exact h s' hs'

@[simp]
theorem isOwnedBy_iff {node block : NodeId} :
    d.isOwnedBy node block = true ↔ ∃ n, d.node? node = some n ∧ n.parent = some block := by
  simp [isOwnedBy, Option.any_eq_true]

theorem parent_of_isOwnedBy {node block : NodeId} (h : d.isOwnedBy node block)
    (hn : d.node? node = some n) : n.parent = some block := by
  obtain ⟨m, hm, hp⟩ := isOwnedBy_iff.mp h
  rw [hn] at hm
  cases hm
  exact hp

theorem owner_unique {node b c : NodeId} (h : d.isOwnedBy node b) (h' : d.isOwnedBy node c) :
    b = c := by
  obtain ⟨n, hn, hp⟩ := isOwnedBy_iff.mp h
  exact Option.some.inj (hp.symm.trans (parent_of_isOwnedBy h' hn))

@[simp]
theorem isLive_iff : d.isLive i = true ↔ ∃ n, d.node? i = some n := Option.isSome_iff_exists

theorem foldl_modifyStore_fields (l : List NodeId) (f : Store → Store) (d : Document) :
    (l.foldl (fun d b ↦ d.modifyStore b f) d).nodes = d.nodes ∧
    (l.foldl (fun d b ↦ d.modifyStore b f) d).stores.size = d.stores.size ∧
    (l.foldl (fun d b ↦ d.modifyStore b f) d).overlays = d.overlays ∧
    (l.foldl (fun d b ↦ d.modifyStore b f) d).overlaySources = d.overlaySources := by
  induction l generalizing d with
  | nil => exact ⟨rfl, rfl, rfl, rfl⟩
  | cons b l ih =>
    obtain ⟨h₁, h₂, h₃, h₄⟩ := ih (d.modifyStore b f)
    exact ⟨h₁, h₂.trans (Table.size_modify ..), h₃, h₄⟩

theorem store?_foldl_modifyStore {l : List NodeId} (hl : l.Nodup) (f : Store → Store) (d : Document)
    (y : NodeId) : (l.foldl (fun d b ↦ d.modifyStore b f) d).store? y =
      if y ∈ l then (d.store? y).map f else d.store? y := by
  induction l generalizing d with
  | nil => rfl
  | cons b l ih =>
    obtain ⟨hnot, hrest⟩ := List.nodup_cons.mp hl
    rw [List.foldl_cons, ih hrest, store?_modifyStore]
    by_cases hy : b = y
    · subst hy
      simp [hnot]
    · simp [hy, Ne.symm hy]

/-- The two documents differ at most in marks, edges and diagnostics. -/
structure Alike (d d' : Document) : Prop where
  store? : ∀ i, d'.store? i = d.store? i
  storesSize : d'.stores.size = d.stores.size
  size : d'.nodes.size = d.nodes.size
  overlays : d'.overlays = d.overlays
  overlaySources : d'.overlaySources = d.overlaySources
  config : d'.config = d.config
  bare : ∀ i, (d'.node? i).map Node.bare = (d.node? i).map Node.bare

namespace Alike

variable {d' d'' : Document}

theorem refl (d : Document) : Alike d d := ⟨fun _ ↦ rfl, rfl, rfl, rfl, rfl, rfl, fun _ ↦ rfl⟩

theorem trans (h : Alike d d') (h' : Alike d' d'') : Alike d d'' :=
  ⟨fun i ↦ (h'.store? i).trans (h.store? i), h'.storesSize.trans h.storesSize,
    h'.size.trans h.size, h'.overlays.trans h.overlays,
    h'.overlaySources.trans h.overlaySources, h'.config.trans h.config,
    fun i ↦ (h'.bare i).trans (h.bare i)⟩

theorem symm (h : Alike d d') : Alike d' d :=
  ⟨fun i ↦ (h.store? i).symm, h.storesSize.symm, h.size.symm, h.overlays.symm,
    h.overlaySources.symm, h.config.symm, fun i ↦ (h.bare i).symm⟩

theorem nextId (h : Alike d d') : d'.nextId = d.nextId := h.size

theorem node? (h : Alike d d') (hi : d'.node? i = some n) :
    ∃ n₀, d.node? i = some n₀ ∧ n.bare = n₀.bare := by
  have hb := h.bare i
  rw [hi] at hb
  obtain ⟨n₀, hn₀, he⟩ := Option.map_eq_some_iff.mp hb.symm
  exact ⟨n₀, hn₀, he.symm⟩

theorem modifyNode (d : Document) (i : NodeId) {f : Node → Node} (hf : ∀ n, (f n).bare = n.bare) :
    Alike d (d.modifyNode i f) := by
  refine ⟨fun _ ↦ rfl, rfl, nextId_modifyNode d i f, rfl, rfl, rfl, fun j ↦ ?_⟩
  rw [node?_modifyNode]
  split
  · simp only [Option.map_map, Function.comp_def, hf]
  · rfl

theorem modifyStore (h : Alike d d') (i : NodeId) (f : Store → Store) :
    Alike (d.modifyStore i f) (d'.modifyStore i f) := by
  refine ⟨fun j ↦ ?_, ?_, h.size, h.overlays, h.overlaySources, h.config, h.bare⟩
  · simp only [store?_modifyStore, h.store?]
  · exact (Table.size_modify ..).trans (h.storesSize.trans (Table.size_modify ..).symm)

theorem congr_modifyNode (h : Alike d d') (i : NodeId) {f : Node → Node}
    (hf : ∀ n n' : Node, n.bare = n'.bare → (f n).bare = (f n').bare) :
    Alike (d.modifyNode i f) (d'.modifyNode i f) := by
  refine ⟨h.store?, h.storesSize, ?_, h.overlays, h.overlaySources, h.config, fun j ↦ ?_⟩
  · exact (Table.size_modify ..).trans (h.size.trans (Table.size_modify ..).symm)
  · have hb := h.bare j
    rw [node?_modifyNode, node?_modifyNode]
    split
    · cases hn : d.node? j with
      | none => simpa [hn] using hb
      | some n =>
        rw [hn] at hb
        obtain ⟨n', hn', he⟩ := Option.map_eq_some_iff.mp hb
        simp [hn', hf n' n he]
    · exact hb

theorem foldl_modifyNode (l : List NodeId) (d : Document) {f : NodeId → Node → Node}
    (hf : ∀ i n, (f i n).bare = n.bare) : Alike d (l.foldl (fun d i ↦ d.modifyNode i (f i)) d) :=
  List.foldlRecOn (motive := Alike d) l _ (refl d) fun d' h i _ ↦ h.trans (.modifyNode d' i (hf i))

theorem markModified (d : Document) (id : NodeId) : Alike d (d.markModified id) :=
  foldl_modifyNode _ d fun _ _ ↦ rfl

theorem recordEdges (d : Document) (id : NodeId) : Alike d (d.recordEdges id) :=
  foldl_modifyNode _ d fun _ _ ↦ rfl

theorem dropEdges (d : Document) (id : NodeId) : Alike d (d.dropEdges id) :=
  foldl_modifyNode _ d fun _ _ ↦ rfl

theorem foldl_dropEdges (l : List NodeId) (d : Document) : Alike d (l.foldl Document.dropEdges d) :=
  List.foldlRecOn (motive := Alike d) l _ (refl d) fun d' h i _ ↦ h.trans (.dropEdges d' i)

end Alike

def headNode (parent : NodeId) (state : EntryState) (spec : Spec) : Node :=
  { name := spec.name, kind := spec.kind, parent := some parent, source := spec.source
    modified := state = .toBeAdded }

theorem alloc_eq (d : Document) (parent : NodeId) (state : EntryState) (spec : Spec) :
    d.alloc parent state spec =
      (d.push (headNode parent state spec)).allocAll d.nextId state spec.children := by
  cases spec
  simp only [alloc, headNode]

def listTree (d d' : Document) (parent : NodeId) (state : EntryState) (spec : Spec) : Document :=
  d'.modifyStore parent (·.add d.nextId state (state = .existing && spec.isBacked))

/-- What holds of a tree if it holds of its children, numbered below its head, and of children if it
holds of the first tree and of the rest, numbered once that is listed, holds of what is numbered. -/
theorem alloc_induction (state : EntryState) {M : Document → NodeId → Spec → Document → Prop}
    {N : Document → NodeId → List Spec → Document → Prop}
    (head : ∀ d parent spec d', N (d.push (headNode parent state spec)) d.nextId spec.children d' →
      M d parent spec d')
    (nil : ∀ d parent, N d parent [] d)
    (cons : ∀ d parent spec rest d' d'', M d parent spec d' →
      N (listTree d d' parent state spec) parent rest d'' → N d parent (spec :: rest) d'') :
    (∀ d parent spec, M d parent spec (d.alloc parent state spec)) ∧
      ∀ d parent specs, N d parent specs (d.allocAll parent state specs) := by
  refine alloc.mutual_induct state (fun d parent spec ↦ M d parent spec (d.alloc parent state spec))
    (fun d parent specs ↦ N d parent specs (d.allocAll parent state specs)) ?_ ?_ ?_
  · intro d parent name kind children source ih
    rw [alloc_eq]
    exact head d parent ⟨name, kind, children, source⟩ _ ih
  · intro d parent
    rw [allocAll]
    exact nil d parent
  · intro d parent spec rest _ ih ih'
    rw [allocAll]
    exact cons d parent spec rest _ _ ih ih'

end Document

end BuildScript
