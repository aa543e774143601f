import BuildScript.Proofs.Document.Lookup
import BuildScript.Proofs.Folding.Region

namespace BuildScript

namespace Document

variable {d₀ d d' : Document} {Z Z' : NodeId → Prop} {m m' m'' : Merging}
  {b c f o s t x y : NodeId} {name : String} {kind : BlockKind}

def isBlockAt (d : Document) (x : NodeId) : Bool := (d.node? x).any Node.isBlock

def enclosing (d : Document) (c : NodeId) : BlockKind :=
  ((d.node? c).bind (·.kind.blockKind?)).getD rootKind

def appliedCount (d : Document) : Nat :=
  ((List.range d.nextId).flatMap d.entries).countP (·.state = .applied)

theorem isBlockAt_of_shape? (h : d'.shape? x = d.shape? x) : d'.isBlockAt x = d.isBlockAt x := by
  unfold isBlockAt
  unfold shape? face? at h
  generalize d'.node? x = i at h ⊢
  generalize d.node? x = j at h ⊢
  cases i <;> cases j <;> simp_all [Node.face, Node.isBlock, Kind.isBlock_eq]

theorem isBlockAt_congr (h : d'.face? x = d.face? x) : d'.isBlockAt x = d.isBlockAt x :=
  isBlockAt_of_shape? (shape?_congr h)

theorem enclosing_of_shape? (h : d'.shape? x = d.shape? x) : d'.enclosing x = d.enclosing x := by
  unfold enclosing
  unfold shape? face? at h
  generalize d'.node? x = i at h ⊢
  generalize d.node? x = j at h ⊢
  cases i <;> cases j <;> simp_all [Node.face]

theorem enclosing_congr (h : d'.face? x = d.face? x) : d'.enclosing x = d.enclosing x :=
  enclosing_of_shape? (shape?_congr h)

theorem entries_congr (h : d'.store? b = d.store? b) : d'.entries b = d.entries b := by
  simp only [entries, h]

theorem entries_modifyStore_add {state : EntryState} (hs : (d.store? c).isSome) :
    (d.modifyStore c (·.add t state false)).entries c =
      d.entries c ++ [.fresh t state false] := by
  obtain ⟨s, hs⟩ := Option.isSome_iff_exists.mp hs
  rw [entries, store?_modifyStore, if_pos rfl, hs, entries_eq hs]
  rfl

theorem entries_enroll (hsizes : d.stores.size = d.nodes.size) (hs : (d.store? c).isSome)
    (hc : c < d.nextId) (n : Node) :
    (d.enroll c n).entries c = d.entries c ++ [.fresh d.nextId .existing false] := by
  have hsame : (d.push n).store? c = d.store? c := by
    rw [store?_push hsizes, if_neg (Nat.ne_of_lt hc)]
  rw [enroll, entries_modifyStore_add (hsame ▸ hs), entries_congr hsame]

theorem store?_enroll_new (hsizes : d.stores.size = d.nodes.size) (hc : c < d.nextId) {n : Node}
    (hn : n.isContainer) : (d.enroll c n).store? d.nextId = some {} := by
  rw [enroll, store?_modifyStore, if_neg (Nat.ne_of_lt hc), store?_push hsizes, if_pos rfl,
    if_pos hn]

theorem countP_flatMap_congr {g g' : NodeId → List Entry} {p : Entry → Bool} {l : List NodeId}
    (h : ∀ x ∈ l, (g' x).countP p = (g x).countP p) :
    (l.flatMap g').countP p = (l.flatMap g).countP p := by
  induction l with
  | nil => rfl
  | cons x l ih =>
    rw [List.flatMap_cons, List.flatMap_cons, List.countP_append, List.countP_append,
      h x List.mem_cons_self, ih fun y hy ↦ h y (List.mem_cons_of_mem _ hy)]

theorem countP_flatMap_bump {g g' : NodeId → List Entry} {p : Entry → Bool} {l : List NodeId}
    (hl : l.Nodup) (hb : b ∈ l) (hg : ∀ x, x ≠ b → g' x = g x)
    (hbump : (g' b).countP p = (g b).countP p + 1) :
    (l.flatMap g').countP p = (l.flatMap g).countP p + 1 := by
  induction l with
  | nil => simp at hb
  | cons x l ih =>
    obtain ⟨hnot, hrest⟩ := List.nodup_cons.mp hl
    rw [List.flatMap_cons, List.flatMap_cons, List.countP_append, List.countP_append]
    rcases List.mem_cons.mp hb with rfl | hb
    · rw [hbump, countP_flatMap_congr fun y hy ↦ by rw [hg y (ne_of_mem_of_not_mem hy hnot)]]
      omega
    · rw [hg x fun he ↦ hnot (he ▸ hb), ih hrest hb]
      omega

theorem appliedCount_lend (hs : (d.store? c).isSome) (hc : c < d.nextId) :
    (d.lend c t).appliedCount = d.appliedCount + 1 := by
  rw [appliedCount, appliedCount, nextId_lend]
  refine countP_flatMap_bump List.nodup_range (List.mem_range.mpr hc) (fun x hx ↦ ?_) ?_
  · rw [entries_congr (d := d) (by rw [store?_lend, if_neg hx.symm])]
  · have hadd : (d.lend c t).entries c = d.entries c ++ [.fresh t .applied false] :=
      entries_modifyStore_add hs
    simp [hadd, Entry.fresh]

theorem appliedCount_congr (hnext : d'.nextId = d.nextId)
    (h : ∀ b, (d'.entries b).countP (·.state = .applied) =
      (d.entries b).countP (·.state = .applied)) : d'.appliedCount = d.appliedCount := by
  rw [appliedCount, hnext]
  exact countP_flatMap_congr fun b _ ↦ h b

theorem appliedCount_push (hsizes : d.stores.size = d.nodes.size) (n : Node) :
    (d.push n).appliedCount = d.appliedCount := by
  have hnew : (d.push n).entries d.nextId = [] := by
    rw [entries, store?_push hsizes, if_pos rfl]
    cases n.isContainer <;> rfl
  rw [appliedCount, nextId_push, List.range_succ, List.flatMap_append, List.flatMap_singleton, hnew,
    List.append_nil]
  refine countP_flatMap_congr fun b hb ↦ ?_
  rw [entries_congr]
  rw [store?_push hsizes, if_neg (Nat.ne_of_lt (List.mem_range.mp hb))]

theorem appliedCount_enroll (hsizes : d.stores.size = d.nodes.size) (c : NodeId) (n : Node) :
    (d.enroll c n).appliedCount = d.appliedCount := by
  rw [← appliedCount_push hsizes n]
  refine appliedCount_congr rfl fun b ↦ ?_
  simp only [enroll, entries, store?_modifyStore]
  by_cases hb : c = b
  · rw [if_pos hb]
    cases (d.push n).store? b with
    | none => rfl
    | some s => simp [Store.add, Entry.fresh]
  · rw [if_neg hb]

theorem document_borrow (m : Merging) (c t : NodeId) :
    (borrow m c t).document = m.document.lend c t := rfl

theorem document_synthesize (m : Merging) (c : NodeId) (name : String) (kind : BlockKind) :
    (synthesize m c name kind).document = m.document.enroll c (emptyBlock c name kind) := rfl

/-- From `m` to `m'` a merge makes nodes and adds entries to the blocks in `Z`, and counts both. -/
structure Grows (Z : NodeId → Prop) (m m' : Merging) : Prop where
  next : m.document.nextId ≤ m'.document.nextId
  sizes : m.document.stores.size = m.document.nodes.size →
    m'.document.stores.size = m'.document.nodes.size
  config : m'.document.config = m.document.config
  face : ∀ x, x < m.document.nextId → m'.document.face? x = m.document.face? x
  store : ∀ y, y < m.document.nextId → ¬ Z y → m'.document.store? y = m.document.store? y
  stores : ∀ y, (m.document.store? y).isSome → (m'.document.store? y).isSome
  made : ∀ x, m.document.nextId ≤ x → x < m'.document.nextId → ∃ n p,
    m'.document.node? x = some n ∧ n.isBlock ∧ n.parent = some p ∧ (Z p ∨ m.document.nextId ≤ p)
  applied : m'.applied + m.document.appliedCount = m.applied + m'.document.appliedCount
  synthesized : m'.synthesized + m.document.nextId = m.synthesized + m'.document.nextId

namespace Grows

theorem refl (Z : NodeId → Prop) (m : Merging) : Grows Z m m :=
  ⟨Nat.le_refl _, fun h ↦ h, rfl, fun _ _ ↦ rfl, fun _ _ _ ↦ rfl, fun _ h ↦ h,
    fun _ hx hx' ↦ absurd hx' (Nat.not_lt.mpr hx), rfl, rfl⟩

theorem trans (h : Grows Z m m') (h' : Grows Z' m' m'')
    (hZ : ∀ y, y < m.document.nextId → Z' y → Z y) : Grows Z m m'' where
  next := Nat.le_trans h.next h'.next
  sizes hm := h'.sizes (h.sizes hm)
  config := h'.config.trans h.config
  face x hx := (h'.face x (Nat.lt_of_lt_of_le hx h.next)).trans (h.face x hx)
  store y hy hnot := (h'.store y (Nat.lt_of_lt_of_le hy h.next) fun hz ↦ hnot (hZ y hy hz)).trans
    (h.store y hy hnot)
  stores y hy := h'.stores y (h.stores y hy)
  made x hx hx' := by
    by_cases hlt : x < m'.document.nextId
    · obtain ⟨n, p, hn, hb, hp, hor⟩ := h.made x hx hlt
      obtain ⟨n', hn', -, hkind, hparent⟩ := node?_of_face? (h'.face x hlt) hn
      exact ⟨n', p, hn', by rwa [Node.isBlock, hkind], hparent.trans hp, hor⟩
    · obtain ⟨n, p, hn, hb, hp, hor⟩ := h'.made x (Nat.not_lt.mp hlt) hx'
      refine ⟨n, p, hn, hb, hp, ?_⟩
      by_cases hpm : p < m.document.nextId
      · exact hor.imp (hZ p hpm) fun hle ↦ Nat.le_trans h.next hle
      · exact .inr (Nat.not_lt.mp hpm)
  applied := by
    have h₁ := h.applied
    have h₂ := h'.applied
    omega
  synthesized := by
    have h₁ := h.synthesized
    have h₂ := h'.synthesized
    omega

theorem mono (h : Grows Z m m') (hZ : ∀ y, y < m.document.nextId → Z y → Z' y) : Grows Z' m m' :=
  (refl Z' m).trans h hZ

theorem borrow (hs : (m.document.store? c).isSome) (hc : c < m.document.nextId) (t : NodeId) :
    Grows (· = c) m (borrow m c t) where
  next := Nat.le_of_eq (nextId_lend ..).symm
  sizes h := by simpa [Document.borrow, modifyNode, modifyStore] using h
  config := rfl
  face x _ := by
    rw [document_borrow, face?, node?_lend, face?]
    split
    · cases m.document.node? x <;> rfl
    · rfl
  store y _ hy := by rw [document_borrow, store?_lend, if_neg (Ne.symm hy)]
  stores y hy := by
    rw [document_borrow, store?_lend]
    split
    · simpa using hy
    · exact hy
  made x hx hx' := by
    rw [document_borrow, nextId_lend] at hx'
    exact absurd hx' (Nat.not_lt.mpr hx)
  applied := by
    have happlied : (Document.borrow m c t).applied = m.applied + 1 := rfl
    rw [document_borrow, appliedCount_lend hs hc]
    omega
  synthesized := by
    rw [document_borrow, nextId_lend]
    rfl

theorem synthesize (hsizes : m.document.stores.size = m.document.nodes.size) (c : NodeId)
    (name : String) (kind : BlockKind) : Grows (· = c) m (synthesize m c name kind) where
  next := by
    rw [document_synthesize, nextId_enroll]
    exact Nat.le_succ _
  sizes h := by simpa [document_synthesize, enroll, push, modifyStore] using h
  config := rfl
  face x hx := by
    rw [document_synthesize, face?, node?_enroll, if_neg (Nat.ne_of_lt hx), face?]
  store y hy hne := by
    rw [document_synthesize, enroll, store?_modifyStore, if_neg (Ne.symm hne), store?_push hsizes,
      if_neg (Nat.ne_of_lt hy)]
  stores y hy := by
    obtain ⟨s, hy⟩ := Option.isSome_iff_exists.mp hy
    have hlt : y < m.document.nextId := by
      have hlt := Table.lt_size_of_get? hy
      rwa [hsizes] at hlt
    rw [document_synthesize, enroll, store?_modifyStore, store?_push hsizes,
      if_neg (Nat.ne_of_lt hlt), hy]
    split <;> rfl
  made x hx hx' := by
    rw [document_synthesize, nextId_enroll] at hx'
    have hx : x = m.document.nextId := by lia
    refine ⟨emptyBlock c name kind, c, ?_, rfl, rfl, .inl rfl⟩
    rw [document_synthesize, node?_enroll, if_pos hx]
  applied := by
    have happlied : (Document.synthesize m c name kind).applied = m.applied := rfl
    rw [document_synthesize, appliedCount_enroll hsizes]
    omega
  synthesized := by
    have hcount : (Document.synthesize m c name kind).synthesized = m.synthesized + 1 := rfl
    rw [document_synthesize, nextId_enroll]
    omega

end Grows

end Document

end BuildScript
