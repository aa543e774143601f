import BuildScript.Proofs.Linked.Edit

namespace BuildScript

theorem Node.fields_of_bare {n n' : Node} (h : n'.bare = n.bare) :
    n'.parent = n.parent ∧ n'.holders = n.holders ∧ n'.pending = n.pending := by
  have hp : n'.bare.parent = n.bare.parent := congrArg Node.parent h
  have hh : n'.bare.holders = n.bare.holders := congrArg Node.holders h
  have hpending : n'.bare.pending = n.bare.pending := congrArg Node.pending h
  exact ⟨hp, hh, hpending⟩

namespace Document

variable {d d' d'' : Document} {a b x y : NodeId} {l l' : List NodeId} {n n' : Node}

def Marked (d : Document) (x : NodeId) : Prop :=
  ∀ a n, Below d a x → d.node? a = some n → n.modified = true

theorem Marked.below (h : d.Marked x) (hb : Below d y x) : d.Marked y := fun a n ha hn ↦
  h a n (ha.trans hb) hn

theorem Alike.below (h : Alike d d') : Below d' a x ↔ Below d a x := by
  have hmono : ∀ {d d' : Document}, Alike d d' → Below d' a x → Below d a x := by
    intro d d' h hb
    refine hb.mono fun x n hn ↦ ?_
    obtain ⟨n₀, hn₀, he⟩ := h.node? hn
    exact ⟨n₀, hn₀, (Node.fields_of_bare he).1.symm⟩
  exact ⟨hmono h, hmono h.symm⟩

theorem Alike.isLive (h : Alike d d') (x : NodeId) : d'.isLive x = d.isLive x := by
  have hb := congrArg Option.isSome (h.bare x)
  simpa [Document.isLive] using hb

/-- From `d` to `d'` just the nodes in `l` have been marked, each with everything around it. -/
structure Flags (l : List NodeId) (d d' : Document) : Prop extends Alike d d' where
  modified : ∀ x n n', d.node? x = some n → d'.node? x = some n' →
    (n'.modified = true ↔ n.modified = true ∨ ∃ b ∈ l, d.isLive b ∧ Below d x b)

namespace Flags

theorem refl (d : Document) : Flags [] d d :=
  ⟨.refl d, fun x n n' hn hn' ↦ by rw [hn] at hn'; cases hn'; simp⟩

theorem of_modified (h : Alike d d')
    (hm : ∀ x n n', d.node? x = some n → d'.node? x = some n' → n'.modified = n.modified) :
    Flags [] d d' := ⟨h, fun x n n' hn hn' ↦ by simp [hm x n n' hn hn']⟩

theorem trans (h : Flags l d d') (h' : Flags l' d' d'') : Flags (l ++ l') d d'' where
  toAlike := h.toAlike.trans h'.toAlike
  modified x n n'' hn hn'' := by
    obtain ⟨n', hn', -⟩ := h'.node? hn''
    rw [h'.modified x n' n'' hn' hn'', h.modified x n n' hn hn', or_assoc]
    refine or_congr_right ?_
    simp only [h.isLive, h.below, List.mem_append, or_and_right, exists_or]

theorem marked (h : Flags l d d') (hb : b ∈ l) (hlive : d.isLive b) : d'.Marked b := by
  intro a n' ha hn'
  obtain ⟨n, hn, -⟩ := h.node? hn'
  exact (h.modified a n n' hn hn').mpr (.inr ⟨b, hb, hlive, h.below.mp ha⟩)

theorem node (h : Flags l d d') (hn' : d'.node? x = some n') : ∃ n, d.node? x = some n ∧
    n'.parent = n.parent ∧ n'.holders = n.holders ∧ n'.pending = n.pending ∧
    (n.modified = true → n'.modified = true) ∧
    (n'.modified = true → n.modified = true ∨ d'.Marked x) := by
  obtain ⟨n, hn, he⟩ := h.node? hn'
  obtain ⟨hp, hh, hpending⟩ := Node.fields_of_bare he
  have hiff := h.modified x n n' hn hn'
  refine ⟨n, hn, hp, hh, hpending, fun hm ↦ hiff.mpr (.inl hm),
    fun hm ↦ (hiff.mp hm).imp_right ?_⟩
  rintro ⟨b, hb, hlive, hxb⟩
  exact (h.marked hb hlive).below (h.below.mpr hxb)

end Flags

theorem node?_foldl_modifyNode {f : NodeId → Node → Node} (hf : ∀ i n, f i (f i n) = f i n)
    (l : List NodeId) (d : Document) (x : NodeId) :
    (l.foldl (fun d i ↦ d.modifyNode i (f i)) d).node? x =
      if x ∈ l then (d.node? x).map (f x) else d.node? x := by
  induction l generalizing d with
  | nil => rfl
  | cons i l ih =>
    rw [List.foldl_cons, ih, node?_modifyNode]
    by_cases hi : i = x
    · subst hi
      cases d.node? i <;> simp [hf]
    · simp [hi, Ne.symm hi]

theorem Flags.markModified (ho : d.Older) (b : NodeId) : Flags [b] d (d.markModified b) where
  toAlike := .markModified d b
  modified x n n' hn hn' := by
    rw [Document.markModified,
      node?_foldl_modifyNode (f := fun _ ↦ Node.markModified) (fun _ _ ↦ rfl), hn] at hn'
    have hlive : d.isLive x := isLive_iff.mpr ⟨n, hn⟩
    have hmem : x ∈ d.lineage b ↔ d.isLive b ∧ Below d x b := by
      rw [mem_lineage ho]
      simp [hlive]
    split at hn'
    · next hx =>
      cases hn'
      exact iff_of_true rfl (.inr ⟨b, List.mem_cons_self, hmem.mp hx⟩)
    · next hx =>
      cases hn'
      refine ⟨.inl, fun h ↦ h.resolve_right ?_⟩
      rintro ⟨b', hb', hrest⟩
      obtain rfl := List.mem_singleton.mp hb'
      exact hx (hmem.mpr hrest)

theorem Flags.recordEdges (d : Document) (i : NodeId) : Flags [] d (d.recordEdges i) := by
  refine .of_modified (.recordEdges d i) fun x n n' hn hn' ↦ ?_
  rw [Document.recordEdges, node?_foldl_modifyNode (f := Node.scanEdges) (fun _ _ ↦ rfl), hn]
    at hn'
  split at hn' <;> (cases hn'; rfl)

theorem Flags.dropEdges (d : Document) (i : NodeId) : Flags [] d (d.dropEdges i) := by
  refine .of_modified (.dropEdges d i) fun x n n' hn hn' ↦ ?_
  rw [Document.dropEdges,
    node?_foldl_modifyNode (f := fun _ n ↦ { n with edges := [] }) (fun _ _ ↦ rfl), hn] at hn'
  split at hn' <;> (cases hn'; rfl)

theorem Flags.foldl_dropEdges (l : List NodeId) (d : Document) :
    Flags [] d (l.foldl Document.dropEdges d) :=
  List.foldlRecOn (motive := Flags [] d) l _ (.refl d) fun d' h i _ ↦ h.trans (.dropEdges d' i)

theorem Flags.modifyStore (h : Flags l d d') (i : NodeId) (f : Store → Store) :
    Flags l (d.modifyStore i f) (d'.modifyStore i f) where
  toAlike := h.toAlike.modifyStore i f
  modified x n n' hn hn' := by
    simp only [below_modifyStore]
    exact h.modified x n n' hn hn'

theorem Flags.congr_modifyNode (h : Flags l d d') (i : NodeId) {f : Node → Node}
    (hf : ∀ n n' : Node, n.bare = n'.bare → (f n).bare = (f n').bare)
    (hm : ∀ n, (f n).modified = n.modified) (hp : ∀ n, (f n).parent = n.parent) :
    Flags l (d.modifyNode i f) (d'.modifyNode i f) where
  toAlike := h.toAlike.congr_modifyNode i hf
  modified x n n' hn hn' := by
    have hback : ∀ {d : Document} {m : Node}, (d.modifyNode i f).node? x = some m →
        ∃ m₀, d.node? x = some m₀ ∧ m.modified = m₀.modified := by
      intro d m hm'
      rcases node?_of_modifyNode hm' with ⟨-, m₀, hm₀, rfl⟩ | ⟨-, hm'⟩
      · exact ⟨m₀, hm₀, hm m₀⟩
      · exact ⟨m, hm', rfl⟩
    have hbelow : ∀ b, Below (d.modifyNode i f) x b ↔ Below d x b := fun b ↦ by
      refine ⟨below_of_below_modifyNode hp, fun hb ↦ hb.mono fun y m hy ↦ ?_⟩
      rw [node?_modifyNode]
      split
      · exact ⟨f m, by simp [hy], hp m⟩
      · exact ⟨m, hy, rfl⟩
    have hlive : ∀ b, (d.modifyNode i f).isLive b = d.isLive b := fun b ↦ by
      rw [Document.isLive, node?_modifyNode]
      split <;> simp [Document.isLive]
    obtain ⟨n₀, hn₀, he⟩ := hback hn
    obtain ⟨n₀', hn₀', he'⟩ := hback hn'
    simp only [he, he', hbelow, hlive]
    exact h.modified x n₀ n₀' hn₀ hn₀'

end Document

end BuildScript
