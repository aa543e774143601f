import BuildScript.Proofs.CreateInside
import BuildScript.Proofs.Lending

namespace BuildScript

theorem Node.source_of_bare {n n' : Node} (h : n'.bare = n.bare) : n'.source = n.source := by
  have hs : n'.bare.source = n.bare.source := congrArg Node.source h
  exact hs

theorem Node.isBacked_of_source {n n' : Node} (h : n'.source = n.source) :
    n'.isBacked = n.isBacked := by
  simp only [isBacked, h]

theorem Entry.withdraw_existsInSource (e : Entry) :
    e.withdraw.existsInSource = e.existsInSource := by
  unfold withdraw
  split <;> rfl

theorem Store.relocated_existsInSource (e : Entry) :
    (relocated e).existsInSource = e.existsInSource := by
  unfold relocated
  split <;> rfl

namespace Document

variable {d d' d'' : Document} {b base block i old x : NodeId} {n : Node} {s : Store} {e : Entry}
  {edit : Edit}

/-- The flag of an entry tells whether its node has text. -/
def Tells (d : Document) (e : Entry) : Prop :=
  ∀ n, d.node? e.node = some n → e.existsInSource = n.isBacked

/-- Below the root, what is written where it belongs tells whether it has text. -/
def Truthful (d : Document) : Prop :=
  ∀ b s e, Below d root b → d.store? b = some s → e ∈ s.entries → d.isOwnedBy e.node b →
    e.IsWritten → d.Tells e

structure KeepsText (d d' : Document) : Prop where
  next : d.nextId ≤ d'.nextId
  node : ∀ x n', x < d.nextId → d'.node? x = some n' → ∃ n, d.node? x = some n ∧
    n'.parent = n.parent ∧ n'.source = n.source

namespace KeepsText

theorem refl (d : Document) : KeepsText d d := ⟨Nat.le_refl _, fun _ n _ hn ↦ ⟨n, hn, rfl, rfl⟩⟩

theorem trans (h : KeepsText d d') (h' : KeepsText d' d'') : KeepsText d d'' where
  next := Nat.le_trans h.next h'.next
  node x n'' hx hn'' := by
    obtain ⟨n', hn', hp', hs'⟩ := h'.node x n'' (Nat.lt_of_lt_of_le hx h.next) hn''
    obtain ⟨n, hn, hp, hs⟩ := h.node x n' hx hn'
    exact ⟨n, hn, hp'.trans hp, hs'.trans hs⟩

theorem congr_nodes (hn : d'.nodes = d.nodes) : KeepsText d d' where
  next := by simp only [nextId, hn, Nat.le_refl]
  node x n' _ hn' := ⟨n', by simpa only [node?, hn] using hn', rfl, rfl⟩

theorem modifyStore (d : Document) (b : NodeId) (f : Store → Store) :
    KeepsText d (d.modifyStore b f) := .congr_nodes rfl

theorem alike (h : Alike d d') : KeepsText d d' where
  next := Nat.le_of_eq h.nextId.symm
  node x n' _ hn' := by
    obtain ⟨n, hn, he⟩ := h.node? hn'
    exact ⟨n, hn, (Node.fields_of_bare he).1, Node.source_of_bare he⟩

theorem of_extends (h : Extends b d d') : KeepsText d d' where
  next := h.next
  node x n' hx hn' := ⟨n', h.node x hx ▸ hn', rfl, rfl⟩

theorem modifyNode (d : Document) (i : NodeId) {f : Node → Node}
    (hf : ∀ n, (f n).parent = n.parent ∧ (f n).source = n.source) :
    KeepsText d (d.modifyNode i f) where
  next := Nat.le_of_eq (nextId_modifyNode d i f).symm
  node x n' _ hn' := by
    rcases node?_of_modifyNode hn' with ⟨-, n, hn, rfl⟩ | ⟨-, hn'⟩
    · exact ⟨n, hn, hf n⟩
    · exact ⟨n', hn', rfl, rfl⟩

theorem release (d : Document) (i : NodeId) : KeepsText d (d.release i) where
  next := Nat.le_of_eq (foldl_evict_fields _ d).1.symm
  node _ n' _ hn' := ⟨n', node?_of_release hn', rfl, rfl⟩

theorem editKeeps : EditKeeps KeepsText where
  trans := trans
  alike := alike
  extend _ := of_extends
  modifyStore := modifyStore
  setHolders d i _ := modifyNode d i fun _ ↦ ⟨rfl, rfl⟩
  setPending d i _ := modifyNode d i fun _ ↦ ⟨rfl, rfl⟩

theorem reset (h : Linked d) : KeepsText d d.reset where
  next := Nat.le_of_eq (nextId_reset h).symm
  node x n' _ hn' := by
    obtain ⟨n, hn, rfl⟩ := node?_reset h hn'
    exact ⟨n, hn, rfl, rfl⟩

end KeepsText

def Informed (base : NodeId) (d : Document) : Prop :=
  ∀ b s e, d.store? b = some s → e ∈ s.entries → base ≤ e.node → d.Tells e

namespace Informed

theorem start (h : Linked d) : Informed d.nextId d := fun b s _ hs he hle ↦
  absurd ((h.store b s hs).links _ (Store.mem_nodes_of_mem he)).1 (Nat.not_lt.mpr hle)

theorem alike (h : Informed base d) (ha : Alike d d') : Informed base d' := by
  intro b s e hs he hle n' hn'
  obtain ⟨n, hn, hbare⟩ := ha.node? hn'
  rw [h b s e (ha.store? b ▸ hs) he hle n hn]
  exact (Node.isBacked_of_source (Node.source_of_bare hbare)).symm

theorem push (h : Informed base d) (hl : Linked d) (n : Node) : Informed base (d.push n) := by
  intro b s e hs he hle m hm
  have hs₀ := store?_of_mem_push hl.sizes hs he
  have hlt := ((hl.store b s hs₀).links _ (Store.mem_nodes_of_mem he)).1
  rw [node?_push, if_neg (Nat.ne_of_lt hlt)] at hm
  exact h b s e hs₀ he hle m hm

theorem list (h : Informed base d) (hn : d.node? x = some n) {f : Store → Store}
    (hf : ∀ s, ∀ e ∈ (f s).entries, e ∈ s.entries ∨ e = .fresh x .existing n.isBacked) :
    Informed base (d.modifyStore b f) := by
  intro c s' e hs' he hle
  rcases store?_of_modifyStore hs' with ⟨rfl, s, hs, rfl⟩ | ⟨-, hs'⟩
  · rcases hf s e he with he | rfl
    · exact h b s e hs he hle
    · intro m hm
      have hm' : d.node? x = some m := hm
      rw [hn] at hm'
      cases hm'
      rfl
  · exact h c s' e hs' he hle

theorem alloc (h : Informed base d) (hl : Linked d) (hlt : parent < d.nextId) (spec : Spec) :
    Informed base (d.alloc parent .existing spec) := by
  refine ((Linked.alloc_induction .existing (M := fun d _ _ d' ↦ Informed base d → Informed base d')
    (N := fun d _ _ d' ↦ Informed base d → Informed base d')
    (fun d parent spec d' hd _ _ _ ih h ↦ ih (h.push hd _)) (fun _ _ _ h ↦ h)
    (fun d parent spec rest d' d'' _ _ ha _ ih ih' h ↦ ?_) hl hlt).1 spec).2 h
  exact ih' ((ih h).list ha.top fun _ _ ↦ Store.mem_add)

theorem graft (hl : Linked d) (hs : d.store? block = some s) (spec : Spec)
    {list : NodeId → Store → Store}
    (hlist : ∀ s, ∀ e ∈ (list d.nextId s).entries,
      e ∈ s.entries ∨ e = .fresh d.nextId .existing spec.isBacked) :
    Informed d.nextId (d.graft block .existing spec list) := by
  have hlt := hl.lt_of_store? hs
  obtain ⟨-, -, hnode⟩ := hl.alloc hlt .existing spec
  have halloc := (start hl).alloc hl hlt spec
  exact (halloc.list hnode hlist).alike (.recordEdges _ _)

theorem parsed (hl : Linked d) (hp : edit.parses = true) : Informed d.nextId (edit.run d).2 := by
  have hedited := edit.edited d
  generalize (edit.run d).2 = d' at hedited
  cases hedited with
  | unchanged => exact start hl
  | addParsed spec hs => exact graft hl hs spec fun _ _ ↦ Store.mem_add
  | addParsedAtFront spec hs => exact graft hl hs spec fun _ _ ↦ Store.mem_addAt
  | @addParsedResetting block s spec name hs =>
    have hs' : (d.hideNamed block name).store? block = some (s.hideAll (d.isNamed name)) := by
      rw [Document.hideNamed, store?_modifyStore, if_pos rfl, hs]
      rfl
    exact graft (hl.hideNamed block name) hs' spec fun _ _ ↦ Store.mem_add
  | add | addAt | addBeforeAllOfKind | remove | removeNamed | hideNamed | replace | moveTo
  | setValue | setLiteral | addLiteral => cases hp

end Informed

/-- A merge keeps the text of the nodes, and what it makes has none. -/
structure Fills (d d' : Document) : Prop extends KeepsText d d' where
  fresh : ∀ x n', d.nextId ≤ x → d'.node? x = some n' → n'.source = none

namespace Fills

theorem push (h : Fills d d') (hn : n.source = none) : Fills d (d'.push n) where
  toKeepsText := h.toKeepsText.trans
    ⟨by simp, fun x m hx hm ↦ ⟨m, by rwa [node?_push, if_neg (Nat.ne_of_lt hx)] at hm, rfl, rfl⟩⟩
  fresh x m hx hm := by
    rcases node?_of_push hm with ⟨-, rfl⟩ | hm
    · exact hn
    · exact h.fresh x m hx hm

theorem enroll (h : Fills d d') (hn : n.source = none) : Fills d (d'.enroll b n) :=
  ⟨(h.push hn).toKeepsText.trans (.congr_nodes rfl), (h.push hn).fresh⟩

theorem carry (h : Fills d d') (hk : KeepsText d' d'') (hnext : d''.nextId = d'.nextId) :
    Fills d d'' where
  toKeepsText := h.toKeepsText.trans hk
  fresh x m hx hm := by
    obtain ⟨m', hm', -, hs⟩ := hk.node x m (hnext ▸ lt_nextId hm) hm
    exact hs.trans (h.fresh x m' hx hm')

theorem supersede (d : Document) (source : DocumentId) : Fills d (d.supersede source).2 := by
  have hrefl : Fills d d := ⟨.refl d, fun x m hx hm ↦ absurd (lt_nextId hm) (Nat.not_lt.mpr hx)⟩
  unfold Document.supersede
  split
  · exact hrefl
  · next o ho =>
    have hforget : Fills d { d with
        overlaySources := d.overlaySources.filter (·.1 != source)
        overlays := d.overlays.filter (· != o) } := hrefl.carry (.congr_nodes rfl) rfl
    exact hforget.carry (.release _ o) (foldl_evict_fields _ _).1

theorem merge (h : Linked d) (other : Document) : Fills d (d.merge other).2 := by
  refine (merge_induction (C := Fills d) (M := Fills d) h other
    ((supersede d other.id).push rfl) (fun d' target n s _ _ hf _ _ ↦ hf.enroll rfl)
    (fun d' _ _ hf ↦ ?_) ?_ ?_).2
  · have hrecord := hf.carry (.alike (.recordEdges _ (d.overlayId other)))
      (Alike.recordEdges _ _).nextId
    exact hrecord.carry (.congr_nodes rfl) rfl
  · rintro d' b t n p - hf - - - - - - -
    exact (hf.carry (.modifyStore d' b (·.add t .applied false)) rfl).carry
      (.modifyNode _ t fun _ ↦ ⟨rfl, rfl⟩) (nextId_modifyNode ..)
  · rintro d' b name kind - hf -
    exact hf.enroll rfl

end Fills

namespace Truthful

theorem carried (h : Truthful d) (hl : Linked d) (hk : KeepsText d d')
    (he : ∀ b s' e', Below d' root b → d'.store? b = some s' → e' ∈ s'.entries →
      d'.isOwnedBy e'.node b → e'.IsWritten → d'.Tells e' ∨ ∃ s e, d.store? b = some s ∧
        e ∈ s.entries ∧ e.IsWritten ∧ e'.node = e.node ∧ e'.existsInSource = e.existsInSource) :
    Truthful d' := by
  intro b s' e' hb hs' he' hown hwr
  rcases he b s' e' hb hs' he' hown hwr with htell | ⟨s, e, hs, hmem, hwr₀, hnode, hflag⟩
  · exact htell
  · intro n' hn'
    have hlt := ((hl.store b s hs).links _ (Store.mem_nodes_of_mem hmem)).1
    obtain ⟨n, hn, hp, hsrc⟩ := hk.node _ n' (hnode ▸ hlt) hn'
    have hb₀ : Below d root b := below_of_older hl.older (hl.lt_of_store? hs)
      (fun y m hy hm ↦ by
        obtain ⟨m₀, hm₀, hpm, -⟩ := hk.node y m hy hm
        exact ⟨m₀, hm₀, hpm⟩) hb
    have hown₀ : d.isOwnedBy e.node b :=
      isOwnedBy_iff.mpr ⟨n, hnode ▸ hn, hp ▸ parent_of_isOwnedBy hown hn'⟩
    rw [hflag, h b s e hb₀ hs hmem hown₀ hwr₀ n (hnode ▸ hn), Node.isBacked_of_source hsrc]

theorem altered (h : Truthful d) (hl : Linked d) (edit : Edit) : Truthful (edit.run d).2 := by
  have ha := alters hl edit
  refine h.carried hl (KeepsText.editKeeps.edit hl edit) fun b s' e' _ hs' he' hown hwr ↦ ?_
  cases ha.entry b s' e' hs' he' with
  | kept hs he => exact .inr ⟨_, _, hs, he, hwr, rfl, rfl⟩
  | withdrawn hs he =>
    exact .inr ⟨_, _, hs, he, hwr.of_withdraw, Entry.withdraw_node _,
      Entry.withdraw_existsInSource _⟩
  | hidden => simp [Entry.IsWritten, Entry.revert] at hwr
  | moved hs he hp =>
    exact .inr ⟨_, _, hs, he, hwr.of_relocated hp, Store.relocated_node _,
      Store.relocated_existsInSource _⟩
  | @parsed x ex hle _ hinserts =>
    -- only a parser numbers nodes without staging them
    refine .inl (Informed.parsed hl ?_ b s' _ hs' he' hle)
    obtain ⟨n, hn, -⟩ := isOwnedBy_iff.mp hown
    have hlt := lt_nextId hn
    by_contra hparses
    rw [nextId_run hinserts (Bool.eq_false_iff.mpr hparses)] at hlt
    exact absurd hlt (Nat.not_lt.mpr hle)
  | staged => simp [Entry.IsWritten, Entry.revert, Entry.fresh] at hwr
  | replacing => exact absurd hwr (Store.not_isWritten_replacement _ _)

theorem reset (h : Truthful d) (hl : Linked d) : Truthful d.reset := by
  refine h.carried hl (.reset hl) fun b s' e' _ hs' he' _ hwr ↦ ?_
  obtain ⟨s, e, hs, he, -, rfl⟩ := mem_reset hl hs' he'
  exact .inr ⟨s, e, hs, he, hwr.of_revert ((hl.store b s hs).restored e he), rfl, rfl⟩

theorem merged (h : Truthful d) (hl : Linked d) (other : Document) :
    Truthful (d.merge other).2 := by
  have hf := Fills.merge hl other
  refine h.carried hl hf.toKeepsText fun b s' e' _ hs' he' _ hwr ↦ ?_
  rcases (Document.merged hl other).entry b s' e' hs' he' with
    ⟨s, hs, he⟩ | ⟨x, hle, ⟨rfl, -⟩ | ⟨rfl, -⟩⟩
  · exact .inr ⟨s, e', hs, he, hwr, rfl, rfl⟩
  · refine .inl fun n hn ↦ ?_
    simp [Node.isBacked, hf.fresh x n hle hn, Entry.fresh]
  · simp [Entry.IsWritten, Entry.revert, Entry.fresh] at hwr

end Truthful

end Document

end BuildScript
