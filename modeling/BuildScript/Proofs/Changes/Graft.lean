import BuildScript.Proofs.Changes.Alters

namespace BuildScript

namespace Document

variable {d d₀ d₁ d' d'' : Document} {edit : Edit} {a b block x y : NodeId} {l : List NodeId}
  {n n' : Node} {s : Store} {e : Entry} {state : EntryState}

/-- From `base` on, all nodes lie below `block` and have just been numbered, with `state` for the
state of their entries. -/
structure Numbered (base block : NodeId) (state : EntryState) (d : Document) : Prop where
  node : ∀ x n, base ≤ x → d.node? x = some n → n.modified = decide (state = .toBeAdded) ∧
    n.pending = none ∧ n.holders = [] ∧ ∀ p, n.parent = some p → base ≤ p ∨ p = block
  entry : ∀ b s e, base ≤ b → d.store? b = some s → e ∈ s.entries →
    ∃ x existsInSource, e = .fresh x state existsInSource ∧ base ≤ x ∧ d.isOwnedBy x b
  unmoved : ∀ b, base ≤ b → d.Unmoved b

namespace Numbered

theorem below (h : Numbered base block state d) (hx : base ≤ x) (hb : Below d a x) :
    base ≤ a ∨ Below d a block := by
  induction hb with
  | refl => exact .inl hx
  | @step p x n hb hn hp ih =>
    rcases (h.node x n hx hn).2.2.2 p hp with hp' | rfl
    · exact ih hp'
    · exact .inr hb

theorem push (h : Numbered base block state d) (hl : Linked d) (spec : Spec) {parent : NodeId}
    (hp : base ≤ parent ∨ parent = block) :
    Numbered base block state (d.push (headNode parent state spec)) where
  node x m hx hm := by
    rcases node?_of_push hm with ⟨-, rfl⟩ | hm
    · refine ⟨rfl, rfl, rfl, fun p hpar ↦ ?_⟩
      obtain rfl : parent = p := by simpa [headNode] using hpar
      exact hp
    · exact h.node x m hx hm
  entry b s e hb hs he := by
    obtain ⟨x, ex, rfl, hx, hown⟩ := h.entry b s e hb (store?_of_mem_push hl.sizes hs he) he
    refine ⟨x, ex, rfl, hx, ?_⟩
    obtain ⟨n, hn, hpar⟩ := isOwnedBy_iff.mp hown
    refine isOwnedBy_iff.mpr ⟨n, ?_, hpar⟩
    rw [node?_push, if_neg (Nat.ne_of_lt (lt_nextId hn)), hn]
  unmoved b hb s hs := by
    rcases store?_of_push hl.sizes hs with ⟨-, rfl⟩ | hs
    · rfl
    · exact h.unmoved b hb s hs

theorem list (h : Numbered base block state d) (hx : base ≤ x) {parent : NodeId}
    (hown : d.isOwnedBy x parent) (existsInSource : Bool) :
    Numbered base block state (d.modifyStore parent (·.add x state existsInSource)) where
  node := h.node
  entry b s e hb hs he := by
    rcases mem_store?_add hs he with ⟨s₀, hs₀, he₀⟩ | ⟨rfl, rfl⟩
    · exact h.entry b s₀ e hb hs₀ he₀
    · exact ⟨x, existsInSource, rfl, hx, hown⟩
  unmoved b hb := (h.unmoved b hb).modifyStore fun _ _ hs ↦ hs

theorem numbering (hl : Linked d) (hlt : parent < d.nextId) :
    (∀ spec, Numbered base block state d → base ≤ d.nextId → (base ≤ parent ∨ parent = block) →
      Numbered base block state (d.alloc parent state spec)) ∧
    ∀ specs, Numbered base block state d → base ≤ d.nextId → (base ≤ parent ∨ parent = block) →
      Numbered base block state (d.allocAll parent state specs) := by
  have hall := Linked.alloc_induction state
    (M := fun d parent _ d' ↦ Numbered base block state d → base ≤ d.nextId →
      (base ≤ parent ∨ parent = block) → Numbered base block state d')
    (N := fun d parent _ d' ↦ Numbered base block state d → base ≤ d.nextId →
      (base ≤ parent ∨ parent = block) → Numbered base block state d')
    (fun d parent spec d' hd _ _ _ ih h hn hp ↦ ?_) (fun _ _ _ h _ _ ↦ h)
    (fun d parent spec rest d' d'' _ _ ha _ ih ih' h hn hp ↦ ?_) hl hlt
  · exact ⟨fun spec ↦ (hall.1 spec).2, hall.2⟩
  · refine ih (h.push hd spec hp) ?_ (.inl hn)
    rw [nextId_push]
    exact Nat.le_succ_of_le hn
  · have hown : d'.isOwnedBy d.nextId parent := isOwnedBy_iff.mpr ⟨_, ha.top, rfl⟩
    exact ih' ((ih h hn hp).list hn hown _) (Nat.le_trans hn ha.old.next) hp

theorem alloc (h : Numbered base block state d) (hl : Linked d) (hlt : parent < d.nextId)
    (hn : base ≤ d.nextId) (hp : base ≤ parent ∨ parent = block) (spec : Spec) :
    Numbered base block state (d.alloc parent state spec) :=
  (numbering hl hlt).1 spec h hn hp

theorem start (hl : Linked d) (block : NodeId) (state : EntryState) :
    Numbered d.nextId block state d where
  node _ _ hx hn := absurd (lt_nextId hn) (Nat.not_lt.mpr hx)
  entry _ _ _ hb hs _ := absurd (hl.lt_of_store? hs) (Nat.not_lt.mpr hb)
  unmoved _ hb _ hs := absurd (hl.lt_of_store? hs) (Nat.not_lt.mpr hb)

theorem modifyStore (h : Numbered base block state d) (hb : b < base) (f : Store → Store) :
    Numbered base block state (d.modifyStore b f) where
  node := h.node
  entry c s e hc hs he := by
    have hne : b ≠ c := Nat.ne_of_lt (Nat.lt_of_lt_of_le hb hc)
    rw [store?_modifyStore, if_neg hne] at hs
    exact h.entry c s e hc hs he
  unmoved c hc := by
    have hne : b ≠ c := Nat.ne_of_lt (Nat.lt_of_lt_of_le hb hc)
    exact (h.unmoved c hc).congr (by rw [store?_modifyStore, if_neg hne])

end Numbered

theorem unmoved_alloc (h : Linked d) (hlt : block < d.nextId) (state : EntryState) (spec : Spec)
    (hb : d.Unmoved b) : (d.alloc block state spec).Unmoved b := by
  obtain ⟨-, hext, -⟩ := h.alloc hlt state spec
  by_cases hbn : d.nextId ≤ b
  · exact ((Numbered.start h block state).alloc h hlt (Nat.le_refl _) (.inr rfl) spec).unmoved b hbn
  · exact hb.congr (hext.store b (Nat.not_le.mp hbn) (Nat.ne_of_lt (Nat.not_le.mp hbn)))

structure Grafted (block : NodeId) (state : EntryState) (d d' : Document) : Prop
    extends Extends block d d' where
  numbered : Numbered d.nextId block state d'
  entry : ∀ b s' e', d'.store? b = some s' → e' ∈ s'.entries →
    (∃ s, d.store? b = some s ∧ e' ∈ s.entries) ∨
      (d.nextId ≤ b ∨ b = block) ∧ ∃ x existsInSource, e' = .fresh x state existsInSource ∧
        d.nextId ≤ x ∧ d'.isOwnedBy x b
  unmoved : ∀ b, d.Unmoved b → d'.Unmoved b

theorem grafted (h : Linked d) (hs : d.store? block = some s) (spec : Spec)
    {list : NodeId → Store → Store} {existsInSource : Bool}
    (hlist : ∀ e ∈ (list d.nextId s).entries,
      e ∈ s.entries ∨ e = .fresh d.nextId state existsInSource)
    (hkept : ∀ s : Store, (list d.nextId s).baseline = s.baseline) :
    Grafted block state d ((d.alloc block state spec).modifyStore block (list d.nextId)) := by
  have hlt := h.lt_of_store? hs
  obtain ⟨-, hext, hnode⟩ := h.alloc hlt state spec
  have hnum := (Numbered.start h block state).alloc h hlt (Nat.le_refl _) (.inr rfl) spec
  refine ⟨(hext.of_fresh block).trans (.modifyStore _ block _), hnum.modifyStore hlt _,
    fun b s' e' hb he ↦ ?_, fun b hb ↦
      (unmoved_alloc h hlt state spec hb).modifyStore fun s _ hs ↦ (hkept s).trans hs⟩
  by_cases hbn : d.nextId ≤ b
  · have hne : block ≠ b := Nat.ne_of_lt (Nat.lt_of_lt_of_le hlt hbn)
    rw [store?_modifyStore, if_neg hne] at hb
    exact .inr ⟨.inl hbn, hnum.entry b s' e' hbn hb he⟩
  · have hold := hext.store b (Nat.not_le.mp hbn) (Nat.ne_of_lt (Nat.not_le.mp hbn))
    rw [store?_modifyStore, hold] at hb
    split at hb
    · next hbb =>
      subst hbb
      rw [hs] at hb
      cases hb
      rcases hlist e' he with he | rfl
      · exact .inl ⟨s, hs, he⟩
      · exact .inr ⟨.inr rfl, d.nextId, existsInSource, rfl, Nat.le_refl _,
          isOwnedBy_iff.mpr ⟨_, hnode, rfl⟩⟩
    · exact .inl ⟨s', hb, he⟩

namespace Grafted

theorem marked (h : Grafted block .toBeAdded d d₁) (hf : Flags l d₁ d') (hb : d'.Marked block)
    (hx : d.nextId ≤ x) : d'.Marked x := by
  intro a n' ha hn'
  obtain ⟨n, hn, -⟩ := hf.node? hn'
  rcases h.numbered.below hx (hf.below.mp ha) with ha | ha
  · refine (hf.modified a n n' hn hn').mpr (.inl ?_)
    simpa using (h.numbered.node a n ha hn).1
  · exact hb a n' (hf.below.mpr ha) hn'

theorem alters (h : Grafted block state d₀ d₁) (hn : d₀.nodes = d.nodes) (hf : Flags l d₁ d')
    (hstate : (state = .existing ∧ edit.inserts = false ∧ l = []) ∨
      (state = .toBeAdded ∧ d'.Marked block))
    (hkept : ∀ b s e, d₀.store? b = some s → e ∈ s.entries → Entered d edit d' b e)
    (hu : ∀ b, d.Unmoved b → d₀.Unmoved b) : Alters d edit d' := by
  have hnode : ∀ y, d₀.node? y = d.node? y := fun y ↦ by simp only [node?, hn]
  have hnext : d₀.nextId = d.nextId := by rw [nextId, nextId, hn]
  have hmark : ∀ x, state = .toBeAdded → d.nextId ≤ x → d'.Marked x := by
    intro x he hx
    subst he
    rcases hstate with ⟨he, -⟩ | ⟨-, hm⟩
    · cases he
    · exact h.marked hf hm (hnext ▸ hx)
  refine ⟨?_, fun x hx ↦ ?_, fun x n' hx hn' ↦ ?_, fun x n' hx hn' ↦ ?_, fun b s' e' hb he ↦ ?_,
    fun b hb ↦ .inl ((h.unmoved b (hu b hb)).congr (hf.store? b))⟩
  · rw [hf.nextId, ← hnext]
    exact h.next
  · obtain ⟨n, hn₀⟩ := isLive_iff.mp hx
    rw [← hnode] at hn₀
    rw [hf.isLive]
    exact isLive_iff.mpr ⟨n, (h.node x (lt_nextId hn₀)).trans hn₀⟩
  · obtain ⟨n, hn₁, hp, hh, hpending, hup, hdown⟩ := hf.node hn'
    rw [h.node x (hnext ▸ hx)] at hn₁
    exact ⟨n, hnode x ▸ hn₁, hp, hh, hup, hdown, .inl hpending⟩
  · obtain ⟨n, hn₁, he⟩ := hf.node? hn'
    obtain ⟨hmod, hpend, hhold, -⟩ := h.numbered.node x n (hnext ▸ hx) hn₁
    obtain ⟨hp, hh, hpending⟩ := Node.fields_of_bare he
    refine ⟨hpending.trans hpend, fun hm ↦ ?_, fun hne ↦ absurd (hh.trans hhold) hne⟩
    rcases hstate with ⟨rfl, -, rfl⟩ | ⟨rfl, -⟩
    · rw [hf.modified x n n' hn₁ hn', hmod] at hm
      simp at hm
    · exact hmark x rfl hx
  · rw [hf.store?] at hb
    rcases h.entry b s' e' hb he with ⟨s, hs, he⟩ | ⟨hside, x, ex, rfl, hx, hown⟩
    · exact hkept b s e' hs he
    · have hown' : d'.isOwnedBy x b := by
        obtain ⟨n, hn₁, hp⟩ := isOwnedBy_iff.mp hown
        obtain ⟨n', hn', he⟩ := hf.toAlike.symm.node? hn₁
        exact isOwnedBy_iff.mpr ⟨n', hn', (Node.fields_of_bare he).1.symm.trans hp⟩
      rw [hnext] at hside hx
      rcases hstate with ⟨rfl, hins, -⟩ | ⟨rfl, hm⟩
      · exact .parsed ex hx hown' hins
      · refine .staged ex hx hown' ?_
        rcases hside with hb | rfl
        · exact hmark b rfl hb
        · exact hm

end Grafted

theorem alters_parse (h : Linked d₀) (hn : d₀.nodes = d.nodes) (hs : d₀.store? block = some s)
    (spec : Spec) {list : NodeId → Store → Store} {existsInSource : Bool}
    (hins : edit.inserts = false)
    (hlist : ∀ e ∈ (list d₀.nextId s).entries,
      e ∈ s.entries ∨ e = .fresh d₀.nextId .existing existsInSource)
    (hlisted : ∀ s : Store, (list d₀.nextId s).baseline = s.baseline)
    (hkept : ∀ b s e, d₀.store? b = some s → e ∈ s.entries →
      Entered d edit (d₀.graft block .existing spec list) b e)
    (hu : ∀ b, d.Unmoved b → d₀.Unmoved b) : Alters d edit (d₀.graft block .existing spec list) :=
  (grafted h hs spec hlist hlisted).alters hn
    (.recordEdges _ _) (.inl ⟨rfl, hins, rfl⟩) hkept hu

theorem alters_stage (edit : Edit) (h : Linked d) (hs : d.store? block = some s) (spec : Spec)
    {list : NodeId → Store → Store} (hl : Linked (d.graft block .toBeAdded spec list))
    (hlist : ∀ e ∈ (list d.nextId s).entries,
      e ∈ s.entries ∨ e = .fresh d.nextId .toBeAdded false)
    (hlisted : ∀ s : Store, (list d.nextId s).baseline = s.baseline) :
    Alters d edit (d.stage block spec list) ∧ Linked (d.stage block spec list) ∧
      (d.stage block spec list).Marked block := by
  have hg := grafted h hs spec hlist hlisted
  have hf : Flags [block] ((d.alloc block .toBeAdded spec).modifyStore block (list d.nextId))
      (d.stage block spec list) := (Flags.recordEdges _ _).trans (.markModified hl.older block)
  have hlive :
      ((d.alloc block .toBeAdded spec).modifyStore block (list d.nextId)).isLive block := by
    obtain ⟨n, hn, -⟩ := h.isContainer_of_store? hs
    exact isLive_iff.mpr ⟨n, (hg.node block (lt_nextId hn)).trans hn⟩
  have hm := hf.marked List.mem_cons_self hlive
  exact ⟨hg.alters rfl hf (.inr ⟨rfl, hm⟩) (fun b s e hs he ↦ .kept hs he) fun _ hb ↦ hb,
    hl.alike (.markModified _ block), hm⟩

end Document

end BuildScript
