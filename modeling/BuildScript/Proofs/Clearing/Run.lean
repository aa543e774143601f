import BuildScript.Proofs.Clearing.Steps

namespace BuildScript

namespace Document

variable {K : NodeId → Prop} {d : Document} {b id o : NodeId} {n : Node} {σ : Type} {w : Writer σ}
  {r : Run σ} {fuel : Nat}

namespace Traced

theorem deletions (h : Traced K r.document) (b : NodeId) : Traced K (r.deletions w b).document :=
  (Run.Continues.foldl (I := Traced K) (P := fun _ _ ↦ True)
    (fun _ id hr _ ↦ ⟨hr.delete b id, .delete hr.linked b id, fun _ _ hP ↦ hP⟩)
    (h.linked.inState_nodup b .toBeRemoved) h fun _ _ ↦ trivial).1

theorem creations (h : Traced K r.document) (b : NodeId) : Traced K (r.creations w b).document := by
  refine (Run.Continues.foldl (I := Traced K)
    (P := fun d id ↦ OwnedByOrOutside d b id ∧ EndsIn b .toBeAdded d id) (fun r id hr hid ↦ ?_)
    (h.linked.inState_nodup b .toBeAdded) h fun id hid ↦ ⟨?_, h.linked.endsIn hid⟩).1
  · obtain ⟨hunstages, hspare⟩ := Run.Continues.create (w := w) hr.linked hid.2
    exact ⟨hr.create hid.1 hid.2, hunstages, fun i hi hP ↦
      ⟨hP.1.inherits hunstages.onlyUnstages.toInherits, hP.2.spared hspare hi⟩⟩
  · obtain ⟨s, hs, e, he, -, rfl⟩ := mem_inState.mp hid
    exact h.near hs (Store.mem_nodes_of_mem he)

theorem relocations (h : Traced K r.document) (b : NodeId) :
    Traced K (r.relocations w b).document := by
  refine (Run.Continues.foldl (I := Traced K) (P := fun d id ↦ EndsIn b .moved d id)
    (fun r id hr hid ↦ ?_) (h.linked.inState_nodup b .moved) h
    fun id hid ↦ h.linked.endsIn hid).1
  obtain ⟨hunstages, hspare⟩ := Run.Continues.relocate (w := w) hid
  exact ⟨hr.relocate hid, hunstages, fun i hi hP ↦ hP.spared hspare hi⟩

end Traced

/-- What a block needs in order to be written or settled as a whole: it is a container, and the fuel
suffices for all that may lie below it. -/
structure Fueled (fuel : Nat) (b : NodeId) (d : Document) : Prop where
  isContainer : ∀ n, d.node? b = some n → n.isContainer = true
  enough : d.nextId ≤ fuel + b

namespace Fueled

theorem onlyUnstages {C : NodeId → NodeId → Prop} {d' : Document} (h : Fueled fuel b d)
    (hc : OnlyUnstages C d d') : Fueled fuel b d' where
  isContainer n' hn' := by
    obtain ⟨n, hn, -⟩ := hc.node b n' hn'
    exact (hc.calm b n n' hn hn').2.1.trans (h.isContainer n hn)
  enough := hc.nextId ▸ h.enough

theorem child (h : Fueled (fuel + 1) b d) (hl : Linked d) (hn : d.node? id = some n)
    (hp : n.parent = some b) (hc : n.isContainer = true) : Fueled fuel id d where
  isContainer m hm := by
    rw [hn] at hm
    cases hm
    exact hc
  enough := by
    have hlt := hl.older id n b hn hp
    have henough := h.enough
    lia

theorem dead (h : Fueled 0 b d) : d.node? b = none := node?_of_le (by simpa using h.enough)

theorem pending (h : Fueled fuel b d) (hl : Linked d) (hn : d.node? b = some n) :
    n.pending = none :=
  hl.pending_of_isContainer hn (h.isContainer n hn)

end Fueled

/-- The trace of what is staged is kept when a block is written, and a block of the main tree that
is written without a refusal is settled. -/
def Writes (K : NodeId → Prop) (w : Writer σ) (fuel : Nat) : Prop :=
  ∀ b (r : Run σ), Traced K r.document →
    (Below r.document root b → Fueled fuel b r.document) →
    Traced K (r.block w fuel b).document ∧
      ((r.block w fuel b).clean = true → Below (r.block w fuel b).document root b →
        (r.block w fuel b).document.Settled b)

namespace Writes

theorem flushes (hin : Writes K w fuel) (h : Traced K r.document)
    (hf : Below r.document root b → Fueled (fuel + 1) b r.document) :
    Traced K (r.flushes w fuel b).document ∧ Run.Continues r (r.flushes w fuel b) ∧
      ∀ id ∈ r.document.placeable b, ∃ r₁ : Run σ, Traced K r₁.document ∧ Run.Continues r r₁ ∧
        Run.Continues (r₁.flush w (Run.block w fuel) b id) (r.flushes w fuel b) := by
  obtain ⟨hlast, hunstages, hturn⟩ := Run.Continues.foldl (r := r)
    (I := fun d ↦ Traced K d ∧ (Below d root b → Fueled (fuel + 1) b d))
    (P := fun d id ↦ OwnedByOrOutside d b id) (f := Run.flush w (Run.block w fuel) b)
    (fun r id hr hid ↦ by
      have hinner := Run.Continues.block w fuel id { r with clean := true } hr.1.linked
      have hstep : Run.Continues r (r.flush w (Run.block w fuel) b id) := .flush b id hinner
      have hinherits := hstep.onlyUnstages.toInherits
      refine ⟨⟨hr.1.flush hid fun n hn hc ↦ ?_, fun hb ↦
        (hr.2 (hinherits.below hb)).onlyUnstages hstep.onlyUnstages⟩, hstep,
          fun i _ hP ↦ hP.inherits hinherits⟩
      obtain ⟨ht, hsettled⟩ := hin id { r with clean := true } hr.1 fun hid' ↦ by
        obtain ⟨hp, hb⟩ := hid.parent_of_below hr.1.linked hn hid'
        exact (hr.2 hb).child hr.1.linked hn hp hc
      exact ⟨ht, hinner.onlyUnstages.toInherits, hsettled⟩)
    (h.linked.placeable_nodup b) ⟨h, hf⟩ fun id hid ↦ by
      obtain ⟨s, hs, e, he, -, rfl⟩ := mem_placeable.mp hid
      exact h.near hs (Store.mem_nodes_of_mem he)
  refine ⟨hlast.1, hunstages, fun id hid ↦ ?_⟩
  obtain ⟨r₁, h₁, -, hbefore, hrest⟩ := hturn id hid
  exact ⟨r₁, h₁.1, hbefore, hrest⟩

end Writes

theorem isPlaceable_of_onlyUnstages {c : Prop} {e e' : Entry} (h : e.OnlyUnstages c e')
    (he' : e'.isPlaceable) : e.isPlaceable := by
  rcases h.state with hs | ⟨-, hs | ⟨hs, -⟩⟩
  · rwa [Entry.isPlaceable, ← hs]
  · simp [Entry.isPlaceable, hs, EntryState.isPlaceable]
  · simp [Entry.isPlaceable, hs, EntryState.isPlaceable]

theorem mem_placeable_onlyUnstages {C : NodeId → NodeId → Prop} {d' : Document}
    (hc : OnlyUnstages C d d') (h : id ∈ d'.placeable b) : id ∈ d.placeable b := by
  obtain ⟨s', hs', e', he', hp, rfl⟩ := mem_placeable.mp h
  obtain ⟨s, e, hs, he, hunstages⟩ := hc.entry b s' e' hs' he'
  exact mem_placeable.mpr ⟨s, hs, e, he, isPlaceable_of_onlyUnstages hunstages hp,
    hunstages.node.symm⟩

/-- Once all phases of a block of the main tree have gone well, its entries are neither to be
removed, nor to be added, nor moved, and what is existing is not marked. -/
theorem Writes.phases (hin : Writes K w fuel) (h : Traced K r.document)
    (hf : Below r.document root b → Fueled (fuel + 1) b r.document) :
    Traced K (r.phases w fuel b).document ∧
      (Below (r.phases w fuel b).document root b →
        Lacks b .toBeAdded (r.phases w fuel b).document) ∧
      ((r.phases w fuel b).clean = true → Below (r.phases w fuel b).document root b →
        Lacks b .toBeRemoved (r.phases w fuel b).document ∧
        Lacks b .moved (r.phases w fuel b).document ∧
        ∀ s e, (r.phases w fuel b).document.store? b = some s → e ∈ s.entries →
          e.state = .existing → ¬ (r.phases w fuel b).document.isModified e.node) := by
  have hlive : ∀ {d : Document}, Traced K d → Below d root b → ∀ s, d.store? b = some s →
      ∀ x ∈ s.nodes, d.isLive x := fun ht hb s hs ↦ ht.listsOwned.live b s hs fun ha ↦ ha.2 hb
  have h₁ := h.deletions (w := w) b
  have hrem := Run.lacks_deletions (w := w) (b := b) h.linked
  obtain ⟨-, c₁, -⟩ := Run.Continues.deletions (w := w) h.linked b
  unfold Run.phases
  generalize r.deletions w b = r₁ at h₁ hrem c₁
  have h₂ := h₁.creations (w := w) b
  have hadd := fun hb ↦ Run.lacks_creations (w := w) h₁.linked (hlive h₂ hb)
  obtain ⟨-, c₂, -⟩ := Run.Continues.creations (w := w) h₁.linked b
  generalize r₁.creations w b = r₂ at h₂ hadd c₂
  have c₁₂ := c₁.trans c₂
  obtain ⟨h₃, c₃, hturn⟩ := hin.flushes h₂ fun hb ↦
    (hf (c₁₂.onlyUnstages.below hb)).onlyUnstages c₁₂.onlyUnstages
  generalize r₂.flushes w fuel b = r₃ at h₃ c₃ hturn
  have h₄ := h₃.relocations (w := w) b
  have hmov := fun hb ↦ Run.lacks_relocations (w := w) h₃.linked (hlive h₄ hb)
  obtain ⟨-, c₄, -⟩ := Run.Continues.relocations (w := w) h₃.linked b
  generalize r₃.relocations w b = r₄ at h₄ hmov c₄
  have c₃₄ := c₃.trans c₄
  refine ⟨h₄, fun hb ↦ (hadd (c₃₄.onlyUnstages.below hb)).onlyUnstages c₃₄.onlyUnstages (by simp),
    fun hclean hb ↦ ?_⟩
  have hclean₃ := c₄.clean hclean
  have hclean₁ := c₂.clean (c₃.clean hclean₃)
  refine ⟨(hrem hclean₁).onlyUnstages (c₂.trans c₃₄).onlyUnstages (by simp), hmov hb hclean,
    fun s e hs he hst hm ↦ ?_⟩
  have hplace : e.isPlaceable := by simp [Entry.isPlaceable, hst, EntryState.isPlaceable]
  obtain ⟨_, -, -, hrest⟩ := hturn e.node
    (mem_placeable_onlyUnstages c₃₄.onlyUnstages (mem_placeable.mpr ⟨s, hs, e, he, hplace, rfl⟩))
  exact Run.not_isModified_flush b (hrest.clean hclean₃)
    (isModified_onlyUnstages (hrest.trans c₄).onlyUnstages hm)

theorem Lacks.unmoved_settle (h : Lacks b .moved d) : (d.modifyStore b Store.settle).Unmoved b := by
  intro s' hs'
  rw [store?_modifyStore, if_pos rfl] at hs'
  obtain ⟨s, hs, rfl⟩ := Option.map_eq_some_iff.mp hs'
  exact Store.settle_baseline (.inr fun e he ↦ h s e hs he)

theorem writes_block (K : NodeId → Prop) (w : Writer σ) (fuel : Nat) : Writes K w fuel := by
  induction fuel with
  | zero =>
    refine fun b r h hf ↦ ⟨h, fun _ hb ↦ ?_⟩
    have hdead := (hf hb).dead
    refine ⟨h.linked.clear_of_dead hdead, fun s e hs ↦ ?_⟩
    rw [Run.block, h.linked.store?_of_node?_eq_none hdead] at hs
    cases hs
  | succ fuel ih =>
    intro b r h hf
    obtain ⟨hphases, hadd, hdone⟩ := ih.phases h hf
    have hunstages := Run.Continues.block w (fuel + 1) b r h.linked
    rw [Run.block_succ] at hunstages ⊢
    generalize r.phases w fuel b = r' at hphases hadd hdone hunstages
    have hsettled := hphases.settle hadd
    refine ⟨hsettled, fun hclean hb ↦ ?_⟩
    have hready := (hf (hunstages.onlyUnstages.below hb)).onlyUnstages hunstages.onlyUnstages
    have hb' : Below r'.document root b := below_modifyStore.mp hb
    obtain ⟨hrem, hmov, hexisting⟩ := hdone hclean hb'
    -- what is left in the store has been neither added, nor removed, nor moved
    have hleft : ∀ s' e', (r'.document.modifyStore b Store.settle).store? b = some s' →
        e' ∈ s'.entries → ∃ s e, r'.document.store? b = some s ∧ e ∈ s.entries ∧
          e' = { e with staged := false, restore := none } ∧ e.state ≠ .toBeAdded ∧
          e.state ≠ .toBeRemoved ∧ e.state ≠ .moved := by
      intro s' e' hs' he'
      rw [store?_modifyStore, if_pos rfl] at hs'
      obtain ⟨s, hs, rfl⟩ := Option.map_eq_some_iff.mp hs'
      rw [Store.settle_entries] at he'
      obtain ⟨e, he, rfl⟩ := List.mem_map.mp he'
      exact ⟨s, e, hs, he, if_neg (hrem s e hs he), hadd hb' s e hs he, hrem s e hs he,
        hmov s e hs he⟩
    refine ⟨⟨isStagedAt_eq_false.mpr ⟨fun n hn ↦ hready.pending hsettled.linked hn,
      fun s' e' hs' he' ↦ ?_⟩, hmov.unmoved_settle⟩, fun s' e' hs' he' hown hvisible hm ↦ ?_⟩
    · obtain ⟨s, e, -, -, rfl, ha, hr, hv⟩ := hleft s' e' hs' he'
      cases hst : e.state <;> simp_all [Entry.isStaged, EntryState.isPending]
    · have happlied := fun hw ↦ hsettled.own b s' e' hs' he' hw hown
      obtain ⟨s, e, hs, he, rfl, ha, hr, hv⟩ := hleft s' e' hs' he'
      refine hexisting s e hs he ?_ hm
      cases hst : e.state <;> simp_all [Entry.Was]

namespace Traced

theorem dropRemovals (h : Traced K d) (b : NodeId) : Traced K (d.dropRemovals b) := by
  refine List.foldlRecOn (motive := Traced K) _ (dropRemoval b) h fun d h id _ ↦ ?_
  unfold dropRemoval
  split
  · next hown =>
    obtain ⟨n, hn, hp⟩ := isOwnedBy_iff.mp hown
    exact h.drop hn (.of_parent hn hp)
  · next hown => exact h.purge fun n hn hp ↦ hown (isOwnedBy_iff.mpr ⟨n, hn, hp⟩)

end Traced

/-- Making the changes in a block outside the main tree final takes its mark, and nothing nested in
it is staged any more. -/
def Quiets (K : NodeId → Prop) (fuel : Nat) : Prop :=
  ∀ b (d : Document), Traced K d → ¬ Below d root b → Fueled fuel b d →
    Traced K (settleWithin fuel d b) ∧ ¬ (settleWithin fuel d b).isModified b ∧
      ∀ x, Nested (settleWithin fuel d b) b x → (settleWithin fuel d b).Clear x

namespace Quiets

theorem settleChild (hin : Quiets K fuel) (h : Traced K d) (hb : ¬ Below d root b)
    (hf : Fueled (fuel + 1) b d) (id : NodeId) :
    Traced K (settleChild fuel b d id) ∧ OnlyUnstages (fun _ _ ↦ True) d (settleChild fuel b d id) ∧
      (d.isOwnedBy id b → ∀ x, Nested (settleChild fuel b d id) id x →
        (settleChild fuel b d id).Clear x) := by
  unfold Document.settleChild
  split
  · next hown => exact ⟨h, .refl _ d, fun ho ↦ by simp [ho] at hown⟩
  · next hown =>
    obtain ⟨n, hn, hp⟩ := isOwnedBy_iff.mp (by simpa using hown)
    have hkeyed := h.linked.keyed id
    rw [hn, Option.any_some] at hkeyed
    split
    · next hs =>
      have hid : ¬ Below d root id := fun hid ↦
        hb ((OwnedByOrOutside.of_parent hn hp).parent_of_below h.linked hn hid).2
      obtain ⟨ht, -, hunstaged⟩ := hin id d h hid
        (hf.child h.linked hn hp (hkeyed.symm.trans hs))
      have hc : OnlyUnstages (fun _ _ ↦ True) d (Document.settleWithin fuel d id) :=
        (OnlyUnstages.settleWithin fuel d id h.linked).mono fun _ _ _ ↦ trivial
      exact ⟨ht, hc, fun _ ↦ hunstaged⟩
    · next hs =>
      have hleaf : n.isContainer = false := hkeyed.symm.trans (Bool.eq_false_iff.mpr hs)
      have ho := (OwnedByOrOutside.of_parent hn hp).not_mem_overlays h.overlaysApart hn
      refine ⟨h.commit hn hleaf ho, .commit d id, fun _ x hx ↦ ?_⟩
      have hl := h.linked.commit id
      obtain ⟨-, -, hcn, hpending⟩ := n.commit_fields
      have hnode : (d.modifyNode id (·.commit.markWritten)).node? id =
          some n.commit.markWritten := by
        rw [node?_modifyNode, if_pos rfl, hn]
        rfl
      rcases hx.eq_or_child with rfl | ⟨_, _, s, _, _, hs', _⟩
      · exact clear_of_leaf hl hnode hpending (hcn.trans hleaf)
      · exact absurd (by rw [← store?_modifyNode, hs']; rfl) hs

theorem settleChildren (hin : Quiets K fuel) (h : Traced K d) (hb : ¬ Below d root b)
    (hf : Fueled (fuel + 1) b d) (l : List NodeId) :
    Traced K (l.foldl (Document.settleChild fuel b) d) ∧
      OnlyUnstages (fun _ _ ↦ True) d (l.foldl (Document.settleChild fuel b) d) ∧
      ∀ i ∈ l, (l.foldl (Document.settleChild fuel b) d).isOwnedBy i b →
        ∀ x, Nested (l.foldl (Document.settleChild fuel b) d) i x →
          (l.foldl (Document.settleChild fuel b) d).Clear x := by
  induction l generalizing d with
  | nil => exact ⟨h, .refl _ d, by simp⟩
  | cons id l ih =>
    obtain ⟨h', hc, hturn⟩ := hin.settleChild h hb hf id
    obtain ⟨hlast, hrest, hall⟩ := ih h' (fun hb' ↦ hb (hc.below hb')) (hf.onlyUnstages hc)
    refine ⟨hlast, hc.trans hrest, fun i hi hown x hx ↦ ?_⟩
    rcases List.mem_cons.mp hi with rfl | hi
    · have hown' := hrest.isOwnedBy hown
      obtain ⟨n, hn, -⟩ := isOwnedBy_iff.mp hown'
      exact (hturn (hc.isOwnedBy hown') x
        (hx.onlyUnstages hrest hlast.listsOwned (lt_nextId hn))).onlyUnstages hrest
    · exact hall i hi hown x hx

end Quiets

theorem unmoved_settleAll (d : Document) (b : NodeId) :
    (d.modifyStore b Store.settleAll).Unmoved b := by
  intro s' hs'
  rw [store?_modifyStore, if_pos rfl] at hs'
  obtain ⟨s, -, rfl⟩ := Option.map_eq_some_iff.mp hs'
  exact s.settleAll_baseline

/-- Once all of a block has been settled, what it goes on to list was listed then, and none of it is
staged. -/
theorem entries_of_settleAll {C : NodeId → NodeId → Prop} {d' : Document}
    (hrem : Lacks b .toBeRemoved d) (hc : OnlyUnstages C (d.modifyStore b Store.settleAll) d')
    (s' : Store) (e' : Entry) (hs' : d'.store? b = some s') (he' : e' ∈ s'.entries) :
    e'.isStaged = false ∧ e'.node ∈ (d.entries b).map (·.node) := by
  obtain ⟨s₁, e₁, hs₁, he₁, hunstages⟩ := hc.entry b s' e' hs' he'
  rw [store?_modifyStore, if_pos rfl] at hs₁
  obtain ⟨s, hs, rfl⟩ := Option.map_eq_some_iff.mp hs₁
  rw [Store.settleAll_entries] at he₁
  obtain ⟨e, he, rfl⟩ := List.mem_map.mp he₁
  have hne := hrem s e hs he
  refine ⟨Entry.isStaged_onlyUnstages ?_ hunstages, ?_⟩
  · simp only [Entry.isStaged, Store.settledAll]
    cases hst : e.state <;> simp_all [EntryState.isPending]
  · rw [entries_eq hs]
    exact List.mem_map.mpr ⟨e, he, hunstages.node.symm⟩

theorem Traced.clear_nested {x : NodeId} (h : Traced K d) (hf : Fueled fuel b d)
    (hmoved : d.Unmoved b)
    (hentries : ∀ s e, d.store? b = some s → e ∈ s.entries → e.isStaged = false ∧
      (d.isOwnedBy e.node b → ∀ x, Nested d e.node x → d.Clear x))
    (hx : Nested d b x) : d.Clear x := by
  rcases hx.eq_or_child with rfl | ⟨c, m, s, hm, hp, hs, hx⟩
  · exact ⟨isStagedAt_eq_false.mpr ⟨fun n hn ↦ hf.pending h.linked hn,
      fun s e hs he ↦ (hentries s e hs he).1⟩, hmoved⟩
  · have hmem := (h.listsOwned.listed c m b s hm hp hs).resolve_left not_false
    obtain ⟨e, he, rfl⟩ := List.mem_map.mp hmem
    exact (hentries s e hs he).2 (isOwnedBy_iff.mpr ⟨m, hm, hp⟩) x hx

theorem quiets_settleWithin (K : NodeId → Prop) (fuel : Nat) : Quiets K fuel := by
  induction fuel with
  | zero =>
    intro b d h _ hf
    exact ⟨h, by simp [settleWithin, isModified, hf.dead], fun x hx ↦
      h.linked.clear_of_nested hf.dead hx⟩
  | succ fuel ih =>
    intro b d h hb hf
    obtain ⟨-, hc, hrem⟩ := dropRemovals_spec (fun _ _ ↦ True) h.linked b
    have hdrop := h.dropRemovals b
    rw [settleWithin_succ]
    generalize d.dropRemovals b = d₁ at hdrop hc hrem
    have c₁ := hc.trans (.settleAll (fun _ ↦ trivial) hrem)
    obtain ⟨h₂, hc₂, hturn⟩ := ih.settleChildren (hdrop.settleAll hrem)
      (fun hb' ↦ hb (c₁.below hb')) (hf.onlyUnstages c₁) ((d₁.entries b).map (·.node))
    have hleft := entries_of_settleAll hrem hc₂
    have hmoved := hc₂.unmoved b (unmoved_settleAll d₁ b)
    generalize ((d₁.entries b).map (·.node)).foldl (Document.settleChild fuel b)
      (d₁.modifyStore b Store.settleAll) = d₂ at h₂ hc₂ hturn hleft hmoved
    have hb₂ : ¬ Below d₂ root b := fun hb' ↦ hb ((c₁.trans hc₂).below hb')
    have hclear : ∀ x, Nested d₂ b x → d₂.Clear x := fun x ↦
      h₂.clear_nested (hf.onlyUnstages (c₁.trans hc₂)) hmoved fun s e hs he ↦
        ⟨(hleft s e hs he).1, hturn e.node (hleft s e hs he).2⟩
    have hlast : Traced K (d₂.modifyNode b Node.markWritten) :=
      h₂.markWritten (fun hb' ↦ absurd hb' hb₂) fun _ ↦ hclear
    have hc₃ : OnlyUnstages (fun _ _ ↦ True) d₂ (d₂.modifyNode b Node.markWritten) :=
      .markWritten d₂ b
    refine ⟨hlast, not_isModified_modifyNode d₂ b fun _ ↦ rfl, fun x hx ↦ ?_⟩
    cases hn : d₂.node? b with
    | none =>
      refine hlast.linked.clear_of_nested ?_ hx
      rw [node?_modifyNode, if_pos rfl, hn]
      rfl
    | some n =>
      exact (hclear x (hx.onlyUnstages hc₃ hlast.listsOwned (lt_nextId hn))).onlyUnstages hc₃

namespace Traced

theorem settleOverlay (h : Traced K d) (ho : o ∈ d.overlays) :
    Traced K (d.settleOverlay o) ∧ ¬ (d.settleOverlay o).isModified o := by
  have hb : ¬ Below d root o := fun hb ↦ h.overlaysApart.not_below h.linked ho hb .refl
  have hf : Fueled d.nodes.size o d := by
    refine ⟨fun n hn ↦ ?_, Nat.le_add_right _ _⟩
    have hstore := (h.listsOwned.roof o ho).2 (isLive_iff.mpr ⟨n, hn⟩)
    rwa [h.linked.keyed, hn, Option.any_some] at hstore
  obtain ⟨ht, hm, -⟩ := quiets_settleWithin K d.nodes.size o d h hb hf
  exact ⟨ht, hm⟩

theorem settleMarked (h : Traced K d) (ho : o ∈ d.overlays) :
    Traced K (if d.isModified o then d.settleOverlay o else d) ∧
      OnlyUnstages (fun _ _ ↦ True) d (if d.isModified o then d.settleOverlay o else d) ∧
      ¬ (if d.isModified o then d.settleOverlay o else d).isModified o := by
  split
  · obtain ⟨ht, hm⟩ := h.settleOverlay ho
    have hc := OnlyUnstages.settleWithin d.nodes.size d o h.linked
    exact ⟨ht, hc.mono fun _ _ _ ↦ trivial, hm⟩
  · next hm => exact ⟨h, .refl _ d, hm⟩

theorem foldl_settleMarked (h : Traced K d) {l : List NodeId} (hl : ∀ o ∈ l, o ∈ d.overlays) :
    let d' := l.foldl (fun d o ↦ if d.isModified o then d.settleOverlay o else d) d
    Traced K d' ∧ OnlyUnstages (fun _ _ ↦ True) d d' ∧ ∀ o ∈ l, ¬ d'.isModified o := by
  induction l generalizing d with
  | nil => exact ⟨h, .refl _ d, by simp⟩
  | cons o l ih =>
    obtain ⟨h₁, hc, hm⟩ := h.settleMarked (hl o List.mem_cons_self)
    rw [List.foldl_cons]
    obtain ⟨hlast, hrest, hall⟩ := ih h₁ fun o ho ↦ hc.overlays ▸ hl o (List.mem_cons_of_mem _ ho)
    refine ⟨hlast, hc.trans hrest, fun i hi ↦ ?_⟩
    rcases List.mem_cons.mp hi with rfl | hi
    · exact fun hmod ↦ hm (isModified_onlyUnstages hrest hmod)
    · exact hall i hi

theorem settleOverlays (h : Traced K d) :
    Traced K d.settleOverlays ∧
      ∀ o ∈ d.settleOverlays.overlays, ¬ d.settleOverlays.isModified o := by
  obtain ⟨ht, hc, hall⟩ := h.foldl_settleMarked fun _ ho ↦ ho
  exact ⟨ht, fun o ho ↦ hall o (hc.overlays ▸ ho)⟩

theorem writeMain (h : Traced K d) (w : Writer σ) (st : σ) :
    Traced K (d.writeMain w st).document ∧
      ((d.writeMain w st).clean = true → ¬ (d.writeMain w st).document.isModified root) := by
  have hfueled : Fueled d.nodes.size root d := by
    refine ⟨fun n hn ↦ ?_, Nat.le_add_right _ _⟩
    obtain ⟨m, hm, hc, -⟩ := h.linked.root
    rw [hn] at hm
    cases hm
    exact hc
  obtain ⟨ht, hsettled⟩ := writes_block K w d.nodes.size root { document := d, writer := st } h
    fun _ ↦ hfueled
  unfold Document.writeMain
  split
  · dsimp only
    split
    · next hclean =>
      refine ⟨ht.markWritten (hsettled hclean) fun ho ↦ ?_, fun _ ↦
        not_isModified_modifyNode _ _ fun _ ↦ rfl⟩
      exact absurd rfl (ht.overlaysApart root ho).1
    · next hclean => exact ⟨ht, fun hc ↦ absurd hc hclean⟩
  · next hm => exact ⟨h, fun _ ↦ hm⟩

theorem apply (h : Traced K d) (w : Writer σ) (st : σ) :
    Traced K (d.apply w st).document ∧
      ((d.apply w st).clean = true → ¬ (d.apply w st).document.isModified root) ∧
      ∀ o ∈ (d.apply w st).document.overlays, ¬ (d.apply w st).document.isModified o := by
  rw [apply_eq]
  obtain ⟨hmain, hroot⟩ := h.writeMain w st
  obtain ⟨hlast, hover⟩ := hmain.settleOverlays
  exact ⟨hlast,
    fun hclean hm ↦ hroot hclean (isModified_onlyUnstages (.settleOverlays hmain.linked) hm),
    hover⟩

end Traced

theorem FullyTraced.apply (h : FullyTraced d) (w : Writer σ) (st : σ) :
    FullyTraced (d.apply w st).document := by
  obtain ⟨ht, -, hover⟩ := h.toTraced.apply w st
  refine ⟨ht, fun o ho b s e hb hs he hw ↦ ?_⟩
  have hst := (isStagedAt_eq_false.mp (ht.quiet o ho (hover o ho) b hb).unstaged).2 s e hs he
  rcases hw with hw | ⟨hw, -⟩ <;> simp [Entry.isStaged, hw, EntryState.isPending] at hst

end Document

namespace Run

open Document

variable {σ : Type} {w : Writer σ} {r : Run σ}

theorem clean_delete (hw : ∀ t call, w.refusal? t call = none) (b id : NodeId)
    (hr : r.clean = true) : (r.delete w b id).clean = true := by
  have hstep := deletion w b id r
  generalize r.delete w b id = r' at hstep
  cases hstep with
  | refused _ _ _ hm => simp [hw] at hm
  | _ => exact hr

theorem clean_create (b id : NodeId) (hr : r.clean = true) : (r.create w b id).clean = true := by
  have hstep := creation w b id r
  generalize r.create w b id = r' at hstep
  cases hstep <;> exact hr

theorem clean_flush (hw : ∀ t call, w.refusal? t call = none) {inner : NodeId → Run σ → Run σ}
    (hin : ∀ id (r : Run σ), r.clean = true → (inner id r).clean = true) (b id : NodeId)
    (hr : r.clean = true) : (r.flush w inner b id).clean = true := by
  have hstep := flushing w inner b id r
  generalize r.flush w inner b id = r' at hstep
  cases hstep with
  | inside => exact hin id { r with clean := true } rfl
  | refused _ _ _ hm => simp [hw] at hm
  | _ => exact hr

theorem clean_relocate (hw : ∀ t call, w.refusal? t call = none) (b id : NodeId)
    (hr : r.clean = true) : (r.relocate w b id).clean = true := by
  have hstep := relocating w b id r
  generalize r.relocate w b id = r' at hstep
  cases hstep with
  | refused _ hm => simp [hw] at hm
  | _ => exact hr

theorem clean_foldl {f : Run σ → NodeId → Run σ}
    (hf : ∀ (r : Run σ) id, r.clean = true → (f r id).clean = true) (l : List NodeId)
    (hr : r.clean = true) : (l.foldl f r).clean = true :=
  List.foldlRecOn (motive := fun r ↦ r.clean = true) l f hr fun r hr id _ ↦ hf r id hr

theorem clean_block (hw : ∀ t call, w.refusal? t call = none) (fuel : Nat) (b : NodeId)
    (hr : r.clean = true) : (r.block w fuel b).clean = true := by
  induction fuel generalizing b r with
  | zero => exact hr
  | succ fuel ih =>
    have h₁ : (r.deletions w b).clean = true :=
      clean_foldl (fun _ id hr ↦ clean_delete hw b id hr) _ hr
    have h₂ : ((r.deletions w b).creations w b).clean = true :=
      clean_foldl (fun _ id hr ↦ clean_create b id hr) _ h₁
    have h₃ : (((r.deletions w b).creations w b).flushes w fuel b).clean = true :=
      clean_foldl (fun _ id hr ↦ clean_flush hw (fun i _ hr ↦ ih i hr) b id hr) _ h₂
    have h₄ : (r.phases w fuel b).clean = true :=
      clean_foldl (fun _ id hr ↦ clean_relocate hw b id hr) _ h₃
    simp only [block_succ, h₄]

end Run

namespace Document

theorem clean_apply {σ : Type} {w : Writer σ} (hw : ∀ t call, w.refusal? t call = none)
    (d : Document) (st : σ) : (d.apply w st).clean = true := by
  rw [apply_eq, writeMain]
  split
  · exact Run.clean_block hw _ _ rfl
  · rfl

end Document

end BuildScript
