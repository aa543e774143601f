import BuildScript.Proofs.Replay.Run
import Mathlib.Logic.Relation

namespace BuildScript

namespace Store

variable {order : List NodeId} {l : List Entry} {s : Store} {y z : NodeId}

/-- Two nodes keep their order when a list of nodes is brought to the front, unless the second one
is listed and the first one is not listed in front of it. -/
theorem pair_sublist_arrange (hl : (l.map Entry.node).Nodup)
    (h : [y, z].Sublist (l.map Entry.node)) :
    [y, z].Sublist ((arrange order l).map Entry.node) ↔ order.idxOf y ≤ order.idxOf z := by
  have hy : y ∈ l.map Entry.node := h.subset (by simp)
  have hz : z ∈ l.map Entry.node := h.subset (by simp)
  have hne : y ≠ z := by
    rintro rfl
    exact Order.pair_sublist_asymm hl h h
  induction order generalizing l with
  | nil => simpa [arrange] using h
  | cons node order ih =>
    rw [arrange]
    cases hfind : l.find? (·.node == node) with
    | none =>
      have hskip : ∀ x ∈ l.map Entry.node, node ≠ x := by
        rintro x hx rfl
        obtain ⟨e, he, hnode⟩ := List.mem_map.mp hx
        simpa [hnode] using List.find?_eq_none.mp hfind e he
      rw [List.idxOf_cons_ne _ (hskip y hy), List.idxOf_cons_ne _ (hskip z hz)]
      simpa using ih hl h hy hz
    | some e =>
      obtain rfl : e.node = node := by simpa using List.find?_some hfind
      have hperm := arrange_perm_self (e.node :: order) l
      rw [arrange, hfind] at hperm
      have hnodup := (hperm.map Entry.node).nodup_iff.mpr hl
      have hmem (x : NodeId) (hx : x ∈ l.map Entry.node) (hxe : e.node ≠ x) :
          x ∈ (arrange order (l.eraseP (·.node == e.node))).map Entry.node := by
        have hx' := (hperm.map Entry.node).mem_iff.mpr hx
        simpa [Ne.symm hxe] using hx'
      by_cases hye : e.node = y
      · subst hye
        simpa using hmem z hz hne
      · by_cases hze : e.node = z
        · subst hze
          refine iff_of_false (fun hback ↦ Order.pair_sublist_asymm hnodup hback ?_) ?_
          · simpa using hmem y hy hye
          · rw [List.idxOf_cons_ne _ hye, List.idxOf_cons_self]
            exact Nat.not_succ_le_zero _
        · have hrest : (l.eraseP (·.node == e.node)).map Entry.node =
              (l.map Entry.node).filter (· != e.node) := by
            rw [eraseP_eq_filter hl, List.filter_map]
            rfl
          have hpair : [y, z].Sublist ((l.eraseP (·.node == e.node)).map Entry.node) := by
            rw [hrest]
            exact (Order.pair_sublist_filter (by simpa using Ne.symm hye)
              (by simpa using Ne.symm hze)).mpr h
          have hsplit := ih (hrest ▸ hl.filter _) hpair (hpair.subset (by simp))
            (hpair.subset (by simp))
          rw [List.idxOf_cons_ne _ hye, List.idxOf_cons_ne _ hze, Nat.succ_le_succ_iff]
          refine Iff.trans ⟨fun h ↦ ?_, fun h ↦ h.cons _⟩ hsplit
          cases h with
          | cons _ h => exact h
          | cons_cons _ h => exact absurd rfl hye

/-- The order before the first move that has not been written does not put `z` in front of `y`. -/
def KeepsAhead (s : Store) (y z : NodeId) : Prop :=
  (s.baseline.getD []).idxOf y ≤ (s.baseline.getD []).idxOf z

instance (s : Store) (y z : NodeId) : Decidable (s.KeepsAhead y z) :=
  inferInstanceAs (Decidable (_ ≤ _))

/-- Exactly then what a reset leaves of them stays in its order. -/
theorem pair_sublist_reset {l : List NodeId} (hs : s.nodes.Nodup) (hl : l.Sublist s.reset.nodes)
    (hy : y ∈ l) (hz : z ∈ l) (h : [y, z].Sublist s.nodes) :
    [y, z].Sublist l ↔ s.KeepsAhead y z := by
  have hreset := nodup_reset hs
  have hkept : ∀ x ∈ l, x ∈ s.kept.map Entry.node := fun x hx ↦
    ((arrange_perm_self _ _).map Entry.node).mem_iff.mp (hl.subset hx)
  have hne : y ≠ z := by
    rintro rfl
    exact Order.pair_sublist_asymm hs h h
  have hnodup := hs.sublist s.kept_nodes_sublist
  have hpair : [y, z].Sublist (s.kept.map Entry.node) := by
    rcases Order.pair_sublist_or hnodup (hkept y hy) (hkept z hz) hne with hk | hk
    · exact hk
    · exact absurd (hk.trans s.kept_nodes_sublist) (Order.pair_sublist_asymm hs h)
  have hmain : [y, z].Sublist s.reset.nodes ↔ s.KeepsAhead y z := pair_sublist_arrange hnodup hpair
  rw [← hmain]
  refine ⟨fun h ↦ h.trans hl, fun h ↦ ?_⟩
  rcases Order.pair_sublist_or (hreset.sublist hl) hy hz hne with hk | hk
  · exact hk
  · exact absurd (hk.trans hl) (Order.pair_sublist_asymm hreset h)

end Store

namespace Document

variable {C : NodeId → NodeId → Prop} {K : NodeId → Prop} {d d' d₀ d₁ : Document}
  {b id p x : NodeId} {n : Node} {s : Store} {e : Entry} {σ : Type} {w : Writer σ} {r : Run σ}
  {fuel : Nat}

theorem Clear.staged (h : d.Clear x) (hs : d.store? x = some s) (he : e ∈ s.entries) :
    e.staged = false := by
  have hst := (isStagedAt_eq_false.mp h.unstaged).2 s e hs he
  rw [Entry.isStaged, Bool.or_eq_false_iff] at hst
  exact hst.1

/-- From `a` down to `x` each block places and owns the next. -/
def Placed (d : Document) : NodeId → NodeId → Prop :=
  Relation.ReflTransGen fun p x ↦ x ∈ d.placeable p ∧ d.isOwnedBy x p

namespace Placed

theorem onlyUnstages (h : Placed d' b x) (hc : OnlyUnstages C d d') : Placed d b x :=
  Relation.ReflTransGen.mono
    (fun _ _ hx ↦ ⟨mem_placeable_onlyUnstages hc hx.1, hc.isOwnedBy hx.2⟩) _ _ h

theorem eq_of_store?_eq_none (h : Placed d b x) (hs : d.store? b = none) : x = b := by
  rcases h.cases_head with rfl | ⟨c, ⟨hc, -⟩, -⟩
  · rfl
  · obtain ⟨s, hs', -⟩ := mem_placeable.mp hc
    simp [hs] at hs'

theorem clear (h : Placed d b x) (ht : Traced K d) (hb : Below d root b)
    (hm : ¬ d.isModified b) : d.Clear x := by
  suffices hx : Below d root x ∧ ¬ d.isModified x from (ht.settled x hx.1 hx.2).clear
  induction h with
  | refl => exact ⟨hb, hm⟩
  | @tail p x _ hstep ih =>
    obtain ⟨hp, hmp⟩ := ih
    obtain ⟨n, hn, hpar⟩ := isOwnedBy_iff.mp hstep.2
    obtain ⟨s, hs, e, he, hplace, rfl⟩ := mem_placeable.mp hstep.1
    refine ⟨.step hp hn hpar, (ht.settled p hp hmp).entry s e hs he hstep.2 fun hst ↦ ?_⟩
    simp [Entry.isPlaceable, hst, EntryState.isPlaceable] at hplace

end Placed

/-- A relocation has been refused for something that a block lists. -/
def Stuck (d : Document) (failures : List Failure) (x : NodeId) : Prop :=
  ∃ f ∈ failures, f.step = .relocate ∧ f.node ∈ (d.entries x).map (·.node)

instance (d : Document) (failures : List Failure) (x : NodeId) :
    Decidable (d.Stuck failures x) := inferInstanceAs (Decidable (∃ f ∈ failures, _))

theorem Stuck.onlyUnstages {l l' : List Failure} (h : Stuck d' l x) (hc : OnlyUnstages C d d')
    (hl : l ⊆ l') : Stuck d l' x := by
  obtain ⟨f, hf, hstep, hnode⟩ := h
  refine ⟨f, hl hf, hstep, ?_⟩
  obtain ⟨e', he', heq⟩ := List.mem_map.mp hnode
  cases hs' : d'.store? x with
  | none => simp [entries, hs'] at he'
  | some s' =>
  rw [entries_eq hs'] at he'
  obtain ⟨s, e, hs, he, hunstages⟩ := hc.entry x s' e' hs' he'
  rw [entries_eq hs, ← heq]
  exact List.mem_map.mpr ⟨e, he, hunstages.node.symm⟩

/-- How a run that began with `d` leaves a block: what it places is not staged, and unless it is
stuck no order is kept to go back to. -/
structure UnstagedUnlessStuck (d : Document) (r : Run σ) (x : NodeId) : Prop where
  placed : ∀ s e, r.document.store? x = some s → e ∈ s.entries → e.isPlaceable → e.staged = false
  unmoved : r.document.Unmoved x ∨ d.Stuck r.report.failures x

namespace UnstagedUnlessStuck

theorem of_clear (h : r.document.Clear x) : UnstagedUnlessStuck d r x where
  placed _ _ hs he _ := h.staged hs he
  unmoved := .inl h.unmoved

theorem onlyUnstages {C₀ : NodeId → NodeId → Prop} {r' : Run σ} (h : UnstagedUnlessStuck d r x)
    (hc : OnlyUnstages C r.document r'.document) (hf : r.report.failures ⊆ r'.report.failures)
    (h₀ : OnlyUnstages C₀ d₀ d) : UnstagedUnlessStuck d₀ r' x where
  placed s' e' hs' he' hp := by
    obtain ⟨s, e, hs, he, hunstages⟩ := hc.entry x s' e' hs' he'
    have hst := h.placed s e hs he (isPlaceable_of_onlyUnstages hunstages hp)
    exact Bool.eq_false_iff.mpr fun hs ↦ by simp [hunstages.staged hs] at hst
  unmoved := h.unmoved.imp (hc.unmoved x) fun hs ↦ hs.onlyUnstages h₀ hf

theorem of_store?_eq_none (h : r.document.store? x = none) : UnstagedUnlessStuck d r x where
  placed s e hs := by simp [h] at hs
  unmoved := .inl fun s hs ↦ by simp [h] at hs

/-- The turn of a child: without a mark nothing is staged from here on, and a container is written
in its own run. -/
theorem flush {inner : NodeId → Run σ → Run σ} (h : Traced K r.document)
    (hid : Below (r.flush w inner b id).document root id)
    (hin : ∀ n, r.document.node? id = some n → n.isContainer = true →
      Below (inner id { r with clean := true }).document root id →
      Placed (inner id { r with clean := true }).document id x →
      UnstagedUnlessStuck r.document (inner id { r with clean := true }) x)
    (hx : Placed (r.flush w inner b id).document id x) :
    UnstagedUnlessStuck r.document (r.flush w inner b id) x := by
  have hleaf : ∀ n, r.document.node? id = some n → n.isContainer = false →
      r.document.store? id = none := by
    intro n hn hleaf
    have hs := h.linked.keyed id
    rwa [hn, Option.any_some, hleaf, Option.isSome_eq_false_iff, Option.isNone_iff_eq_none] at hs
  have hstep := Run.flushing w inner b id r
  generalize r.flush w inner b id = r' at hstep hid hx
  cases hstep with
  | idle hidle =>
    refine .of_clear (hx.clear h hid fun hm ↦ ?_)
    obtain ⟨n, hn, hmod⟩ := isModified_iff.mp hm
    simp [hidle n hn] at hmod
  | inside hn _ hcont => exact hin _ hn hcont hid hx
  | settled hn _ hcont =>
    have hmark : OnlyUnstages (fun _ _ ↦ True) _ _ := OnlyUnstages.markWritten
      (inner id { r with clean := true }).document id
    exact (hin _ hn hcont (hmark.below hid) (hx.onlyUnstages hmark)).onlyUnstages hmark
      (fun _ hf ↦ hf)
      (OnlyUnstages.refl (fun _ _ ↦ True) _)
  | refused hn _ hcont | flushed hn _ hcont =>
    have hs := hleaf _ hn hcont
    obtain rfl := hx.eq_of_store?_eq_none hs
    exact .of_store?_eq_none hs

/-- A block whose relocations are done: it is stuck if an entry is still moved. -/
theorem settle (h : Traced K r.document) (hb : Below (r.relocations w b).document root b) :
    UnstagedUnlessStuck r.document { r.relocations w b with
      document := (r.relocations w b).document.modifyStore b Store.settle } b := by
  have h' := h.relocations (w := w) b
  obtain ⟨-, hunstages, -⟩ := Run.Continues.relocations (w := w) h.linked b
  have hrefused := @Run.refused_of_moved _ w b r h.linked
  generalize r.relocations w b = r' at *
  refine ⟨fun s' e' hs' he' hp ↦ ?_, ?_⟩
  · rw [store?_modifyStore, if_pos rfl] at hs'
    obtain ⟨s, -, rfl⟩ := Option.map_eq_some_iff.mp hs'
    rw [Store.settle_entries] at he'
    obtain ⟨e, -, rfl⟩ := List.mem_map.mp he'
    rw [Entry.isPlaceable, Store.settled_state] at hp
    rw [Store.settled, if_neg fun hst ↦ by simp [hst, EntryState.isPlaceable] at hp]
  · by_cases hmov : Lacks b .moved r'.document
    · exact .inl hmov.unmoved_settle
    · simp only [Lacks, not_forall, not_not] at hmov
      obtain ⟨s, e, hs, he, hst⟩ := hmov
      have hlive := h'.listsOwned.live b s hs (fun ha ↦ ha.2 hb) e.node (Store.mem_nodes_of_mem he)
      obtain ⟨-, f, hf, hstep, hnode⟩ := hrefused hs he hlive hst
      have hlisted : f.node ∈ (r'.document.entries b).map (·.node) := by
        rw [entries_eq hs, hnode]
        exact List.mem_map_of_mem he
      exact .inr (Stuck.onlyUnstages ⟨f, hf, hstep, hlisted⟩ hunstages.onlyUnstages fun _ hf ↦ hf)

theorem block (h : Traced K r.document) (hf : Fueled fuel b r.document)
    (hb : Below (r.block w fuel b).document root b)
    (hx : Placed (r.block w fuel b).document b x) :
    UnstagedUnlessStuck r.document (r.block w fuel b) x := by
  induction fuel generalizing b r x with
  | zero =>
    have hs := h.linked.store?_of_node?_eq_none hf.dead
    obtain rfl := hx.eq_of_store?_eq_none hs
    exact .of_store?_eq_none hs
  | succ fuel ih =>
    have h₁ := h.deletions (w := w) b
    obtain ⟨-, c₁, -⟩ := Run.Continues.deletions (w := w) h.linked b
    rw [Run.block_succ, Run.phases] at hb hx ⊢
    generalize r.deletions w b = r₁ at *
    have h₂ := h₁.creations (w := w) b
    obtain ⟨-, c₂, -⟩ := Run.Continues.creations (w := w) h₁.linked b
    generalize r₁.creations w b = r₂ at *
    have c₁₂ := c₁.trans c₂
    obtain ⟨h₃, c₃, hturn⟩ :=
      (writes_block K w fuel).flushes h₂ fun _ ↦ hf.onlyUnstages c₁₂.onlyUnstages
    generalize r₂.flushes w fuel b = r₃ at *
    rcases hx.cases_head with rfl | ⟨c, ⟨hplace, hown⟩, hx⟩
    · exact (settle h₃ (below_modifyStore.mp hb)).onlyUnstages
        (OnlyUnstages.refl (fun _ _ ↦ True) _)
        (fun _ hf ↦ hf) (c₁₂.trans c₃).onlyUnstages
    · obtain ⟨-, c₄, -⟩ := Run.Continues.relocations (w := w) h₃.linked b
      have c₅ := c₄.trans (.settle _ b)
      obtain ⟨r', h', hbefore, hafter⟩ := hturn c
        (mem_placeable_onlyUnstages (c₃.trans c₅).onlyUnstages hplace)
      have hfirst := c₁₂.trans hbefore
      have hlast := hafter.trans c₅
      have hflush : Run.Continues r' (r'.flush w (Run.block w fuel) b c) :=
        .flush b c (.block w fuel c _ h'.linked)
      obtain ⟨n, hn, hp⟩ := isOwnedBy_iff.mp ((hflush.trans hlast).onlyUnstages.isOwnedBy hown)
      obtain ⟨m, hm, hpm⟩ := isOwnedBy_iff.mp hown
      refine (flush h' (hlast.onlyUnstages.below (.step hb hm hpm)) (fun n' hn' hcont hid hx ↦ ?_)
        (Placed.onlyUnstages hx hlast.onlyUnstages)).onlyUnstages hlast.onlyUnstages hlast.failures
          hfirst.onlyUnstages
      rw [hn] at hn'
      cases hn'
      exact ih (r := { r' with clean := true }) h'
        ((hf.onlyUnstages hfirst.onlyUnstages).child h'.linked hn hp hcont) hid hx

theorem writeMain (h : Traced K d) (w : Writer σ) (st : σ)
    (hx : Placed (d.writeMain w st).document root x) :
    UnstagedUnlessStuck d (d.writeMain w st) x := by
  unfold Document.writeMain at hx ⊢
  split at hx
  · next hm =>
    rw [if_pos hm]
    have hf : Fueled d.nodes.size root d := by
      obtain ⟨n, hn, hc, -⟩ := h.linked.root
      refine ⟨fun m hm ↦ ?_, Nat.le_add_right _ _⟩
      rw [hn] at hm
      cases hm
      exact hc
    have hunless :=
      fun x ↦ block (x := x) (r := { document := d, writer := st }) (w := w) h hf .refl
    generalize Run.block w d.nodes.size root { document := d, writer := st } = r at *
    dsimp only at hx ⊢
    split at hx
    · next hclean =>
      rw [if_pos hclean]
      have hmark : OnlyUnstages (fun _ _ ↦ True) _ _ := OnlyUnstages.markWritten r.document root
      exact (hunless x (hx.onlyUnstages hmark)).onlyUnstages hmark (fun _ hf ↦ hf)
        (OnlyUnstages.refl (fun _ _ ↦ True) _)
    · next hclean =>
      rw [if_neg hclean]
      exact hunless x hx
  · next hm =>
    rw [if_neg hm]
    exact .of_clear (hx.clear h .refl hm)

/-- All that is placed in the main tree after an apply. -/
theorem apply (h : Traced K d) (w : Writer σ) (st : σ)
    (hx : Placed (d.apply w st).document root x) : UnstagedUnlessStuck d (d.apply w st) x := by
  rw [apply_eq] at hx ⊢
  have hover := OnlyUnstages.settleOverlays (h.writeMain w st).1.linked
  exact (writeMain h w st (hx.onlyUnstages hover)).onlyUnstages hover (fun _ hf ↦ hf)
    (OnlyUnstages.refl (fun _ _ ↦ True) _)

end UnstagedUnlessStuck

/-- Neither a node nor a block around it is staged. -/
def UnstagedAround (d : Document) (x : NodeId) : Prop :=
  ∀ t b s, Below d t x → d.isOwnedBy t b → d.store? b = some s → t ∉ s.stagedNodes

namespace UnstagedAround

theorem top (hp : ∀ n, d.node? x = some n → n.parent = none) : UnstagedAround d x := by
  intro t b s hb hown
  cases hb with
  | refl =>
    obtain ⟨n, hn, hpn⟩ := isOwnedBy_iff.mp hown
    simp [hp n hn] at hpn
  | step _ hn hpn => simp [hp _ hn] at hpn

theorem root (h : Linked d) : UnstagedAround d Document.root := .top fun n hn ↦ by
  obtain ⟨m, hm, -, hp, -⟩ := h.root
  rw [hn] at hm
  cases hm
  exact hp

theorem child (h : UnstagedAround d p) (hn : d.node? x = some n) (hp : n.parent = some p)
    (hx : ∀ s, d.store? p = some s → x ∉ s.stagedNodes) : UnstagedAround d x := by
  intro t b s hb hown hs
  rcases hb.eq_or_parent hn hp with rfl | hb
  · obtain rfl := owner_unique hown (isOwnedBy_iff.mpr ⟨_, hn, hp⟩)
    exact hx s hs
  · exact h t b s hb hown hs

theorem listed (h : Linked d) (ha : UnstagedAround d b) (hs : d.store? b = some s)
    (he : e ∈ s.entries)
    (hst : e.staged = false) (hown : d.isOwnedBy e.node b) : UnstagedAround d e.node := by
  obtain ⟨n, hn, hp⟩ := isOwnedBy_iff.mp hown
  refine ha.child hn hp fun s' hs' hst' ↦ ?_
  rw [hs] at hs'
  cases hs'
  simp [Store.isStaged_of_mem_stagedNodes (h.store b s hs).nodup he hst'] at hst

theorem of_placed (h : Linked d)
    (hunless : ∀ p s e, Placed d Document.root p → d.store? p = some s → e ∈ s.entries →
      e.isPlaceable →
      e.staged = false) (hx : Placed d Document.root x) : UnstagedAround d x := by
  induction hx with
  | refl => exact .root h
  | @tail p x hp hstep ih =>
    obtain ⟨s, hs, e, he, hplace, rfl⟩ := mem_placeable.mp hstep.1
    exact ih.listed h hs he (hunless p s e hp hs he hplace) hstep.2

theorem of_nested {o : NodeId} (hp : ∀ n, d.node? o = some n → n.parent = none)
    (hclear : ∀ x, Nested d o x → d.Clear x) (hx : Nested d o x) : UnstagedAround d x := by
  induction hx with
  | refl => exact .top hp
  | step hnest hm hpm hs ih =>
    refine ih.child hm hpm fun s hs hst ↦ ?_
    obtain ⟨e, he, hstaged, -⟩ := Store.mem_stagedNodes.mp hst
    simp [(hclear _ hnest).staged hs he] at hstaged

theorem reset_evicts (h : Linked d) :
    ∃ l : List NodeId, d.reset = (l.foldl evict d.resetStores).settleNodes ∧
      ∀ x, UnstagedAround d x → x ∉ l := by
  have hr := h.resetStores
  obtain ⟨l, he, hswept⟩ := releaseAll_swept hr (d.discards d.stores.ids)
  refine ⟨l, by rw [reset_eq, he], fun x hx hxl ↦ ?_⟩
  obtain ⟨b, t, hdis, hown, hbt⟩ := ((hswept x).mp hxl).exists_top
  obtain ⟨s, hs, ht⟩ := mem_discards.mp hdis
  obtain ⟨m, hm, hpm⟩ := isOwnedBy_iff.mp hown
  rw [node?_resetStores] at hm
  refine hx t b s (hbt.mono fun z n hn ↦ ⟨n, ?_, rfl⟩) (isOwnedBy_iff.mpr ⟨m, hm, hpm⟩) hs ht
  rwa [node?_resetStores] at hn

theorem reset (h : Linked d) (ha : UnstagedAround d x) (hs : d.store? x = some s) :
    ∃ s', d.reset.store? x = some s' ∧ s'.nodes.Sublist s.reset.nodes ∧
      ∀ e ∈ s.entries, e.staged = false → d.isOwnedBy e.node x → e.node ∈ s'.nodes := by
  have hh := h.resetStores.distinct
  obtain ⟨l, he, hanchor⟩ := reset_evicts h
  have hs₁ : d.resetStores.store? x = some s.reset := by
    rw [store?_resetStores, hs, Option.map_some]
  obtain ⟨s', hs', hkeep⟩ := mem_store?_foldl_evict hs₁ (hanchor x ha) hh
  obtain ⟨s₂, hs₂, -, hsub⟩ := store?_foldl_evict_sublist hh hs'
  rw [hs₁] at hs₂
  cases hs₂
  refine ⟨s', ?_, hsub.map _, fun e hmem hst hown ↦ ?_⟩
  · rw [he]
    exact hs'
  · have hel : e.node ∉ l := hanchor _ (ha.listed h hs hmem hst hown)
    have hmem' : e.revert.node ∈ s'.nodes :=
      Store.mem_nodes_of_mem (hkeep e.revert (Store.revert_mem_reset hmem hst) hel)
    exact hmem'

end UnstagedAround

/-- What has been written stays where it is: after an apply a reset drops entries, but moves none,
in any block of the main tree that is placed and not stuck and in any block of an overlay. All that
exists there and is the block's own stays. In a block that is stuck two nodes that stay change
places exactly if that is their order from before the moves. -/
theorem order_kept_by_reset (hd : Reachable d) (w : Writer σ) (st : σ)
    (hx : Placed (d.apply w st).document root x ∨
      ∃ o ∈ (d.apply w st).document.overlays, Nested (d.apply w st).document o x)
    (hs : (d.apply w st).document.store? x = some s) :
    ∃ s', (d.apply w st).document.reset.store? x = some s' ∧
      (∀ e ∈ s.entries, e.state = .existing → (d.apply w st).document.isOwnedBy e.node x →
        e.node ∈ s'.nodes) ∧
      (¬ d.Stuck (d.apply w st).report.failures x ∨
        (∃ o ∈ (d.apply w st).document.overlays, Nested (d.apply w st).document o x) →
          s'.nodes.Sublist s.nodes) ∧
      ∀ y ∈ s'.nodes, ∀ z ∈ s'.nodes, [y, z].Sublist s.nodes →
        ([y, z].Sublist s'.nodes ↔ s.KeepsAhead y z) := by
  obtain ⟨ht, -, hover⟩ := hd.fullyTraced.toTraced.apply w st
  have hunless := fun x ↦ UnstagedUnlessStuck.apply (x := x) hd.fullyTraced.toTraced w st
  generalize d.apply w st = r at *
  have hnested : ∀ o ∈ r.document.overlays, Nested r.document o x → r.document.Unmoved x ∧
      UnstagedAround r.document x ∧ ∀ e ∈ s.entries, e.staged = false := fun o ho hx ↦ by
    have hclear := ht.quiet o ho (hover o ho)
    exact ⟨(hclear x hx).unmoved,
      .of_nested (fun n hn ↦ ((ht.overlaysApart o ho).2.2 n hn).1) hclear hx,
      fun e he ↦ (hclear x hx).staged hs he⟩
  have hunstagedAround : UnstagedAround r.document x ∧
      ∀ e ∈ s.entries, e.state = .existing → e.staged = false := by
    rcases hx with hx | ⟨o, ho, hx⟩
    · refine ⟨.of_placed ht.linked (fun p s e hp ↦ (hunless p hp).placed s e) hx, fun e he hst ↦ ?_⟩
      exact (hunless x hx).placed s e hs he
        (by simp [Entry.isPlaceable, hst, EntryState.isPlaceable])
    · exact ⟨(hnested o ho hx).2.1, fun e he _ ↦ (hnested o ho hx).2.2 e he⟩
  obtain ⟨s', hs', hsub, hkeep⟩ := hunstagedAround.1.reset ht.linked hs
  refine ⟨s', hs', fun e he hst ↦ hkeep e he (hunstagedAround.2 e he hst), fun hfree ↦ ?_,
    fun y hy z hz ↦ Store.pair_sublist_reset (ht.linked.store x s hs).nodup hsub hy hz⟩
  have hunmoved : r.document.Unmoved x := by
    rcases hfree, hx with ⟨hfree | ⟨o, ho, hfree⟩, hx | ⟨o', ho', hx⟩⟩
    · exact (hunless x hx).unmoved.resolve_right hfree
    · exact (hnested o' ho' hx).1
    · exact (hnested o ho hfree).1
    · exact (hnested o ho hfree).1
  rw [Store.reset_eq, hunmoved s hs] at hsub
  exact hsub.trans s.kept_nodes_sublist

def movedDocument (moves : List (NodeId × Int)) : Document :=
  ((Edit.setValue 2 (.integer 2)).run (listDocument.moveAll root moves)).2

theorem reachable_movedDocument (moves : List (NodeId × Int)) : Reachable (movedDocument moves) :=
  .edit _ (.moveAll (.edit _ (.edit _ (.edit _ (.edit _ (.new _ _) trivial) trivial) trivial)
    trivial) root moves) trivial

/-- The first literal has been written at the end, where it stays when a value is refused. When the
move of another one is refused it goes back, but `3` and `4` stay in their order. -/
theorem order_kept_by_reset_movedDocument :
    (∃ s,
      ((movedDocument [(1, 3)]).apply (.refusing [(.flush, "b")]) 0).document.reset.store? root =
      some s ∧ s.nodes.Sublist [2, 3, 4, 1] ∧ ∀ x ∈ [1, 2, 3, 4], x ∈ s.nodes) ∧
    ∃ s, ((movedDocument [(1, 3), (2, 3)]).apply
        (.refusing [(.relocate, "b")]) 0).document.reset.store? root = some s ∧
      [3, 4].Sublist s.nodes ∧ ¬ [4, 1].Sublist s.nodes := by
  refine ⟨?_, ?_⟩
  · obtain ⟨s, hs, hkeep, hsub, -⟩ := order_kept_by_reset (reachable_movedDocument [(1, 3)])
      (.refusing [(.flush, "b")]) 0 (x := root) (.inl .refl)
      (s := ⟨((movedDocument [(1, 3)]).apply (.refusing [(.flush, "b")]) 0).document.entries root,
        none⟩) (by decide +kernel)
    have hall : ∀ x ∈ [1, 2, 3, 4],
        ∃ e ∈ ((movedDocument [(1, 3)]).apply (.refusing [(.flush, "b")]) 0).document.entries root,
          e.state = .existing ∧ ((movedDocument [(1, 3)]).apply
            (.refusing [(.flush, "b")]) 0).document.isOwnedBy e.node root ∧ e.node = x := by
      decide +kernel
    have horder : Store.nodes ⟨((movedDocument [(1, 3)]).apply
        (.refusing [(.flush, "b")]) 0).document.entries root, none⟩ = [2, 3, 4, 1] := by
      decide +kernel
    rw [horder] at hsub
    refine ⟨s, hs, hsub (.inl (by decide)), fun x hx ↦ ?_⟩
    obtain ⟨e, he, hst, hown, rfl⟩ := hall x hx
    exact hkeep e he hst hown
  · obtain ⟨s, hs, hkeep, -, hlaw⟩ := order_kept_by_reset (reachable_movedDocument [(1, 3), (2, 3)])
      (.refusing [(.relocate, "b")]) 0 (x := root) (.inl .refl)
      (s := ⟨((movedDocument [(1, 3), (2, 3)]).apply
        (.refusing [(.relocate, "b")]) 0).document.entries root, some [1, 2, 3, 4]⟩)
      (by decide +kernel)
    have hall : ∀ x ∈ [1, 3, 4], ∃ e ∈ ((movedDocument [(1, 3), (2, 3)]).apply
          (.refusing [(.relocate, "b")]) 0).document.entries root, e.state = .existing ∧
        ((movedDocument [(1, 3), (2, 3)]).apply
          (.refusing [(.relocate, "b")]) 0).document.isOwnedBy e.node root ∧ e.node = x := by
      decide +kernel
    dsimp only at hkeep
    have hmem : ∀ x ∈ [1, 3, 4], x ∈ s.nodes := fun x hx ↦ by
      obtain ⟨e, he, hst, hown, rfl⟩ := hall x hx
      exact hkeep e he hst hown
    exact ⟨s, hs,
      (hlaw 3 (hmem 3 (by decide)) 4 (hmem 4 (by decide)) (by decide +kernel)).mpr
        (by decide +kernel),
      (hlaw 4 (hmem 4 (by decide)) 1 (hmem 1 (by decide)) (by decide +kernel)).not.mpr
        (by decide +kernel)⟩

/-- Two literals are moved to the end. When the second move is refused a reset takes back the first
one as well, though it has been written. -/
theorem order_lost_by_reset_movedDocument :
    let r := (movedDocument [(1, 3), (2, 3)]).apply (.refusing [(.relocate, "b")]) 0
    Reachable (movedDocument [(1, 3), (2, 3)]) ∧ r.report.relocated = [1] ∧
      (r.document.entries root).map (fun e ↦ (e.node, e.state)) =
        [(3, .existing), (4, .existing), (1, .existing), (2, .moved)] ∧
      (r.document.reset.entries root).map (fun e ↦ (e.node, e.state)) =
        [(1, .existing), (2, .existing), (3, .existing), (4, .existing)] :=
  ⟨reachable_movedDocument _, by decide +kernel, by decide +kernel, by decide +kernel⟩

end Document

end BuildScript
