import BuildScript.Proofs.ListsOwned
import BuildScript.Proofs.Lending
import BuildScript.Proofs.Rollback

namespace BuildScript

namespace Entry

/-- In a state, or removed while it was. -/
def Was (e : Entry) (state : EntryState) : Prop :=
  e.state = state ∨ e.state = .toBeRemoved ∧ e.restore = some state

def isStaged (e : Entry) : Bool := e.staged || e.state.isPending

variable {e e' : Entry} {state : EntryState} {C : Prop}

theorem Was.of_withdraw (h : e.withdraw.Was state) (hs : state ≠ .toBeRemoved) : e.Was state := by
  unfold Entry.withdraw at h
  split at h
  · exact h
  · rcases h with h | ⟨-, h⟩
    · exact absurd h.symm hs
    · exact .inl (Option.some.inj h)

theorem Was.of_onlyUnstages (h : e'.Was state) (hc : e.OnlyUnstages C e') (hs : state ≠ .existing) :
    e.Was state := by
  rcases h with h | ⟨h, hr⟩
  · exact .inl ((hc.eq_of_ne (h ▸ hs)).symm.trans h)
  · have hst : e.state = .toBeRemoved := (hc.eq_of_ne (by simp [h])).symm.trans h
    exact .inr ⟨hst, (hc.restore.resolve_right (· h)).symm.trans hr⟩

theorem Was.of_revert (h : e.revert.Was state) (hs : state ≠ .existing) : e.Was state := by
  have hst : e.revert.state = state := h.resolve_right fun hr ↦ by simp [Entry.revert] at hr
  obtain ⟨node, st, existsInSource, staged, restore⟩ := e
  cases st <;> cases restore <;> simp_all [Entry.revert, Was]
  next r => cases r <;> simp_all

theorem isStaged_onlyUnstages (h : e.isStaged = false) (hc : e.OnlyUnstages C e') :
    e'.isStaged = false := by
  simp only [isStaged, Bool.or_eq_false_iff] at h ⊢
  refine ⟨Bool.eq_false_iff.mpr fun hs ↦ by simp [hc.staged hs] at h, ?_⟩
  rcases hc.state with hst | ⟨hst, -⟩
  · exact hst ▸ h.2
  · rw [hst]
    rfl

theorem isStaged_revert (h : e.staged = false) (hn : ¬ e.Was .toBeAdded)
    (hr : e.restore ≠ some .toBeRemoved) : e.revert.isStaged = false := by
  have hadded : e.revert.state ≠ .toBeAdded := fun h ↦ hn (Was.of_revert (.inl h) (by simp))
  have hremoved := Entry.revert_state_ne hr
  have hmoved : e.revert.state ≠ .moved := by
    simp only [Entry.revert]
    grind
  have hstaged : e.revert.staged = false := h
  rw [isStaged, hstaged]
  cases hst : e.revert.state <;> simp_all [EntryState.isPending]

end Entry

theorem Store.isStaged_eq_false {s : Store} :
    s.isStaged = false ↔ ∀ e ∈ s.entries, e.isStaged = false := by
  simp [Store.isStaged, Entry.isStaged]

namespace Document

variable {C : NodeId → NodeId → Prop} {K : NodeId → Prop} {d d' : Document} {b o x : NodeId}
  {n : Node} {s : Store} {e e' : Entry} {edit : Edit}

theorem isModified_iff : d.isModified x = true ↔ ∃ n, d.node? x = some n ∧ n.modified = true := by
  simp [isModified, Option.any_eq_true]

namespace Alters

variable {y : NodeId}

theorem node_parent (ha : Alters d edit d') {n' : Node} (hy : y < d.nextId)
    (hn' : d'.node? y = some n') : ∃ n, d.node? y = some n ∧ n'.parent = n.parent := by
  obtain ⟨n, hn, hp, -⟩ := ha.node y n' hy hn'
  exact ⟨n, hn, hp⟩

theorem isOwnedBy (ha : Alters d edit d') (hy : y < d.nextId) (h : d'.isOwnedBy y b) :
    d.isOwnedBy y b :=
  isOwnedBy_of_parent (fun _ hn' ↦ ha.node_parent hy hn') h

theorem below (ha : Alters d edit d') (ho : d.Older) (hx : x < d.nextId) (h : Below d' o x) :
    Below d o x :=
  below_of_older ho hx (fun _ _ hy hn' ↦ ha.node_parent hy hn') h

theorem isModified (ha : Alters d edit d') (h : d'.isModified y) :
    y < d.nextId ∧ d.isModified y ∨ d'.Marked y := by
  obtain ⟨n', hn', hmod⟩ := isModified_iff.mp h
  by_cases hy : y < d.nextId
  · obtain ⟨n, hn, -, -, -, hback, -⟩ := ha.node y n' hy hn'
    exact (hback hmod).imp_left fun hm ↦ ⟨hy, isModified_iff.mpr ⟨n, hn, hm⟩⟩
  · exact .inr ((ha.fresh y n' (Nat.not_lt.mp hy) hn').2.1 hmod)

end Alters

def OutsideMain (d : Document) (b : NodeId) : Prop := b < d.nextId ∧ ¬ Below d root b

/-- `x` is `a` or lies below it, container by container. -/
inductive Nested (d : Document) (a : NodeId) : NodeId → Prop
  | refl : Nested d a a
  | step {p x : NodeId} {n : Node} {s : Store} : Nested d a p → d.node? x = some n →
      n.parent = some p → d.store? p = some s → Nested d a x

namespace Nested

variable {a : NodeId}

theorem toBelow (h : Nested d a x) : Below d a x := by
  induction h with
  | refl => exact .refl
  | step _ hn hp _ ih => exact .step ih hn hp

theorem lt (h : Nested d a x) (ha : a < d.nextId) : x < d.nextId := by
  cases h with
  | refl => exact ha
  | step _ hn => exact lt_nextId hn

theorem eq_or_child (h : Nested d a x) : x = a ∨ ∃ c n s, d.node? c = some n ∧
    n.parent = some a ∧ d.store? a = some s ∧ Nested d c x := by
  induction h with
  | refl => exact .inl rfl
  | @step p x n s _ hn hp hs ih =>
    rcases ih with rfl | ⟨c, m, s', hc, hpc, hs', hx⟩
    · exact .inr ⟨x, n, s, hn, hp, hs, .refl⟩
    · exact .inr ⟨c, m, s', hc, hpc, hs', .step hx hn hp hs⟩

/-- As every container lists what it owns, older nodes were nested where they are now if entries for
them have been in the same blocks before. -/
theorem older {D : NodeId → Prop} {ov : List NodeId} (hh : ListsOwned D ov (fun _ ↦ False) d')
    (hnode : ∀ x n', x < d.nextId → d'.node? x = some n' → ∃ n, d.node? x = some n ∧
      n'.parent = n.parent)
    (hentry : ∀ b s' e', d'.store? b = some s' → e' ∈ s'.entries → e'.node < d.nextId →
      ∃ s, d.store? b = some s)
    (hx : x < d.nextId) (h : Nested d' a x) : Nested d a x := by
  induction h with
  | refl => exact .refl
  | @step p x n' s' _ hn' hp' hs' ih =>
    obtain ⟨n, hn, hp⟩ := hnode x n' hx hn'
    have hmem := (hh.listed x n' p s' hn' hp' hs').resolve_left not_false
    obtain ⟨e', he', rfl⟩ := List.mem_map.mp hmem
    obtain ⟨s, hs⟩ := hentry p s' e' hs' he' hx
    exact .step (ih (Nat.lt_trans (hh.linked.older _ n' p hn' hp') hx)) hn (hp ▸ hp') hs

end Nested

def isStagedAt (d : Document) (x : NodeId) : Bool :=
  (d.node? x).any (·.pending.isSome) || (d.store? x).any Store.isStaged

theorem isStagedAt_eq_false : d.isStagedAt x = false ↔
    (∀ n, d.node? x = some n → n.pending = none) ∧
      ∀ s e, d.store? x = some s → e ∈ s.entries → e.isStaged = false := by
  rw [isStagedAt, Bool.or_eq_false_iff]
  refine and_congr ?_ ?_
  · cases d.node? x <;> simp
  · cases hs : d.store? x with
    | none => simp
    | some s =>
      rw [Option.any_some, Store.isStaged_eq_false]
      exact ⟨fun h _ e hs ↦ Option.some.inj hs ▸ h e, fun h e ↦ h s e rfl⟩

/-- Nothing is staged in a node itself, and no order is kept to go back to. -/
structure Clear (d : Document) (x : NodeId) : Prop where
  unstaged : d.isStagedAt x = false
  unmoved : d.Unmoved x

theorem Linked.clear_of_dead (h : Linked d) (hn : d.node? x = none) : d.Clear x := by
  have hs := h.store?_of_node?_eq_none hn
  exact ⟨by simp [isStagedAt, hn, hs], fun s hs' ↦ by simp [hs] at hs'⟩

theorem Linked.clear_of_nested (h : Linked d) (ho : d.node? o = none) (hx : Nested d o x) :
    d.Clear x := by
  rcases hx.eq_or_child with rfl | ⟨_, _, _, _, _, hs, _⟩
  · exact h.clear_of_dead ho
  · simp [h.store?_of_node?_eq_none ho] at hs

/-- Nothing is staged in a node itself, and nothing that it owns and shows is marked. -/
structure Settled (d : Document) (x : NodeId) : Prop where
  clear : d.Clear x
  entry : ∀ s e, d.store? x = some s → e ∈ s.entries → d.isOwnedBy e.node x → e.state ≠ .hidden →
    ¬ d.isModified e.node

/-- What is staged shows in the marks: a node of the main tree without a mark is settled, and so is
all that is nested in an overlay without one. Only nodes in `K` have a parent without a store, no
block borrows what it owns, and what is to be added to the main tree is staged. -/
structure Traced (K : NodeId → Prop) (d : Document) : Prop where
  listsOwned : ListsOwned d.OutsideMain d.overlays (fun _ ↦ False) d
  overlaysApart : OverlaysApart d
  lent : Lent d
  kin : ∀ x n p, d.node? x = some n → n.parent = some p → d.store? p = none → K x
  own : ∀ b s e, d.store? b = some s → e ∈ s.entries → e.Was .applied → ¬ d.isOwnedBy e.node b
  new : ∀ b s e, Below d root b → d.store? b = some s → e ∈ s.entries → e.Was .toBeAdded →
    e.staged = true
  settled : ∀ x, Below d root x → ¬ d.isModified x → d.Settled x
  quiet : ∀ o ∈ d.overlays, ¬ d.isModified o → ∀ x, Nested d o x → d.Clear x

/-- Between two runs, also what is to be added to an overlay is staged. -/
structure FullyTraced (d : Document) : Prop extends Traced (fun _ ↦ True) d where
  renewed : ∀ o ∈ d.overlays, ∀ b s e, Nested d o b → d.store? b = some s → e ∈ s.entries →
    e.Was .toBeAdded → e.staged = true

theorem FullyTraced.kin_known (h : FullyTraced d) :
    Traced (fun x ↦ ∀ n p, d.node? x = some n → n.parent = some p → d.store? p = none) d where
  listsOwned := h.listsOwned
  overlaysApart := h.overlaysApart
  lent := h.lent
  kin x n p hn hp hs m q hm hq := by
    rw [hn] at hm
    cases hm
    rw [hp] at hq
    cases hq
    exact hs
  own := h.own
  new := h.new
  settled := h.settled
  quiet := h.quiet

theorem Traced.linked (h : Traced K d) : Linked d := h.listsOwned.linked

theorem isModified_onlyUnstages (hc : OnlyUnstages C d d') (h : d'.isModified x) :
    d.isModified x := by
  obtain ⟨n', hn', hm⟩ := isModified_iff.mp h
  obtain ⟨n, hn, -⟩ := hc.node x n' hn'
  exact isModified_iff.mpr ⟨n, hn, (hc.calm x n n' hn hn').2.2.1 hm⟩

theorem isStagedAt_onlyUnstages (h : d.isStagedAt x = false) (hc : OnlyUnstages C d d') :
    d'.isStagedAt x = false := by
  obtain ⟨hpending, hentry⟩ := isStagedAt_eq_false.mp h
  refine isStagedAt_eq_false.mpr ⟨fun n' hn' ↦ ?_, fun s' e' hs' he' ↦ ?_⟩
  · obtain ⟨n, hn, -⟩ := hc.node x n' hn'
    have hp := (hc.calm x n n' hn hn').2.2.2
    rw [hpending n hn] at hp
    simpa using hp
  · obtain ⟨s, e, hs, he, hunstages⟩ := hc.entry x s' e' hs' he'
    exact Entry.isStaged_onlyUnstages (hentry s e hs he) hunstages

theorem Clear.onlyUnstages (h : d.Clear x) (hc : OnlyUnstages C d d') : d'.Clear x :=
  ⟨isStagedAt_onlyUnstages h.unstaged hc, hc.unmoved x h.unmoved⟩

theorem Settled.onlyUnstages (h : d.Settled x) (hc : OnlyUnstages C d d') : d'.Settled x where
  clear := h.clear.onlyUnstages hc
  entry s' e' hs' he' hown hst hm := by
    obtain ⟨s, e, hs, he, hunstages⟩ := hc.entry x s' e' hs' he'
    refine h.entry s e hs he (hunstages.node ▸ hc.isOwnedBy hown) (fun hhidden ↦ hst ?_)
      (hunstages.node ▸ isModified_onlyUnstages hc hm)
    exact (hunstages.state.resolve_right fun hs ↦ by simp [hhidden] at hs).trans hhidden

theorem Nested.onlyUnstages {D : NodeId → Prop} {ov : List NodeId} (h : Nested d' o x)
    (hc : OnlyUnstages C d d') (hh : ListsOwned D ov (fun _ ↦ False) d') (ho : o < d.nextId) :
    Nested d o x := by
  refine h.older hh (fun y n' _ hn' ↦ hc.node y n' hn') (fun b s' e' hs' he' _ ↦ ?_)
    (hc.nextId ▸ h.lt (hc.nextId.symm ▸ ho))
  obtain ⟨s, -, hs, -⟩ := hc.entry b s' e' hs' he'
  exact ⟨s, hs⟩

namespace Traced

/-- A write may take the mark from a node only when what it stands for is settled. -/
theorem onlyUnstages (h : Traced K d) (hc : OnlyUnstages C d d')
    (hh : ListsOwned d.OutsideMain d.overlays (fun _ ↦ False) d')
    (hkin : ∀ x n p, d'.node? x = some n → n.parent = some p → d'.store? p = none → K x)
    (hnew : ∀ b s' e', Below d' root b → d'.store? b = some s' → e' ∈ s'.entries →
      e'.Was .toBeAdded → ∃ s, d.store? b = some s ∧ e' ∈ s.entries)
    (hcleared : ∀ x, d.isModified x → d'.isLive x → ¬ d'.isModified x →
      (Below d' root x → d'.Settled x) ∧
      (x ∈ d'.overlays → ∀ y, Nested d' x y → d'.Clear y)) : Traced K d' where
  listsOwned := by
    rw [hc.overlays]
    exact hh.mono (fun b hb ↦ ⟨hc.nextId ▸ hb.1, fun hbel ↦ hb.2 (hc.below hbel)⟩) fun _ hx ↦ hx
  overlaysApart :=
    h.overlaysApart.inherits hc.toInherits fun x n n' hn hn' ↦ (hc.calm x n n' hn hn').1
  lent := h.lent.follows h.linked (.inherits hc.toInherits fun x n n' hn hn' ↦
    (hc.calm x n n' hn hn').1)
  kin := hkin
  own b s' e' hs' he' hw hown := by
    obtain ⟨s, e, hs, he, hunstages⟩ := hc.entry b s' e' hs' he'
    exact h.own b s e hs he (hw.of_onlyUnstages hunstages (by simp))
      (hunstages.node ▸ hc.isOwnedBy hown)
  new b s' e' hb hs' he' hw := by
    obtain ⟨s, hs, he⟩ := hnew b s' e' hb hs' he' hw
    exact h.new b s e' (hc.below hb) hs he hw
  settled x hx hm := by
    by_cases hold : d.isModified x
    · have hlive := hx.isLive (isLive_iff.mpr ⟨_, hh.linked.root.choose_spec.1⟩)
      exact (hcleared x hold hlive hm).1 hx
    · exact (h.settled x (hc.below hx) hold).onlyUnstages hc
  quiet o ho hm x hx := by
    have hlt := (h.overlaysApart o (hc.overlays ▸ ho)).2.1
    by_cases hold : d.isModified o
    · by_cases hlive : d'.isLive o
      · exact (hcleared o hold hlive hm).2 ho x hx
      · exact hh.linked.clear_of_nested (by simpa [isLive] using hlive) hx
    · exact (h.quiet o (hc.overlays ▸ ho) hold x (hx.onlyUnstages hc hh hlt)).onlyUnstages hc

theorem own_altered (h : Traced K d) (ha : Alters d edit d') (hs' : d'.store? b = some s)
    (he' : e ∈ s.entries) (hw : e.Was .applied) : ¬ d'.isOwnedBy e.node b := by
  intro hown
  cases ha.entry b s e hs' he' with
  | kept hs he =>
    exact h.own b _ _ hs he hw (ha.isOwnedBy (h.linked.lt_of_mem_entries (entries_eq hs ▸ he)) hown)
  | withdrawn hs he =>
    rw [Entry.withdraw_node] at hown
    exact h.own b _ _ hs he (hw.of_withdraw (by simp))
      (ha.isOwnedBy (h.linked.lt_of_mem_entries (entries_eq hs ▸ he)) hown)
  | hidden => simp [Entry.Was] at hw
  | moved => exact Entry.IsBorrowed.not_isPlaceable hw (Store.relocated_isPlaceable _)
  | parsed => simp [Entry.Was, Entry.fresh] at hw
  | staged => simp [Entry.Was, Entry.fresh] at hw
  | @replacing block old spec n s e _ hn hp hmem hs he hnode hna hnew _ =>
    -- the new node belongs to another block if the entry is borrowed
    have hst : e.state = .applied := by
      cases hst : e.state <;>
        simp_all [Entry.Was, Store.replacement, Store.replacementState, Entry.fresh]
    refine hna ?_ hst
    exact owner_unique hown hnew

end Traced

namespace Merged

variable {a y : NodeId}

theorem node_parent (hm : Merged d d') {n' : Node} (hy : y < d.nextId)
    (hn' : d'.node? y = some n') : ∃ n, d.node? y = some n ∧ n'.parent = n.parent := by
  obtain ⟨n, hn, hp, -⟩ := hm.node y n' hy hn'
  exact ⟨n, hn, hp⟩

theorem below (hm : Merged d d') (h : Linked d) (hx : x < d.nextId) (hb : Below d' a x) :
    Below d a x :=
  below_of_older h.older hx (fun _ _ hy hn' ↦ hm.node_parent hy hn') hb

theorem isOwnedBy (hm : Merged d d') (hy : y < d.nextId) (h : d'.isOwnedBy y b) : d.isOwnedBy y b :=
  isOwnedBy_of_parent (fun _ hn' ↦ hm.node_parent hy hn') h

theorem isModified (hm : Merged d d') (h : d'.isModified y) : y < d.nextId ∧ d.isModified y := by
  obtain ⟨n', hn', hmod⟩ := isModified_iff.mp h
  by_cases hlt : y < d.nextId
  · obtain ⟨n, hn, -, -, hsame, -⟩ := hm.node y n' hlt hn'
    exact ⟨hlt, isModified_iff.mpr ⟨n, hn, hsame ▸ hmod⟩⟩
  · simp [(hm.fresh y n' (Nat.not_lt.mp hlt) hn').1] at hmod

theorem isModified_of_live (hm : Merged d d') (hy : y < d.nextId) (hlive : d'.isLive y)
    (h : d.isModified y) : d'.isModified y := by
  obtain ⟨n', hn'⟩ := isLive_iff.mp hlive
  obtain ⟨n, hn, -, -, hsame, -⟩ := hm.node y n' hy hn'
  obtain ⟨n₀, hn₀, hmod⟩ := isModified_iff.mp h
  rw [hn] at hn₀
  cases hn₀
  exact isModified_iff.mpr ⟨n', hn', hsame ▸ hmod⟩

theorem kept_or_settled (hm : Merged d d') (hs : d'.store? b = some s) (he : e ∈ s.entries) :
    (∃ s, d.store? b = some s ∧ e ∈ s.entries) ∨
      e.isStaged = false ∧ ¬ e.Was .toBeAdded ∧ d.nextId ≤ e.node := by
  refine (hm.entry b s e hs he).imp_right fun ⟨x, hx, hor⟩ ↦ ?_
  rcases hor with ⟨rfl, -⟩ | ⟨rfl, -⟩ <;>
    exact ⟨by simp [Entry.isStaged, Entry.fresh, EntryState.isPending],
      by simp [Entry.Was, Entry.fresh], hx⟩

theorem clear (hm : Merged d d') (h : Linked d) (hx : x < d.nextId → d.Clear x) : d'.Clear x := by
  refine ⟨isStagedAt_eq_false.mpr ⟨fun n' hn' ↦ ?_, fun s' e' hs' he' ↦ ?_⟩,
    hm.unmoved x fun s hs ↦ (hx (h.lt_of_store? hs)).unmoved s hs⟩
  · by_cases hlt : x < d.nextId
    · obtain ⟨n, hn, -, -, -, hpend⟩ := hm.node x n' hlt hn'
      rw [hpend]
      exact (isStagedAt_eq_false.mp (hx hlt).unstaged).1 n hn
    · exact (hm.fresh x n' (Nat.not_lt.mp hlt) hn').2
  · rcases hm.kept_or_settled hs' he' with ⟨s, hs, he⟩ | ⟨hst, -⟩
    · exact (isStagedAt_eq_false.mp (hx (h.lt_of_store? hs)).unstaged).2 s e' hs he
    · exact hst

theorem nested {D : NodeId → Prop} {ov : List NodeId} (hm : Merged d d')
    (hh : ListsOwned D ov (fun _ ↦ False) d') (ho : o ∈ d'.overlays) (hx : x < d.nextId)
    (h : Nested d' o x) : o ∈ d.overlays ∧ Nested d o x := by
  refine ⟨(hm.overlay o ho).resolve_right fun hfresh ↦ ?_, ?_⟩
  · have hle := h.toBelow.le hh.linked.older
    exact absurd hx (Nat.not_lt.mpr (Nat.le_trans hfresh.1 hle))
  · refine h.older hh (fun _ _ hy hn' ↦ hm.node_parent hy hn') (fun b s' e' hs' he' hlt ↦ ?_) hx
    rcases hm.kept_or_settled hs' he' with ⟨s, hs, -⟩ | ⟨-, -, hle⟩
    · exact ⟨s, hs⟩
    · exact absurd hlt (Nat.not_lt.mpr hle)

end Merged

theorem new_altered (ha : Alters d edit d') (hs' : d'.store? b = some s) (he' : e ∈ s.entries)
    (hw : e.Was .toBeAdded)
    (hold : ∀ s e, d.store? b = some s → e ∈ s.entries → e.Was .toBeAdded → e.staged = true) :
    e.staged = true := by
  cases ha.entry b s e hs' he' with
  | kept hs he => exact hold _ _ hs he hw
  | withdrawn hs he =>
    rw [Entry.withdraw_staged]
    exact hold _ _ hs he (hw.of_withdraw (by simp))
  | hidden => simp [Entry.Was] at hw
  | moved hs he =>
    rw [Store.relocated_staged]
    refine hold _ _ hs he (.inl ?_)
    by_contra hne
    simp [Entry.Was, Store.relocated, hne] at hw
  | parsed => simp [Entry.Was, Entry.fresh] at hw
  | staged => simp [Entry.fresh]
  | replacing => rfl

theorem clear_altered (ha : Alters d edit d') (h : Linked d) (hunmarked : ¬ d'.Marked x)
    (hold : x < d.nextId → d.Clear x) : d'.Clear x := by
  refine ⟨isStagedAt_eq_false.mpr ⟨fun n' hn' ↦ ?_, fun s' e' hs' he' ↦ ?_⟩,
    (ha.unmoved x fun s hs ↦ (hold (h.lt_of_store? hs)).unmoved s hs).resolve_right hunmarked⟩
  · by_cases hlt : x < d.nextId
    · obtain ⟨n, hn, -, -, -, -, hpend⟩ := ha.node x n' hlt hn'
      rw [hpend.resolve_right hunmarked]
      exact (isStagedAt_eq_false.mp (hold hlt).unstaged).1 n hn
    · exact (ha.fresh x n' (Nat.not_lt.mp hlt) hn').1
  · have hkept : ∀ s e, d.store? x = some s → e ∈ s.entries → e.isStaged = false := fun s e hs he ↦
      (isStagedAt_eq_false.mp (hold (h.lt_of_store? hs)).unstaged).2 s e hs he
    cases ha.entry x s' e' hs' he' with
    | kept hs he => exact hkept _ _ hs he
    | withdrawn _ _ hmark => exact absurd hmark hunmarked
    | hidden hs he =>
      have hst := hkept _ _ hs he
      simp only [Entry.isStaged, Bool.or_eq_false_iff] at hst ⊢
      exact ⟨hst.1, rfl⟩
    | moved _ _ _ hmark => exact absurd hmark hunmarked
    | parsed => simp [Entry.isStaged, Entry.fresh, EntryState.isPending]
    | staged _ _ _ hmark => exact absurd hmark hunmarked
    | replacing _ _ _ _ _ _ _ _ _ hmark => exact absurd hmark hunmarked

theorem Alters.nested {D : NodeId → Prop} {ov : List NodeId} (ha : Alters d edit d')
    (hh : ListsOwned D ov (fun _ ↦ False) d') (hx : x < d.nextId) (h : Nested d' o x) :
    Nested d o x := by
  refine h.older hh (fun _ _ hy hn' ↦ ha.node_parent hy hn') (fun b s' e' hs' he' hlt ↦ ?_) hx
  cases ha.entry b s' e' hs' he' with
  | kept hs | withdrawn hs | hidden hs | moved hs => exact ⟨_, hs⟩
  | parsed _ hle | staged _ hle => exact absurd hlt (Nat.not_lt.mpr hle)
  | replacing _ _ _ _ hs => exact ⟨_, hs⟩

namespace Traced

theorem settled_altered (h : Traced K d) (ha : Alters d edit d') (hx : Below d' root x)
    (hlive : d'.isLive x) (hm : ¬ d'.isModified x) : d'.Settled x := by
  obtain ⟨n', hn'⟩ := isLive_iff.mp hlive
  have hunmarked : ¬ d'.Marked x := fun hmark ↦
    hm (isModified_iff.mpr ⟨n', hn', hmark x n' .refl hn'⟩)
  have hold : x < d.nextId → d.Settled x := by
    intro hlt
    obtain ⟨n, hn, -, -, hmod, -⟩ := ha.node x n' hlt hn'
    refine h.settled x (ha.below h.linked.older hlt hx) fun hmx ↦ hm ?_
    obtain ⟨n₀, hn₀, hm₀⟩ := isModified_iff.mp hmx
    rw [hn] at hn₀
    cases hn₀
    exact isModified_iff.mpr ⟨n', hn', hmod hm₀⟩
  refine ⟨clear_altered ha h.linked hunmarked fun hlt ↦ (hold hlt).clear,
    fun s' e' hs' he' hown hst hmod ↦ ?_⟩
  -- the mark of a child is older than the change
  obtain ⟨m, hm, hp⟩ := isOwnedBy_iff.mp hown
  obtain ⟨hlt, hmod⟩ := (ha.isModified hmod).resolve_right fun hmark ↦
    hunmarked (hmark.below (.child hm hp))
  have hentry : ∀ s e, d.store? x = some s → e ∈ s.entries → e.node = e'.node →
      (e.state = .hidden → e'.state = .hidden) → False := fun s e hs he hnode hstate ↦
    (hold (h.linked.lt_of_store? hs)).entry s e hs he (hnode ▸ ha.isOwnedBy hlt hown)
      (fun hhidden ↦ hst (hstate hhidden)) (hnode ▸ hmod)
  cases ha.entry x s' e' hs' he' with
  | kept hs he => exact hentry _ _ hs he rfl fun hs ↦ hs
  | withdrawn _ _ hmark => exact hunmarked hmark
  | hidden => exact hst rfl
  | moved _ _ _ hmark => exact hunmarked hmark
  | parsed _ hle => exact absurd hlt (Nat.not_lt.mpr hle)
  | staged _ _ _ hmark => exact hunmarked hmark
  | replacing _ _ _ _ _ _ _ _ _ hmark => exact hunmarked hmark

end Traced

namespace FullyTraced

theorem altered (h : FullyTraced d) (ha : Alters d edit d') (hov : d'.overlays = d.overlays)
    (hh : ListsOwned d.OutsideMain d.overlays (fun _ ↦ False) d') (htops : OverlaysApart d')
    (hlent : Lent d') : FullyTraced d' where
  listsOwned := by
    rw [hov]
    exact hh.mono (fun b hb ↦ ⟨Nat.lt_of_lt_of_le hb.1 ha.next, fun hbel ↦
      hb.2 (ha.below h.linked.older hb.1 hbel)⟩) fun _ hx ↦ hx
  overlaysApart := htops
  lent := hlent
  kin _ _ _ _ _ _ := trivial
  own b s e hs he hw := h.own_altered ha hs he hw
  new b s e hb hs he hw := new_altered ha hs he hw fun s₀ e₀ hs₀ he₀ ↦
    h.new b s₀ e₀ (ha.below h.linked.older (h.linked.lt_of_store? hs₀) hb) hs₀ he₀
  settled x hx hm := by
    obtain ⟨n, hn, -⟩ := hh.linked.root
    exact h.settled_altered ha hx (hx.isLive (isLive_iff.mpr ⟨n, hn⟩)) hm
  quiet o ho hm x hx := by
    rw [hov] at ho
    have hlt := (h.overlaysApart o ho).2.1
    cases hn' : d'.node? o with
    | none => exact hh.linked.clear_of_nested hn' hx
    | some n' =>
      refine clear_altered ha h.linked (fun hmark ↦ hm ?_) fun hxlt ↦
        h.quiet o ho (fun hmo ↦ hm ?_) x (ha.nested hh hxlt hx)
      · exact isModified_iff.mpr ⟨n', hn', hmark o n' hx.toBelow hn'⟩
      · obtain ⟨n, hn, -, -, hmod, -⟩ := ha.node o n' hlt hn'
        obtain ⟨n₀, hn₀, hm₀⟩ := isModified_iff.mp hmo
        rw [hn] at hn₀
        cases hn₀
        exact isModified_iff.mpr ⟨n', hn', hmod hm₀⟩
  renewed o ho b s e hb hs he hw := new_altered ha hs he hw fun s₀ e₀ hs₀ he₀ ↦
    h.renewed o (hov ▸ ho) b s₀ e₀ (ha.nested hh (h.linked.lt_of_store? hs₀) hb) hs₀ he₀

theorem reset (h : FullyTraced d) (htops : OverlaysApart d.reset) (hlent : Lent d.reset) :
    FullyTraced d.reset := by
  have hl := h.linked
  have hov := overlays_reset hl
  have hi : Inherits d d.reset := by
    refine ⟨fun x n' hn' ↦ ?_, hov, nextId_reset hl⟩
    obtain ⟨n, hn, rfl⟩ := node?_reset hl hn'
    exact ⟨n, hn, rfl⟩
  have hh := h.listsOwned.reset
  have hnested : ∀ o ∈ d.reset.overlays, ∀ x, Nested d.reset o x → Nested d o x := by
    intro o ho x hx
    refine hx.older hh (fun y n' _ hn' ↦ hi.node y n' hn') (fun b s' e' hs' he' _ ↦ ?_)
      (hi.nextId ▸ hx.lt (htops o ho).2.1)
    obtain ⟨s, -, hs, -⟩ := mem_reset hl hs' he'
    exact ⟨s, hs⟩
  -- what is not staged is not to be added, so no entry is pending when it is taken back
  have hclear : ∀ x, (∀ s e, d.store? x = some s → e ∈ s.entries → e.Was .toBeAdded →
      e.staged = true) → d.reset.Clear x := by
    intro x hnew
    refine ⟨isStagedAt_eq_false.mpr ⟨fun n' hn' ↦ ?_, fun s' e' hs' he' ↦ ?_⟩,
      fun s' hs' ↦ ((isSettled_reset hl).store x s' hs').baseline⟩
    · obtain ⟨n, -, rfl⟩ := node?_reset hl hn'
      rfl
    · obtain ⟨s, e, hs, he, hst, rfl⟩ := mem_reset hl hs' he'
      refine Entry.isStaged_revert hst (fun hw ↦ ?_) ((hl.store x s hs).restored e he)
      simp [hnew s e hs he hw] at hst
  have hnever : ∀ {b s' e'}, d.reset.store? b = some s' → e' ∈ s'.entries → e'.Was .toBeAdded →
      (∀ s e, d.store? b = some s → e ∈ s.entries → e.Was .toBeAdded → e.staged = true) →
      e'.staged = true := by
    intro b s' e' hs' he' hw hnew
    obtain ⟨s, e, hs, he, hst, rfl⟩ := mem_reset hl hs' he'
    simp [hnew s e hs he (hw.of_revert (by simp))] at hst
  refine ⟨⟨?_, htops, hlent, fun _ _ _ _ _ _ ↦ trivial, fun b s' e' hs' he' hw hown ↦ ?_,
    fun b s' e' hb hs' he' hw ↦ ?_, fun x hx _ ↦ ⟨?_, fun s' e' _ _ _ _ hmod ↦ ?_⟩,
    fun o ho _ x hx ↦ ?_⟩,
    fun o ho b s' e' hb hs' he' hw ↦ ?_⟩
  · rw [hov]
    exact hh.mono (fun b hb ↦ ⟨hi.nextId ▸ hb.1, fun hbel ↦ hb.2 (hi.below hbel)⟩) fun _ hx ↦ hx
  · obtain ⟨s, e, hs, he, -, rfl⟩ := mem_reset hl hs' he'
    exact h.own b s e hs he (hw.of_revert (by simp)) (hi.isOwnedBy hown)
  · exact hnever hs' he' hw fun s e ↦ h.new b s e (hi.below hb)
  · exact hclear x fun s e ↦ h.new x s e (hi.below hx)
  · obtain ⟨n', hn', hm⟩ := isModified_iff.mp hmod
    obtain ⟨n, -, rfl⟩ := node?_reset hl hn'
    simp [Node.settledAt, Node.scanEdges] at hm
  · exact hclear x fun s e ↦ h.renewed o (hov ▸ ho) x s e (hnested o ho x hx)
  · exact hnever hs' he' hw fun s e ↦ h.renewed o (hov ▸ ho) b s e (hnested o ho b hb)

theorem merged (h : FullyTraced d) (hm : Merged d d')
    (hh : ListsOwned d.OutsideMain d'.overlays (fun _ ↦ False) d') (htops : OverlaysApart d')
    (hlent : Lent d') : FullyTraced d' := by
  have hl := h.linked
  obtain ⟨nr, hroot, -⟩ := hh.linked.root
  have hsettled : ∀ x, Below d' root x → ¬ d'.isModified x → x < d.nextId → d.Settled x :=
    fun x hx hmx hlt ↦ h.settled x (hm.below hl hlt hx) fun hold ↦
      hmx (hm.isModified_of_live hlt (hx.isLive (isLive_iff.mpr ⟨nr, hroot⟩)) hold)
  refine ⟨⟨?_, htops, hlent, fun _ _ _ _ _ _ ↦ trivial, fun b s' e' hs' he' hw hown ↦ ?_,
    fun b s' e' hb hs' he' hw ↦ ?_, fun x hx hmx ↦ ⟨?_, fun s' e' hs' he' hown hst hmod ↦ ?_⟩,
    fun o ho hmo x hx ↦ ?_⟩,
    fun o ho b s' e' hb hs' he' hw ↦ ?_⟩
  · exact hh.mono (fun b hb ↦ ⟨Nat.lt_of_lt_of_le hb.1 hm.next, fun hbel ↦
      hb.2 (hm.below hl hb.1 hbel)⟩) fun _ hx ↦ hx
  · rcases hm.entry b s' e' hs' he' with ⟨s, hs, he⟩ | ⟨y, -, ⟨rfl, -⟩ | ⟨rfl, n, hn, hh'⟩⟩
    · exact h.own b s e' hs he hw (hm.isOwnedBy (hl.lt_of_mem_entries (entries_eq hs ▸ he)) hown)
    · simp [Entry.Was, Entry.fresh] at hw
    · exact (hh.linked.node y n hn).foreign b (parent_of_isOwnedBy hown hn) hh'
  · rcases hm.kept_or_settled hs' he' with ⟨s, hs, he⟩ | ⟨-, hne, -⟩
    · exact h.new b s e' (hm.below hl (hl.lt_of_store? hs) hb) hs he hw
    · exact absurd hw hne
  · exact hm.clear hl fun hlt ↦ (hsettled x hx hmx hlt).clear
  · obtain ⟨hlt, hmod⟩ := hm.isModified hmod
    rcases hm.kept_or_settled hs' he' with ⟨s, hs, he⟩ | ⟨-, -, hle⟩
    · exact (hsettled x hx hmx (hl.lt_of_store? hs)).entry s e' hs he (hm.isOwnedBy hlt hown) hst
        hmod
    · exact absurd hlt (Nat.not_lt.mpr hle)
  · by_cases hlive : d'.isLive o
    · refine hm.clear hl fun hlt ↦ ?_
      obtain ⟨ho', hx'⟩ := hm.nested hh ho hlt hx
      exact h.quiet o ho' (fun hmod ↦
        hmo (hm.isModified_of_live (h.overlaysApart o ho').2.1 hlive hmod)) x hx'
    · exact hh.linked.clear_of_nested (by simpa [isLive] using hlive) hx
  · rcases hm.kept_or_settled hs' he' with ⟨s, hs, he⟩ | ⟨-, hne, -⟩
    · obtain ⟨ho', hb'⟩ := hm.nested hh ho (hl.lt_of_store? hs) hb
      exact h.renewed o ho' b s e' hb' hs he hw
    · exact absurd hw hne

end FullyTraced

end Document

end BuildScript
