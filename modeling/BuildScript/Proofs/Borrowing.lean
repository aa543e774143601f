import BuildScript.Proofs.Changes.Merge
import BuildScript.Proofs.Changes.Run
import BuildScript.Proofs.Ownership

namespace BuildScript

def Entry.IsBorrowed (e : Entry) : Prop :=
  e.state = .applied ∨ e.state = .toBeRemoved ∧ e.restore = some .applied

namespace Entry.IsBorrowed

variable {e e' : Entry}

theorem withdraw (h : e.IsBorrowed) : e.withdraw.IsBorrowed := by
  unfold Entry.withdraw
  split
  · exact h
  · next hr => exact .inr ⟨rfl, congrArg some (h.resolve_right fun ⟨hs, _⟩ ↦ hr hs)⟩

theorem not_isPlaceable (h : e.IsBorrowed) : ¬ e.isPlaceable := by
  rcases h with hs | ⟨hs, -⟩ <;> simp [Entry.isPlaceable, hs, EntryState.isPlaceable]

theorem onlyUnstages {C : Prop} (h : e.IsBorrowed) (hc : e.OnlyUnstages C e') : e'.IsBorrowed := by
  have hs : e'.state = e.state := hc.state.resolve_right fun ⟨_, hs⟩ ↦ by
    rcases h with h | ⟨h, -⟩ <;> simp [h] at hs
  rcases h with h | ⟨h, hr⟩
  · exact .inl (hs.trans h)
  · exact .inr ⟨hs.trans h, (hc.restore.resolve_right (· (hs.trans h))).trans hr⟩

theorem revert (h : e.IsBorrowed) : e.revert.IsBorrowed := by
  rcases h with h | ⟨h, hr⟩
  · exact .inl (by simp [Entry.revert, h])
  · exact .inl (by simp [Entry.revert, h, hr])

end Entry.IsBorrowed

namespace Document

variable {d d' : Document} {b id x : NodeId} {n : Node} {s : Store} {e : Entry}

/-- What a block does not own it has borrowed. -/
def Borrows (d : Document) : Prop :=
  ∀ b s e n, d.store? b = some s → e ∈ s.entries → d.node? e.node = some n →
    n.parent ≠ some b → e.IsBorrowed

/-- No replacement of a node whose removal is staged in a block that has borrowed it. -/
def ReplacesOnce (d : Document) : Edit → Prop
  | .replace _ old _ => ∀ n ∈ d.node? old, ∀ b ∈ n.holders, old ∉ d.inState b .toBeRemoved
  | _ => True

namespace Borrows

theorem belongsTo (h : Borrows d) (hs : d.store? b = some s) (he : e ∈ s.entries)
    (hb : ¬ e.IsBorrowed) : d.BelongsTo b e.node := by
  intro n hn
  by_contra hp
  exact hb (h b s e n hs he hn hp)

theorem altered {edit : Edit} (h : Borrows d) (hl : Linked d) (ha : Alters d edit d')
    (hr : ReplacesOnce d edit) : Borrows d' := by
  intro b s' e' n' hs' he' hn' hp'
  have hold : ∀ s e, d.store? b = some s → e ∈ s.entries → e.node = e'.node → e.IsBorrowed := by
    intro s e hs he hnode
    have hlt := ((hl.store b s hs).links e.node (Store.mem_nodes_of_mem he)).1
    obtain ⟨n, hn, hp, -⟩ := ha.node e'.node n' (hnode ▸ hlt) hn'
    exact h b s e n hs he (hnode ▸ hn) (hp ▸ hp')
  have howned : ¬ d'.isOwnedBy e'.node b := fun hown ↦ hp' (parent_of_isOwnedBy hown hn')
  cases ha.entry b s' e' hs' he' with
  | kept hs he => exact hold _ _ hs he rfl
  | withdrawn hs he => exact (hold _ _ hs he (Entry.withdraw_node _).symm).withdraw
  | hidden hs he hplace => exact absurd hplace (hold _ _ hs he rfl).not_isPlaceable
  | moved hs he hplace =>
    exact absurd hplace (hold _ _ hs he (Store.relocated_node _).symm).not_isPlaceable
  | parsed _ _ hown => exact absurd hown howned
  | staged _ _ hown => exact absurd hown howned
  | @replacing block old spec n s e hedit hn hp hb hs he hnode _ hown =>
    -- in the block of the old node the new one is owned, elsewhere it is borrowed like the old one
    rcases List.mem_cons.mp hb with rfl | hb
    · exact absurd hown howned
    · have hne : n.parent ≠ some b := fun hpb ↦ (hl.node old n hn).foreign b hpb hb
      subst hedit
      rcases h b s e n hs he (hnode ▸ hn) hne with hst | ⟨hst, -⟩
      · exact .inl (by simp [Store.replacement, Store.replacementState, Entry.fresh, hst])
      · exact absurd (mem_inState.mpr ⟨s, hs, e, he, hst, hnode⟩) (hr n hn b hb)

theorem onlyUnstages {C : NodeId → NodeId → Prop} (h : Borrows d) (hc : OnlyUnstages C d d') :
    Borrows d' := by
  intro b s' e' n' hs' he' hn' hp'
  obtain ⟨s, e, hs, he, hunstages⟩ := hc.entry b s' e' hs' he'
  obtain ⟨n, hn, hp⟩ := hc.node e'.node n' hn'
  exact (h b s e n hs he (hunstages.node ▸ hn) (hp ▸ hp')).onlyUnstages hunstages

theorem reset (h : Borrows d) (hl : Linked d) : Borrows d.reset := by
  intro b s' e' n' hs' he' hn' hp'
  obtain ⟨s, e, hs, he, -, rfl⟩ := mem_reset hl hs' he'
  obtain ⟨n, hn, rfl⟩ := node?_reset hl hn'
  exact (h b s e n hs he hn hp').revert

theorem merged (h : Borrows d) (hl : Linked d) (hm : Merged d d') : Borrows d' := by
  intro b s' e' n' hs' he' hn' hp'
  rcases hm.entry b s' e' hs' he' with ⟨s, hs, he⟩ | ⟨x, -, ⟨rfl, hown⟩ | ⟨rfl, -⟩⟩
  · have hlt := ((hl.store b s hs).links e'.node (Store.mem_nodes_of_mem he)).1
    obtain ⟨n, hn, hp, -⟩ := hm.node e'.node n' hlt hn'
    exact h b s e' n hs he hn (hp ▸ hp')
  · exact absurd (parent_of_isOwnedBy hown hn') hp'
  · exact .inl rfl

end Borrows

theorem Reached.borrows {allowed : Document → Edit → Prop}
    (ha : ∀ d edit, allowed d edit → ReplacesOnce d edit) (hd : Reached allowed d) : Borrows d := by
  induction hd with
  | new id config => exact fun b s e n hs he ↦ absurd he (not_mem_new hs)
  | edit edit hd hr ih => exact ih.altered hd.linked (alters hd.linked edit) (ha _ _ hr)
  | reset hd ih => exact ih.reset hd.linked
  | apply w s hd ih => exact ih.onlyUnstages (.apply hd.linked w s)
  | merge other hd ih => exact ih.merged hd.linked (merged hd.linked other)
  | takeDiagnostics _ ih => exact ih

/-- Overlays are not part of another tree, and no block borrows one as a whole. -/
def OverlaysApart (d : Document) : Prop :=
  ∀ o ∈ d.overlays, o ≠ root ∧ o < d.nextId ∧
    ∀ n, d.node? o = some n → n.parent = none ∧ n.holders = []

theorem OverlaysApart.not_below {o : NodeId} (h : OverlaysApart d) (hl : Linked d)
    (ho : o ∈ d.overlays) (hb : Below d root b) : ¬ Below d o b := by
  intro hob
  obtain ⟨hne, -, htop⟩ := h o ho
  rcases hb.total hob with hb | hb
  · exact hne (hb.eq_of_top fun n hn ↦ (htop n hn).1)
  · exact hl.not_below_root hne hb

theorem OverlaysApart.inherits (h : OverlaysApart d) (hi : Inherits d d')
    (hh : ∀ x n n', d.node? x = some n → d'.node? x = some n' → n'.holders = n.holders) :
    OverlaysApart d' := by
  intro o ho
  obtain ⟨hne, hlt, htop⟩ := h o (hi.overlays ▸ ho)
  refine ⟨hne, hi.nextId ▸ hlt, fun n' hn' ↦ ?_⟩
  obtain ⟨n, hn, hp⟩ := hi.node o n' hn'
  rw [hp, hh o n n' hn hn']
  exact htop n hn

theorem Reached.overlaysApart {allowed : Document → Edit → Prop} (hd : Reached allowed d) :
    OverlaysApart d := by
  induction hd with
  | new => simp [OverlaysApart, Document.new, Document.push]
  | @edit d edit hd _ ih =>
    have ha := alters hd.linked edit
    intro o ho
    rw [overlays_run hd.linked _] at ho
    obtain ⟨hne, hlt, htop⟩ := ih o ho
    refine ⟨hne, Nat.lt_of_lt_of_le hlt ha.next, fun n' hn' ↦ ?_⟩
    obtain ⟨n, hn, hp, hh, -⟩ := ha.node o n' hlt hn'
    rw [hp, hh]
    exact htop n hn
  | @reset d hd ih =>
    refine ih.inherits ⟨fun x n' hn' ↦ ?_, overlays_reset hd.linked, nextId_reset hd.linked⟩
      fun x n n' hn hn' ↦ ?_
    · obtain ⟨n, hn, rfl⟩ := node?_reset hd.linked hn'
      exact ⟨n, hn, rfl⟩
    · obtain ⟨n₀, hn₀, rfl⟩ := node?_reset hd.linked hn'
      rw [hn] at hn₀
      cases hn₀
      rfl
  | apply w s hd ih =>
    have hc := OnlyUnstages.apply hd.linked w s
    exact ih.inherits hc.toInherits fun x n n' hn hn' ↦ (hc.calm x n n' hn hn').1
  | @merge d other hd ih =>
    have hm := merged hd.linked other
    obtain ⟨m, hroot, -⟩ := hd.linked.root
    intro o ho
    rcases hm.overlay o ho with ho | ⟨hle, n, hn, hrest⟩
    · obtain ⟨hne, hlt, htop⟩ := ih o ho
      refine ⟨hne, Nat.lt_of_lt_of_le hlt hm.next, fun n' hn' ↦ ?_⟩
      obtain ⟨n, hn, hp, hh, -⟩ := hm.node o n' hlt hn'
      rw [hp, hh]
      exact htop n hn
    · refine ⟨(Nat.ne_of_lt (Nat.lt_of_lt_of_le (lt_nextId hroot) hle)).symm, lt_nextId hn,
        fun n' hn' ↦ ?_⟩
      rw [hn] at hn'
      cases hn'
      exact hrest
  | takeDiagnostics _ ih => exact ih

end Document

end BuildScript
