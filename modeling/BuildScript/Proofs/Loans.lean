import BuildScript.Proofs.Folding.Law
import BuildScript.Proofs.Settlement

namespace BuildScript

namespace Document

variable {d₀ d d' : Document} {b c id o p x y : NodeId} {n : Node} {s : Store}
  {state : EntryState} {l : List NodeId} {σ : Type}

theorem holders_of_applied (hd : Reachable d) (hx : d.state? b x = some .applied)
    (hn : d.node? x = some n) : n.holders = [b] := by
  obtain ⟨e, he, rfl, hst⟩ := mem_of_state? hx
  obtain ⟨s, hs, he⟩ := mem_entries.mp he
  have hheld := hd.linked.mem_holders hs he hn fun hp ↦
    hd.fullyTraced.own b s e hs he (.inl hst) (isOwnedBy_iff.mpr ⟨n, hn, hp⟩)
  obtain ⟨hone, -⟩ := hd.lentOnce _ n hn (List.ne_nil_of_mem hheld)
  obtain ⟨h, hh⟩ := List.length_eq_one_iff.mp hone
  rw [hh, List.mem_singleton] at hheld
  rw [hh, hheld]

/-- What is around a loan has a place in the text of its own block only, and so that block is around
the loan as well. -/
theorem below_of_placeable (hd : Reachable d) (hx : d.state? b x = some .applied)
    (hy : Below d y x) (hlive : d.isLive y) (hp : y ∈ d.placeable p) : Below d p x := by
  obtain ⟨n, hn⟩ := isLive_iff.mp (hy.isLive hlive)
  have hholders := holders_of_applied hd hx hn
  obtain ⟨m, hm⟩ := isLive_iff.mp hlive
  obtain ⟨s, hs, e, he, hplace, rfl⟩ := mem_placeable.mp hp
  refine (Below.child hm (by_contra fun hne ↦ ?_)).trans hy
  have hh := hd.linked.mem_holders hs he hm hne
  -- nothing around the loan is lent, and the loan itself to no other block
  by_cases hyx : e.node = x
  · subst hyx
    rw [hn] at hm
    cases hm
    rw [hholders, List.mem_singleton] at hh
    subst hh
    have hst := hd.linked.state?_of_mem (entries_eq hs ▸ he)
    rw [hx, Option.some_inj] at hst
    simp [Entry.isPlaceable, ← hst, EntryState.isPlaceable] at hplace
  · obtain ⟨-, haround⟩ := hd.lentOnce x n hn (by simp [hholders])
    simp [haround _ m hy hyx hm] at hh

theorem not_below_root_of_applied (hd : Reachable d) (hx : d.state? b x = some .applied) :
    ¬ Below d root x := by
  obtain ⟨e, he, rfl, -⟩ := mem_of_state? hx
  obtain ⟨s, hs, he⟩ := mem_entries.mp he
  have hne := hd.linked.ne_root_of_mem hs (Store.mem_nodes_of_mem he)
  intro hb
  cases hn : d.node? e.node with
  | none => exact hne (hb.eq_of_top fun n hn' ↦ by simp [hn] at hn')
  | some n =>
    obtain ⟨p, hp, hnot⟩ := hd.lent _ n hn (by simp [holders_of_applied hd hx hn])
    exact hnot ((hb.eq_or_parent hn hp).resolve_left hne)

/-- The write of the main tree keeps clear of what is around a loan. -/
theorem Traversed.not_below (hc : Traversed d c) (hd : Reachable d)
    (hx : d.state? b x = some .applied) : ¬ Below d c x := by
  induction hc with
  | root => exact not_below_root_of_applied hd hx
  | child _ hid hlive ih =>
    intro hb
    exact ih (below_of_placeable hd hx hb hlive hid)

def OnLoan (b x : NodeId) (d : Document) : Prop :=
  ∀ s, d.store? b = some s → ∃ e ∈ s.entries, e.node = x ∧ e.state = .applied

namespace OnLoan

theorem of_state? (hx : d.state? b x = some .applied) : OnLoan b x d := by
  intro s hs
  obtain ⟨e, he, hnode, hst⟩ := mem_of_state? hx
  exact ⟨e, entries_eq hs ▸ he, hnode, hst⟩

theorem state? (h : OnLoan b x d) (hl : Linked d) (hs : d.store? b = some s) :
    d.state? b x = some .applied := by
  obtain ⟨e, he, rfl, hst⟩ := h s hs
  exact hst ▸ hl.state?_of_mem (entries_eq hs ▸ he)

theorem modifyStore (h : OnLoan b x d) {f : Store → Store}
    (hf : c = b → ∀ s : Store, ∀ e ∈ s.entries, e.node = x → e.state = .applied →
      ∃ e' ∈ (f s).entries, e'.node = x ∧ e'.state = .applied) :
    OnLoan b x (d.modifyStore c f) := by
  intro s' hs'
  rcases store?_of_modifyStore hs' with ⟨hc, s, hs, rfl⟩ | ⟨-, hs'⟩
  · obtain ⟨e, he, hnode, hst⟩ := h s hs
    exact hf hc s e he hnode hst
  · exact h s' hs'

theorem settle (h : OnLoan b x d) (c : NodeId) : OnLoan b x (d.modifyStore c Store.settle) :=
  h.modifyStore fun _ s e he hnode hst ↦ ⟨Store.settled e,
    s.settle_entries ▸ List.mem_map_of_mem he, (Store.settled_node e).trans hnode,
    (Store.settled_state e).trans hst⟩

theorem settleAll (h : OnLoan b x d) (c : NodeId) : OnLoan b x (d.modifyStore c Store.settleAll) :=
  h.modifyStore fun _ s e he hnode hst ↦ ⟨Store.settledAll e,
    s.settleAll_entries ▸ List.mem_map_of_mem he, hnode, by simp [Store.settledAll, hst]⟩

theorem modifyEntry (h : OnLoan b x d) {f : Entry → Entry} (hf : ∀ e, (f e).node = e.node)
    (hne : c = b → x ≠ id) : OnLoan b x (d.modifyEntry c id f) :=
  h.modifyStore fun hc _ e he hnode hst ↦
    ⟨e, (Store.mem_modifyEntry_of_ne hf (hnode ▸ hne hc)).mpr he, hnode, hst⟩

theorem purge (h : OnLoan b x d) (hne : c = b → x ≠ id) : OnLoan b x (d.purge c id) :=
  h.modifyStore fun hc _ e he hnode hst ↦
    ⟨e, (List.mem_eraseP_of_neg (by simpa [hnode] using hne hc)).mpr he, hnode, hst⟩

theorem release (h : OnLoan b x d) (hl : Linked d) (hid : id ≠ root)
    (hkept : d.isLive id → ¬ Below d id x) : OnLoan b x (d.release id) := by
  intro s' hs'
  obtain ⟨s, hs, -⟩ := store?_foldl_evict_sublist hl.distinct hs'
  obtain ⟨e, he, rfl, hst⟩ := h s hs
  have hb : b ∉ d.ownedSubtree id := by
    intro hb
    have hdead : (d.release id).node? b = none := by
      rw [Document.release, node?_foldl_evict, if_pos hb]
    rw [(hl.release hid).store?_of_node?_eq_none hdead] at hs'
    simp at hs'
  obtain ⟨s₁, hs₁, hkeep⟩ := mem_store?_foldl_evict hs hb hl.distinct
  obtain rfl : s₁ = s' := Option.some.inj (hs₁.symm.trans hs')
  refine ⟨e, hkeep e he fun hmem ↦ ?_, rfl, hst⟩
  have hlive : d.isLive id := by
    by_contra hdead
    simp [ownedSubtree, hdead] at hmem
  exact hkept hlive (ownedSubtree_below hmem)

/-- A loan lasts as long as nothing around it is released. -/
theorem step (h : OnLoan b x d) (hl : Linked d₀) (hx : d₀.state? b x = some .applied)
    (hkept : ∀ id, Released d₀ id → d₀.isLive id → ¬ Below d₀ id x)
    (hstep : ApplyStep d₀ d d') : OnLoan b x d' := by
  have hne : ∀ {c id state}, state.isPending → id ∈ d₀.inState c state → c = b → x ≠ id := by
    rintro c id state hst hid rfl rfl
    obtain ⟨s, hs, e, he, rfl, rfl⟩ := mem_inState.mp hid
    rw [hl.state?_of_mem (entries_eq hs ▸ he), Option.some_inj] at hx
    simp [hx, EntryState.isPending] at hst
  cases hstep with
  | node => exact h
  | entry _ hst hid hf => exact h.modifyEntry hf (hne hst hid)
  | settle _ hf =>
    rcases hf with rfl | rfl
    · exact h.settle _
    · exact h.settleAll _
  | purge _ hst hid => exact h.purge (hne hst hid)
  | release hlink hunstages hrel =>
    refine h.release hlink (hrel.ne_root hl) fun hlive hb ↦ ?_
    obtain ⟨m, hm⟩ := isLive_iff.mp hlive
    obtain ⟨m₀, hm₀, -⟩ := hunstages.node _ m hm
    exact hkept _ hrel (isLive_iff.mpr ⟨m₀, hm₀⟩) (hunstages.below hb)

theorem underway (hd : Reachable d) (hx : d.state? b x = some .applied)
    (hkept : ∀ y p, Below d y x → d.isOwnedBy y p → d.state? p y ≠ some .toBeRemoved)
    (h : Underway d d') : OnLoan b x d' := by
  obtain ⟨-, -, hsteps⟩ := h
  induction hsteps with
  | refl => exact .of_state? hx
  | tail _ hstep ih =>
    refine ih.step hd.linked hx (fun id hrel hlive hb ↦ ?_) hstep
    cases hrel with
    | @removed c hown hid =>
      obtain ⟨s, hs, e, he, hst, rfl⟩ := mem_inState.mp hid
      exact hkept e.node c hb hown (hst ▸ hd.linked.state?_of_mem (entries_eq hs ▸ he))
    | @refused c hc hid =>
      exact hc.not_below hd hx
        (below_of_placeable hd hx hb hlive (mem_placeable_of_mem_inState hid rfl))

end OnLoan

theorem unlisted_foldl_evict (hn : d.node? x = some n) (hx : x ∈ l) (hb : b ∈ n.holders)
    (hh : ∀ y m, d.node? y = some m → m.holders.Nodup)
    (hs : ∀ s, d.store? b = some s → s.nodes.Nodup) : Unlisted b x (l.foldl evict d) := by
  induction l generalizing d with
  | nil => simp at hx
  | cons id l ih =>
    have hh' : ∀ y m, (d.evict id).node? y = some m → m.holders.Nodup := fun y m hm ↦
      hh y m (node?_of_evict hm)
    by_cases hid : x = id
    · subst hid
      intro s' hs' hmem
      obtain ⟨s₁, hs₁, -, hsub⟩ := store?_foldl_evict_sublist hh' hs'
      by_cases hbx : b = x
      · rw [hbx, store?_evict_self hn] at hs₁
        simp at hs₁
      · rw [store?_evict_of_ne hn (hh x n hn) hbx, if_pos hb] at hs₁
        obtain ⟨s, hs₀, rfl⟩ := Option.map_eq_some_iff.mp hs₁
        exact Store.not_mem_nodes_purge (hs s hs₀) ((hsub.map _).subset hmem)
    · refine ih ?_ ((List.mem_cons.mp hx).resolve_left hid) hh' fun s' hs' ↦ ?_
      · rw [node?_evict, if_neg hid, hn]
      · obtain ⟨s, hs₀, -, hsub⟩ := store?_foldl_evict_sublist (l := [id]) hh hs'
        exact (hs s hs₀).sublist (hsub.map _)

namespace ApplyStep

theorem unlisted (hstep : ApplyStep d₀ d d') (h : Unlisted b x d) : Unlisted b x d' := by
  have hmodify : ∀ {c f}, (∀ s : Store, x ∈ (f s).nodes → x ∈ s.nodes) →
      Unlisted b x (d.modifyStore c f) := by
    intro c f hf s' hs'
    rcases store?_of_modifyStore hs' with ⟨-, s, hs, rfl⟩ | ⟨-, hs'⟩
    · exact fun hmem ↦ h s hs (hf s hmem)
    · exact h s' hs'
  cases hstep with
  | node => exact h
  | entry _ _ _ hf => exact hmodify fun s hmem ↦ Store.nodes_modifyEntry hf ▸ hmem
  | settle _ hf =>
    rcases hf with rfl | rfl
    · exact hmodify fun s hmem ↦ s.nodes_settle ▸ hmem
    · exact hmodify fun s hmem ↦ s.nodes_settleAll ▸ hmem
  | purge => exact hmodify fun s hmem ↦ (s.nodes_purge_sublist _).subset hmem
  | release hl => exact h.onlyUnstages (OnlyUnstages.release (C := fun _ _ ↦ True) hl _)

/-- A node does not go without the entries of the blocks that it is lent to. -/
theorem isLive_or_unlisted (hstep : ApplyStep d₀ d d')
    (hheld : ∀ n, d₀.node? x = some n → b ∈ n.holders) (h : d.isLive x ∨ Unlisted b x d) :
    d'.isLive x ∨ Unlisted b x d' := by
  rcases h with hlive | h
  · obtain ⟨n, hn⟩ := isLive_iff.mp hlive
    cases hstep with
    | node =>
      rw [isLive, node?_modifyNode, hn]
      split <;> exact .inl rfl
    | entry | settle | purge => exact .inl hlive
    | @release id hl hc =>
      by_cases hx : x ∈ d.ownedSubtree id
      · obtain ⟨n₀, hn₀, -⟩ := hc.node x n hn
        exact .inr (unlisted_foldl_evict hn hx ((hc.calm x n₀ n hn₀ hn).1 ▸ hheld n₀ hn₀)
          hl.distinct fun s hs ↦ (hl.store b s hs).nodup)
      · rw [isLive, Document.release, node?_foldl_evict, if_neg hx, hn]
        exact .inl rfl
  · exact .inr (hstep.unlisted h)

end ApplyStep

theorem Underway.isLive (h : Underway d d') (hn : d.node? x = some n) (hb : b ∈ n.holders)
    (hx : d'.state? b x = some state) : d'.isLive x := by
  obtain ⟨-, -, hsteps⟩ := h
  have hor : d'.isLive x ∨ Unlisted b x d' := by
    clear hx
    induction hsteps with
    | refl => exact .inl (isLive_iff.mpr ⟨n, hn⟩)
    | tail _ hstep ih =>
      refine hstep.isLive_or_unlisted (fun m hm ↦ ?_) ih
      rw [hn] at hm
      cases hm
      exact hb
  refine hor.resolve_right fun hun ↦ ?_
  obtain ⟨e, hmem, rfl, -⟩ := mem_of_state? hx
  obtain ⟨s, hs, he⟩ := mem_entries.mp hmem
  exact hun s hs (Store.mem_nodes_of_mem he)

theorem Underway.isSome_store? (h : Underway d d') (hl : Linked d) (hb : d'.isLive b)
    (hs : d.store? b = some s) : (d'.store? b).isSome := by
  obtain ⟨n', hn'⟩ := isLive_iff.mp hb
  obtain ⟨n, hn, hcont⟩ := hl.isContainer_of_store? hs
  rw [h.linked.keyed, hn', Option.any_some, (h.onlyUnstages.calm b n n' hn hn').2.1, hcont]

/-- What was around a nested node lies around it still, or around all of the nest. -/
theorem Nested.between (h : Nested d' o x) (hi : Inherits d d') (hy : Below d y x) :
    Nested d' o y ∨ Below d y o := by
  induction h with
  | refl => exact .inr hy
  | @step q x n s hq hn hp hs ih =>
    obtain ⟨n₀, hn₀, hp₀⟩ := hi.node x n hn
    rcases hy.eq_or_parent hn₀ (hp₀ ▸ hp) with rfl | hy
    · exact .inl (.step hq hn hp hs)
    · exact ih hy

/-- What an overlay owns and has staged for removal is gone after an apply, with all that lies
below it. -/
theorem not_nested_of_toBeRemoved (hd : Reachable d) (w : Writer σ) (st : σ)
    (hown : d.isOwnedBy y p) (hst : d.state? p y = some .toBeRemoved) (hy : Below d y x)
    (ho : o ∈ d.overlays) : ¬ Nested (d.apply w st).document o x := by
  intro hnest
  have hc := (Underway.apply hd.linked w st).onlyUnstages
  obtain ⟨ht, -, hquiet⟩ := hd.fullyTraced.toTraced.apply w st
  obtain ⟨n, hn, hp⟩ := isOwnedBy_iff.mp hown
  have hne : y ≠ o := by
    rintro rfl
    simp [((hd.overlaysApart y ho).2.2 n hn).1] at hp
  have hnest' := (hnest.between hc.toInherits hy).resolve_right fun hyo ↦
    hne (hyo.eq_of_top fun m hm ↦ ((hd.overlaysApart o ho).2.2 m hm).1).symm
  have ho' : o ∈ (d.apply w st).document.overlays := hc.overlays ▸ ho
  cases hnest' with
  | refl => exact hne rfl
  | @step q _ m s hq hm hmp hs =>
    obtain ⟨n', hn', hpar⟩ := hc.node y m hm
    rw [hn] at hn'
    cases hn'
    obtain rfl : p = q := Option.some.inj (hp.symm.trans (hpar.symm.trans hmp))
    -- its owner lists it still, and has settled
    have hmem := (ht.listsOwned.listed y m p s hm hmp hs).resolve_left not_false
    obtain ⟨e', he', rfl⟩ := List.mem_map.mp hmem
    obtain ⟨s₀, e, hs₀, he, hunstages⟩ := hc.entry p s e' hs he'
    have hclear := ht.quiet o ho' (hquiet o ho') p hq
    have hstaged := (isStagedAt_eq_false.mp hclear.unstaged).2 s e' hs he'
    have hstate := hd.linked.state?_of_mem (entries_eq hs₀ ▸ he)
    rw [← hunstages.node, hst, Option.some_inj] at hstate
    have hunstages' : e'.state = .toBeRemoved :=
      (hunstages.state.resolve_right fun h ↦ by simp [← hstate] at h).trans hstate.symm
    simp [Entry.isStaged, hunstages', EntryState.isPending] at hstaged

/-- An apply leaves a block what it has on loan, unless the removal of it, or of a block around it,
is staged in the block that owns it. -/
theorem applied_after_apply_iff (hd : Reachable d) (w : Writer σ) (st : σ)
    (hx : d.state? b x = some .applied) (hb : (d.apply w st).document.isLive b) :
    (d.apply w st).document.state? b x = some .applied ↔
      ∀ y p, Below d y x → d.isOwnedBy y p → d.state? p y ≠ some .toBeRemoved := by
  have hway := Underway.apply hd.linked w st
  constructor
  · intro happlied y p hy hown hst
    obtain ⟨m, hm, -⟩ := isOwnedBy_iff.mp hown
    obtain ⟨n, hn⟩ := isLive_iff.mp (hy.isLive (isLive_iff.mpr ⟨m, hm⟩))
    have hholders := holders_of_applied hd hx hn
    obtain ⟨n', hn'⟩ := isLive_iff.mp (hway.isLive hn (by simp [hholders]) happlied)
    -- a loan that is still there lies in an overlay, and that has been settled
    have hheld : n'.holders ≠ [] := by simp [(hway.onlyUnstages.calm x n n' hn hn').1, hholders]
    obtain ⟨o, ho, hnest⟩ := (hd.apply w st).lentInOverlays x n' hn' hheld
    exact not_nested_of_toBeRemoved hd w st hown hst hy (hway.onlyUnstages.overlays ▸ ho) hnest
  · intro hkept
    obtain ⟨s, hs, -⟩ := Option.bind_eq_some_iff.mp hx
    obtain ⟨s', hs'⟩ := Option.isSome_iff_exists.mp (hway.isSome_store? hd.linked hb hs)
    exact (OnLoan.underway hd hx hkept hway).state? hway.linked hs'

/-- The literal that the root has on loan has been replaced in its overlay, and the loan goes on
with the new one. -/
theorem applied_after_apply_iff_replaced :
    let d := ((Edit.replace 3 4 (.literal ⟨["version"]⟩ (.integer 2))).run applicationDocument).2
    d.Reachable ∧ d.state? root 5 = some .applied ∧
      (d.apply .noop ()).document.state? root 5 = some .applied ∧
      ∀ y p, Below d y 5 → d.isOwnedBy y p → d.state? p y ≠ some .toBeRemoved := by
  intro d
  have hd : d.Reachable := .edit _ reachable_applicationDocument trivial
  have hafter : (d.apply .noop ()).document.state? root 5 = some .applied := by decide +kernel
  exact ⟨hd, by decide +kernel, hafter,
    (applied_after_apply_iff hd .noop () (by decide +kernel) (by decide +kernel)).mp hafter⟩

/-- The removal of a borrowed literal from its overlay does not show where it is on loan until an
apply takes it away. -/
theorem applied_lost_by_apply :
    let d := ((Edit.remove 3 4).run applicationDocument).2
    d.Reachable ∧ d.state? 3 4 = some .toBeRemoved ∧ d.state? root 4 = some .applied ∧
      (d.apply .noop ()).document.isLive root ∧
      (d.apply .noop ()).document.state? root 4 = none := by
  refine ⟨.edit _ reachable_applicationDocument trivial, ?_⟩
  decide +kernel

end Document

end BuildScript
