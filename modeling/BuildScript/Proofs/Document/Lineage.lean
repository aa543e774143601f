import BuildScript.Proofs.Document.Tables

namespace BuildScript.Document

variable {d d' : Document} {a b x y p : NodeId} {n : Node}

inductive Below (d : Document) (a : NodeId) : NodeId → Prop
  | refl : Below d a a
  | step {p x : NodeId} {n : Node} :
      Below d a p → d.node? x = some n → n.parent = some p → Below d a x

def Older (d : Document) : Prop := ∀ x n p, d.node? x = some n → n.parent = some p → p < x

namespace Below

theorem trans (h : Below d a b) (h' : Below d b x) : Below d a x := by
  induction h' with
  | refl => exact h
  | step _ hn hp ih => exact .step ih hn hp

theorem child (hn : d.node? x = some n) (hp : n.parent = some p) : Below d p x :=
  .step .refl hn hp

theorem le (ho : d.Older) (h : Below d a x) : a ≤ x := by
  induction h with
  | refl => exact Nat.le_refl _
  | step _ hn hp ih => exact Nat.le_trans ih (Nat.le_of_lt (ho _ _ _ hn hp))

theorem mono (hd : ∀ x n, d'.node? x = some n → ∃ n₀, d.node? x = some n₀ ∧ n₀.parent = n.parent)
    (h : Below d' a x) : Below d a x := by
  induction h with
  | refl => exact .refl
  | step _ hn hp ih =>
    obtain ⟨n₀, hn₀, he⟩ := hd _ _ hn
    exact .step ih hn₀ (he.trans hp)

theorem eq_or_parent (h : Below d a x) (hn : d.node? x = some n) (hp : n.parent = some p) :
    x = a ∨ Below d a p := by
  cases h with
  | refl => exact .inl rfl
  | step hb hn' hp' =>
    rw [hn] at hn'
    cases hn'
    rw [hp] at hp'
    cases hp'
    exact .inr hb

theorem eq_of_top (h : Below d a x) (hx : ∀ n, d.node? x = some n → n.parent = none) : x = a := by
  cases h with
  | refl => rfl
  | step _ hn hp => simp [hx _ hn] at hp

theorem isLive (h : Below d a x) (ha : d.isLive a) : d.isLive x := by
  cases h with
  | refl => exact ha
  | step _ hn _ => exact isLive_iff.mpr ⟨_, hn⟩

theorem total (h : Below d a x) (h' : Below d b x) : Below d a b ∨ Below d b a := by
  induction h with
  | refl => exact .inr h'
  | @step p x n h hn hp ih =>
    rcases h'.eq_or_parent hn hp with rfl | h'
    · exact .inl (.step h hn hp)
    · exact ih h'

theorem sibling_eq (ho : d.Older) {m : Node} (ha : d.node? a = some n) (hb : d.node? b = some m)
    (hpa : n.parent = some p) (hpb : m.parent = some p) (h : Below d a x) (h' : Below d b x) :
    a = b := by
  have hlt (c : NodeId) (hc : Below d c p) (hcp : p < c) : False :=
    absurd (hc.le ho) (Nat.not_le.mpr hcp)
  rcases h.total h' with h | h
  · rcases h.eq_or_parent hb hpb with he | h
    · exact he.symm
    · exact (hlt a h (ho a n p ha hpa)).elim
  · rcases h.eq_or_parent ha hpa with he | h
    · exact he
    · exact (hlt b h (ho b m p hb hpb)).elim

theorem not_parent (ho : d.Older) (hn : d.node? x = some n) (hp : n.parent = some p) :
    ¬ Below d x p :=
  fun h ↦ absurd (h.le ho) (Nat.not_le.mpr (ho x n p hn hp))

end Below

theorem below_of_older (ho : d.Older) (hx : x < d.nextId)
    (hnode : ∀ y n', y < d.nextId → d'.node? y = some n' → ∃ n, d.node? y = some n ∧
      n'.parent = n.parent) (hb : Below d' a x) : Below d a x := by
  induction hb with
  | refl => exact .refl
  | @step p y n' hb hn' hp ih =>
    obtain ⟨n, hn, hpar⟩ := hnode y n' hx hn'
    have hp' : n.parent = some p := hpar ▸ hp
    exact .step (ih (Nat.lt_trans (ho y n p hn hp') hx)) hn hp'

theorem below_modifyStore {f : Store → Store} : Below (d.modifyStore b f) a x ↔ Below d a x :=
  ⟨fun h ↦ h.mono fun _ n hn ↦ ⟨n, by simpa using hn, rfl⟩,
    fun h ↦ h.mono fun _ n hn ↦ ⟨n, by simpa using hn, rfl⟩⟩

theorem below_of_below_modifyNode {i : NodeId} {f : Node → Node} (hf : ∀ n, (f n).parent = n.parent)
    (h : Below (d.modifyNode i f) a x) : Below d a x := by
  refine h.mono fun y m hm ↦ ?_
  rcases node?_of_modifyNode hm with ⟨-, m₀, hm₀, rfl⟩ | ⟨-, hm⟩
  · exact ⟨m₀, hm₀, (hf m₀).symm⟩
  · exact ⟨m, hm, rfl⟩

theorem mem_lineageWithin {fuel : Nat} (ho : d.Older) (hx : x < fuel) :
    a ∈ d.lineageWithin fuel x ↔ d.isLive x ∧ d.isLive a ∧ Below d a x := by
  induction fuel generalizing x with
  | zero => exact absurd hx (Nat.not_lt_zero x)
  | succ fuel ih =>
    rw [lineageWithin]
    cases hn : d.node? x with
    | none => simp [isLive, hn]
    | some n =>
      have hlive : d.isLive x := by simp [hn]
      cases hp : n.parent with
      | none =>
        simp only [List.mem_singleton, hlive, true_and, hp]
        constructor
        · rintro rfl
          exact ⟨hlive, .refl⟩
        · rintro ⟨-, h⟩
          refine (h.eq_of_top fun m hm ↦ ?_).symm
          rw [hn] at hm
          cases hm
          exact hp
      | some p =>
        have hlt := ho x n p hn hp
        have hfuel : p < fuel := Nat.lt_of_lt_of_le hlt (Nat.le_of_lt_succ hx)
        simp only [List.mem_cons, hp, ih hfuel, hlive, true_and]
        constructor
        · rintro (rfl | ⟨-, ha, h⟩)
          · exact ⟨hlive, .refl⟩
          · exact ⟨ha, .step h hn hp⟩
        · rintro ⟨ha, h⟩
          rcases h.eq_or_parent hn hp with rfl | h
          · exact .inl rfl
          · exact .inr ⟨h.isLive ha, ha, h⟩

theorem mem_lineage (ho : d.Older) : a ∈ d.lineage x ↔ d.isLive x ∧ d.isLive a ∧ Below d a x := by
  by_cases hx : x < d.nodes.size
  · exact mem_lineageWithin ho hx
  · have hnone : d.node? x = none := node?_of_le (Nat.not_lt.mp hx)
    have hnil : ∀ fuel, d.lineageWithin fuel x = [] := by
      intro fuel
      cases fuel <;> simp [lineageWithin, hnone]
    simp [lineage, hnil, isLive, hnone]

@[simp]
theorem mem_ownedChildren : x ∈ d.ownedChildren b ↔
    (∃ s, d.store? b = some s ∧ x ∈ s.nodes) ∧ ∃ n, d.node? x = some n ∧ n.parent = some b := by
  simp only [ownedChildren, List.mem_filter, isOwnedBy_iff, entries, Store.nodes]
  cases d.store? b <;> simp

theorem subtree_below {fuel : Nat} (h : x ∈ d.subtree fuel a) : Below d a x := by
  induction fuel generalizing a with
  | zero => simp [subtree] at h
  | succ fuel ih =>
    rw [subtree] at h
    rcases List.mem_cons.mp h with rfl | h
    · exact .refl
    · obtain ⟨c, hc, hx⟩ := List.mem_flatMap.mp h
      obtain ⟨-, n, hn, hp⟩ := mem_ownedChildren.mp hc
      exact (Below.child hn hp).trans (ih hx)

/-- Going down from a node takes no more steps than there are numbers left. -/
theorem subtree_saturated {fuel k : Nat} (ho : d.Older) (ha : a < d.nextId)
    (hf : d.nextId ≤ fuel + a) (h : x ∈ d.subtree k a) : x ∈ d.subtree fuel a := by
  induction k generalizing fuel a with
  | zero => simp [subtree] at h
  | succ k ih =>
    cases fuel with
    | zero => exact absurd ha (Nat.not_lt.mpr (by simpa using hf))
    | succ fuel =>
      rw [subtree] at h ⊢
      rcases List.mem_cons.mp h with rfl | h
      · exact List.mem_cons_self
      · obtain ⟨c, hc, hx⟩ := List.mem_flatMap.mp h
        obtain ⟨-, n, hn, hp⟩ := mem_ownedChildren.mp hc
        have hac := ho c n a hn hp
        have hfc : d.nextId ≤ fuel + c := by lia
        exact List.mem_cons_of_mem _ (List.mem_flatMap.mpr ⟨c, hc, ih (lt_nextId hn) hfc hx⟩)

theorem subtree_child {fuel : Nat} (h : y ∈ d.subtree fuel a) (hx : x ∈ d.ownedChildren y) :
    x ∈ d.subtree (fuel + 1) a := by
  induction fuel generalizing a with
  | zero => simp [subtree] at h
  | succ fuel ih =>
    rw [subtree] at h
    rw [subtree, List.mem_cons, List.mem_flatMap]
    rcases List.mem_cons.mp h with rfl | h
    · refine .inr ⟨x, hx, ?_⟩
      rw [subtree]
      exact List.mem_cons_self
    · obtain ⟨c, hc, hy⟩ := List.mem_flatMap.mp h
      exact .inr ⟨c, hc, ih hy⟩

theorem ownedSubtree_below (h : x ∈ d.ownedSubtree a) : Below d a x := by
  rw [ownedSubtree] at h
  split at h
  · exact subtree_below h
  · simp at h

theorem self_mem_ownedSubtree (ha : d.isLive a) : a ∈ d.ownedSubtree a := by
  obtain ⟨n, hn⟩ := isLive_iff.mp ha
  have hpos : 0 < d.nodes.size := Nat.lt_of_le_of_lt (Nat.zero_le a) (lt_nextId hn)
  rw [ownedSubtree, if_pos ha, ← Nat.succ_pred_eq_of_pos hpos, subtree]
  exact List.mem_cons_self

theorem ownedSubtree_child (ho : d.Older) (h : y ∈ d.ownedSubtree a) (hx : x ∈ d.ownedChildren y) :
    x ∈ d.ownedSubtree a := by
  rw [ownedSubtree] at h ⊢
  split at h
  · next ha =>
    obtain ⟨n, hn⟩ := isLive_iff.mp ha
    rw [if_pos ha]
    exact subtree_saturated ho (lt_nextId hn) (Nat.le_add_right _ _) (subtree_child h hx)
  · simp at h

theorem ownedSubtree_owner (h : x ∈ d.ownedSubtree a) (hx : x ≠ a) :
    ∃ p ∈ d.ownedSubtree a, x ∈ d.ownedChildren p := by
  have hsub : ∀ fuel a, x ∈ d.subtree fuel a → x ≠ a →
      ∃ p ∈ d.subtree fuel a, x ∈ d.ownedChildren p := by
    intro fuel
    induction fuel with
    | zero => intro a h; simp [subtree] at h
    | succ fuel ih =>
      intro a h hne
      rw [subtree] at h ⊢
      obtain ⟨c, hc, hxc⟩ := List.mem_flatMap.mp ((List.mem_cons.mp h).resolve_left hne)
      by_cases hcx : x = c
      · exact ⟨a, List.mem_cons_self, hcx ▸ hc⟩
      · obtain ⟨p, hp, hxp⟩ := ih c hxc hcx
        exact ⟨p, List.mem_cons_of_mem _ (List.mem_flatMap.mpr ⟨c, hc, hp⟩), hxp⟩
  rw [ownedSubtree] at h ⊢
  split at h
  · next ha => exact if_pos ha ▸ hsub _ _ h hx
  · simp at h

theorem ownedSubtree_parent (h : x ∈ d.ownedSubtree a) (hx : x ≠ a) (hn : d.node? x = some n)
    (hp : n.parent = some p) : p ∈ d.ownedSubtree a := by
  obtain ⟨q, hq, hxq⟩ := ownedSubtree_owner h hx
  obtain ⟨-, m, hm, hpm⟩ := mem_ownedChildren.mp hxq
  rw [hn] at hm
  cases hm
  rw [hp] at hpm
  cases hpm
  exact hq

end BuildScript.Document
