import BuildScript.Proofs.Borrowing

namespace BuildScript.Document

variable {d d' d'' : Document} {b o p t x : NodeId} {n : Node} {s : Store}

structure Follows (d d' : Document) : Prop where
  next : d.nextId ≤ d'.nextId
  old : ∀ y n', y < d.nextId → d'.node? y = some n' → ∃ n, d.node? y = some n ∧
    n'.parent = n.parent ∧ n'.holders = n.holders
  held : ∀ x n', d'.node? x = some n' → n'.holders ≠ [] → ∃ y n, d.node? y = some n ∧
    n'.parent = n.parent ∧ n'.holders = n.holders

namespace Follows

theorem of_node (hnext : d'.nextId = d.nextId)
    (h : ∀ x n', d'.node? x = some n' → ∃ n, d.node? x = some n ∧ n'.parent = n.parent ∧
      n'.holders = n.holders) : Follows d d' :=
  ⟨Nat.le_of_eq hnext.symm, fun y n' _ ↦ h y n', fun x n' hn' _ ↦ ⟨x, h x n' hn'⟩⟩

theorem trans (h : Follows d d') (h' : Follows d' d'') : Follows d d'' where
  next := Nat.le_trans h.next h'.next
  old y n' hy hn' := by
    obtain ⟨n, hn, hp, hh⟩ := h'.old y n' (Nat.lt_of_lt_of_le hy h.next) hn'
    obtain ⟨n₀, hn₀, hp₀, hh₀⟩ := h.old y n hy hn
    exact ⟨n₀, hn₀, hp.trans hp₀, hh.trans hh₀⟩
  held x n' hn' hne := by
    obtain ⟨y, n, hn, hp, hh⟩ := h'.held x n' hn' hne
    obtain ⟨z, n₀, hn₀, hp₀, hh₀⟩ := h.held y n hn (hh ▸ hne)
    exact ⟨z, n₀, hn₀, hp.trans hp₀, hh.trans hh₀⟩

theorem inherits (hi : Inherits d d')
    (hh : ∀ x n n', d.node? x = some n → d'.node? x = some n' → n'.holders = n.holders) :
    Follows d d' :=
  .of_node hi.nextId fun x n' hn' ↦ by
    obtain ⟨n, hn, hp⟩ := hi.node x n' hn'
    exact ⟨n, hn, hp, hh x n n' hn hn'⟩

theorem altered {edit : Edit} (ha : Alters d edit d') : Follows d d' where
  next := ha.next
  old y n' hy hn' := by
    obtain ⟨n, hn, hp, hh, -⟩ := ha.node y n' hy hn'
    exact ⟨n, hn, hp, hh⟩
  held x n' hn' hne := by
    by_cases hx : x < d.nextId
    · obtain ⟨n, hn, hp, hh, -⟩ := ha.node x n' hx hn'
      exact ⟨x, n, hn, hp, hh⟩
    · obtain ⟨-, -, hheld⟩ := ha.fresh x n' (Nat.not_lt.mp hx) hn'
      obtain ⟨old, n, hn, hp, hh⟩ := hheld hne
      exact ⟨old, n, hn, hp, hh⟩

theorem push (hh : n.holders = []) : Follows d (d.push n) where
  next := by simp
  old y m hy hm := by
    rw [node?_push, if_neg (Nat.ne_of_lt hy)] at hm
    exact ⟨m, hm, rfl, rfl⟩
  held x m hm hne := by
    rcases node?_of_push hm with ⟨-, rfl⟩ | hm
    · exact absurd hh hne
    · exact ⟨x, m, hm, rfl, rfl⟩

theorem congr_nodes (hn : d'.nodes = d.nodes) : Follows d d' :=
  .of_node (by simp only [nextId, hn]) fun x n' hn' ↦
    ⟨n', by simpa only [Document.node?, hn] using hn', rfl, rfl⟩

theorem enroll (hh : n.holders = []) : Follows d (d.enroll b n) :=
  (push hh).trans (.congr_nodes rfl)

theorem alike (ha : Alike d d') : Follows d d' :=
  .of_node ha.nextId fun x n' hn' ↦ by
    obtain ⟨n, hn, he⟩ := ha.node? hn'
    obtain ⟨hp, hh, -⟩ := Node.fields_of_bare he
    exact ⟨n, hn, hp, hh⟩

theorem supersede (d : Document) (source : DocumentId) : Follows d (d.supersede source).2 := by
  unfold Document.supersede
  split
  · exact .congr_nodes rfl
  · next o _ =>
    refine .of_node (foldl_evict_fields _ _).1 fun x n' hn' ↦ ⟨n', ?_, rfl, rfl⟩
    exact (node?_of_foldl_evict hn').2

theorem reset (h : Linked d) : Follows d d.reset :=
  .of_node (nextId_reset h) fun x n' hn' ↦ by
    obtain ⟨n, hn, rfl⟩ := node?_reset h hn'
    exact ⟨n, hn, rfl, rfl⟩

theorem withOverlay (h : Linked d) (other : Document) : Follows d (d.withOverlay other) :=
  (withOverlay_induction (C := Follows d) (M := Follows d) h other
    ((supersede d other.id).trans (.push rfl)) (fun _ _ _ _ _ _ _ hf _ _ _ ↦ hf.trans (.enroll rfl))
    fun _ _ _ hf ↦ (hf.trans (.alike (.recordEdges _ _))).trans (.congr_nodes rfl)).2.2

end Follows

/-- What is lent to other blocks has a parent of its own outside the main tree. -/
def Lent (d : Document) : Prop :=
  ∀ x n, d.node? x = some n → n.holders ≠ [] → ∃ p, n.parent = some p ∧ ¬ Below d root p

namespace Lent

theorem follows (h : Lent d) (hl : Linked d) (hf : Follows d d') : Lent d' := by
  intro x n' hn' hne
  obtain ⟨y, n, hn, hpar, hh⟩ := hf.held x n' hn' hne
  obtain ⟨p, hp, hnot⟩ := h y n hn (hh ▸ hne)
  have hlt : p < d.nextId := Nat.lt_trans (hl.older y n p hn hp) (lt_nextId hn)
  refine ⟨p, hpar.trans hp, fun hb ↦ hnot (below_of_older hl.older hlt (fun z m hz hm ↦ ?_) hb)⟩
  obtain ⟨m₀, hm₀, hp₀, -⟩ := hf.old z m hz hm
  exact ⟨m₀, hm₀, hp₀⟩

theorem lend (h : Lent d) (hn : d.node? t = some n) (hp : n.parent = some p)
    (hnot : ¬ Below d root p) (b : NodeId) : Lent (d.lend b t) := by
  intro x m hm hne
  obtain ⟨m₀, hm₀, hpar, hsame⟩ := node?_of_lend hm
  by_cases hx : x = t
  · subst hx
    rw [hn] at hm₀
    cases hm₀
    exact ⟨p, hpar.trans hp, fun hb ↦ hnot (below_lend.mp hb)⟩
  · obtain ⟨q, hq, hnot⟩ := h x m₀ hm₀ (hsame hx ▸ hne)
    exact ⟨q, hpar.trans hq, fun hb ↦ hnot (below_lend.mp hb)⟩

theorem merge (h : Lent d) (hl : Linked d) (other : Document) : Lent (d.merge other).2 := by
  have hroot := overlayId_ne_root hl other
  obtain ⟨hw, hf⟩ := withOverlay_spec hl other
  -- the overlay stays without a parent, so what is lent from it is not in the main tree
  refine (merge_of_withOverlay (M := fun d' ↦ Lent d' ∧
    ∃ n, d'.node? (d.overlayId other) = some n ∧ n.parent = none) hl other
    ⟨hw, hf, h.follows hl (.withOverlay hl other), hf.top⟩ ?_ ?_).2.1
  · rintro d' b t n p hd ⟨hQ, m, hm, htop⟩ - hn - hp - hb -
    refine ⟨hQ.lend hn hp (fun hpb ↦ ?_) b, ?_⟩
    · rcases hb.eq_or_parent hn hp with rfl | hb
      · rw [hn] at hm
        cases hm
        simp [htop] at hp
      · rcases hpb.total hb with hb | hb
        · refine hroot (hb.eq_of_top fun m' hm' ↦ ?_)
          rw [hm] at hm'
          cases hm'
          exact htop
        · exact hd.not_below_root hroot hb
    · obtain ⟨m', hm', hp'⟩ := node?_lend_of_some hm b t
      exact ⟨m', hm', hp'.trans htop⟩
  · rintro d' b name kind hd ⟨hQ, m, hm, htop⟩ -
    exact ⟨hQ.follows hd (.enroll rfl), m,
      node?_enroll_of_some hm b _, htop⟩

end Lent

/-- What is lent is lent to one block, and nothing around it is lent. -/
def LentOnce (d : Document) : Prop :=
  ∀ x n, d.node? x = some n → n.holders ≠ [] → n.holders.length = 1 ∧
    ∀ y m, Below d y x → y ≠ x → d.node? y = some m → m.holders = []

namespace LentOnce

theorem follows (h : LentOnce d) (hl : Linked d) (hf : Follows d d') : LentOnce d' := by
  intro x n' hn' hne
  obtain ⟨z, n, hn, hpar, hh⟩ := hf.held x n' hn' hne
  obtain ⟨hone, haround⟩ := h z n hn (hh ▸ hne)
  refine ⟨hh ▸ hone, fun y m hb hy hm ↦ ?_⟩
  cases hp : n.parent with
  | none => exact absurd (hb.eq_of_top fun m' hm' ↦ by
      rw [hn'] at hm'
      cases hm'
      exact hpar.trans hp).symm hy
  | some p =>
    -- the way up from the parent is as it was
    have hlt := hl.older z n p hn hp
    have hpz := Nat.lt_trans hlt (lt_nextId hn)
    have hb' := (hb.eq_or_parent hn' (hpar.trans hp)).resolve_left (Ne.symm hy)
    have hbp : Below d y p := below_of_older hl.older hpz (fun w m hw hm ↦ by
      obtain ⟨m₀, hm₀, hp₀, -⟩ := hf.old w m hw hm
      exact ⟨m₀, hm₀, hp₀⟩) hb'
    have hyp := hbp.le hl.older
    obtain ⟨m₀, hm₀, -, hh₀⟩ := hf.old y m (Nat.lt_of_le_of_lt hyp hpz) hm
    rw [hh₀]
    exact haround y m₀ (.step hbp hn hp) (Nat.ne_of_lt (Nat.lt_of_le_of_lt hyp hlt)) hm₀

theorem lend (h : LentOnce d) (hn : d.node? t = some n) (hh : n.holders = [])
    (ht : Lendable d b t) : LentOnce (d.lend b t) := by
  have hnode : ∀ x m, (d.lend b t).node? x = some m → x ≠ t → d.node? x = some m := by
    intro x m hm hx
    rwa [node?_lend, if_neg hx.symm] at hm
  intro x m hm hne
  by_cases hx : x = t
  · subst hx
    rw [node?_lend, if_pos rfl, hn] at hm
    cases hm
    refine ⟨by simp [hh], fun y m' hb hy hm' ↦ ?_⟩
    exact ht.around y m' (below_lend.mp hb) (hnode y m' hm' hy)
  · have hm₀ := hnode x m hm hx
    obtain ⟨hone, haround⟩ := h x m hm₀ hne
    refine ⟨hone, fun y m' hb hy hm' ↦ ?_⟩
    have hb' := below_lend.mp hb
    by_cases hyt : y = t
    · subst hyt
      exact absurd (ht.below x m hb' hm₀) hne
    · exact haround y m' hb' hy (hnode y m' hm' hyt)

theorem merge (h : LentOnce d) (hl : Linked d) (other : Document) : LentOnce (d.merge other).2 := by
  obtain ⟨hw, hf⟩ := withOverlay_spec hl other
  refine (merge_of_withOverlay (M := LentOnce) hl other
    ⟨hw, hf, h.follows hl (.withOverlay hl other)⟩ ?_ ?_).2
  · rintro d' b t n p hd hQ - hn hh - - - ht
    exact hQ.lend hn hh ht
  · rintro d' b name kind hd hQ -
    exact hQ.follows hd (.enroll rfl)

end LentOnce

namespace Reached

variable {allowed : Document → Edit → Prop}

/-- What documents hand on to those that follow them, and a merge keeps, holds everywhere. -/
theorem follows_induction {P : Document → Prop} (hnew : ∀ id config, P (.new id config))
    (hfollows : ∀ {d d'}, P d → Linked d → Follows d d' → P d')
    (hmerge : ∀ {d} other, P d → Linked d → P (d.merge other).2)
    (hd : Reached allowed d) : P d := by
  induction hd with
  | new id config => exact hnew id config
  | edit edit hd _ ih => exact hfollows ih hd.linked (.altered (alters hd.linked edit))
  | reset hd ih => exact hfollows ih hd.linked (.reset hd.linked)
  | apply w s hd ih =>
    have hc := OnlyUnstages.apply hd.linked w s
    exact hfollows ih hd.linked (.inherits hc.toInherits fun x n n' hn hn' ↦
      (hc.calm x n n' hn hn').1)
  | merge other hd ih => exact hmerge other ih hd.linked
  | takeDiagnostics hd ih => exact hfollows ih hd.linked (.congr_nodes rfl)

theorem holders_new {id : DocumentId} {config : Config}
    (hn : (Document.new id config).node? x = some n) : n.holders = [] := by
  rw [(node?_of_new hn).2]

theorem lent (hd : Reached allowed d) : Lent d :=
  hd.follows_induction (fun _ _ _ _ hn hne ↦ absurd (holders_new hn) hne) Lent.follows
    fun other h hl ↦ h.merge hl other

theorem lentOnce (hd : Reached allowed d) : LentOnce d :=
  hd.follows_induction (fun _ _ _ _ hn hne ↦ absurd (holders_new hn) hne) LentOnce.follows
    fun other h hl ↦ h.merge hl other

end Reached

end BuildScript.Document
