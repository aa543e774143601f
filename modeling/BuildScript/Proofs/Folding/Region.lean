import BuildScript.Proofs.Containment
import BuildScript.Proofs.Lending

namespace BuildScript.Document

variable {d : Document} {a b c o p q x y : NodeId} {n : Node}

/-- From `a` one comes to `x` along entries for live nodes, owned or borrowed. -/
def Reaches (d : Document) : NodeId → NodeId → Prop :=
  Relation.ReflTransGen fun p x ↦ d.Contains p x ∧ d.isLive x

/-- What makes the blocks that are reached from the root a tree, borrowed ones included. -/
structure Rooted (d : Document) : Prop where
  linked : Linked d
  acyclic : Acyclic d
  lent : Lent d
  lentOnce : LentOnce d

theorem Reached.rooted {allowed : Document → Edit → Prop} (hd : Reached allowed d) : Rooted d :=
  ⟨hd.linked, hd.acyclic, hd.lent, hd.lentOnce⟩

namespace Reaches

theorem lt (h : Reaches d a x) (ha : a < d.nextId) : x < d.nextId := by
  cases h with
  | refl => exact ha
  | tail _ hstep =>
    obtain ⟨n, hn⟩ := isLive_iff.mp hstep.2
    exact lt_nextId hn

theorem eq_of_store?_eq_none (h : Reaches d a x) (hs : d.store? a = none) : x = a := by
  rcases h.cases_head with rfl | ⟨c, ⟨⟨s, hs', -⟩, -⟩, -⟩
  · rfl
  · simp [hs] at hs'

theorem contains (h : Reaches d a x) (hne : x ≠ a) : Relation.TransGen d.Contains a x := by
  rcases h.cases_tail with rfl | ⟨p, hp, hstep⟩
  · exact absurd rfl hne
  · exact .tail' (Relation.ReflTransGen.mono (fun _ _ h ↦ h.1) _ _ hp) hstep.1

/-- On the way from the root the last loan, if there is one, leads into the tree around a node. -/
theorem below_or_lent (h : Reaches d root x) (hl : Linked d) :
    Below d root x ∨ ∃ z m, Below d z x ∧ d.node? z = some m ∧ m.holders ≠ [] := by
  induction h with
  | refl => exact .inl .refl
  | @tail p x _ hstep ih =>
    obtain ⟨⟨s, hs, hx⟩, hlive⟩ := hstep
    obtain ⟨n, hn⟩ := isLive_iff.mp hlive
    rcases ((hl.store p s hs).links x hx).2 n hn with hp | hh
    · exact ih.imp (.step · hn hp) fun ⟨z, m, hb, hrest⟩ ↦ ⟨z, m, .step hb hn hp, hrest⟩
    · exact .inr ⟨x, n, .refl, hn, List.ne_nil_of_mem hh⟩

end Reaches

namespace Rooted

/-- From the root one does not come to the owner of something that is lent. -/
theorem not_reaches_owner (h : Rooted d) (hn : d.node? x = some n) (hh : n.holders ≠ [])
    (hp : n.parent = some p) : ¬ Reaches d root p := by
  intro hr
  rcases hr.below_or_lent h.linked with hb | ⟨z, m, hb, hm, hne⟩
  · obtain ⟨q, hq, hnot⟩ := h.lent x n hn hh
    rw [hp] at hq
    cases hq
    exact hnot hb
  · have hlt := Nat.lt_of_le_of_lt (hb.le h.linked.older) (h.linked.older x n p hn hp)
    exact hne ((h.lentOnce x n hn hh).2 z m (.step hb hn hp) (Nat.ne_of_lt hlt) hm)

theorem container_eq (h : Rooted d) (hp : Reaches d root p) (hq : Reaches d root q)
    (hpx : d.Contains p x) (hqx : d.Contains q x) (hx : d.isLive x) : p = q := by
  obtain ⟨n, hn⟩ := isLive_iff.mp hx
  have hlink : ∀ {b}, d.Contains b x → n.parent = some b ∨ b ∈ n.holders := fun ⟨s, hs, hx⟩ ↦
    ((h.linked.store _ s hs).links x hx).2 n hn
  rcases hlink hpx with hpp | hhp <;> rcases hlink hqx with hpq | hhq
  · exact Option.some.inj (hpp.symm.trans hpq)
  · exact absurd hp (h.not_reaches_owner hn (List.ne_nil_of_mem hhq) hpp)
  · exact absurd hq (h.not_reaches_owner hn (List.ne_nil_of_mem hhp) hpq)
  · obtain ⟨b, hb⟩ := List.length_eq_one_iff.mp
      (h.lentOnce x n hn (List.ne_nil_of_mem hhp)).1
    simp only [hb, List.mem_singleton] at hhp hhq
    exact hhp.trans hhq.symm

/-- Two ways to one node: the one goes through where the other begins. -/
theorem reaches_total (h : Rooted d) (ha : Reaches d root a) (hb : Reaches d root b)
    (hax : Reaches d a x) (hbx : Reaches d b x) : Reaches d a b ∨ Reaches d b a := by
  induction hax with
  | refl => exact .inr hbx
  | @tail p x hp hstep ih =>
    rcases hbx.cases_tail with rfl | ⟨q, hq, hstep'⟩
    · exact .inl (hp.tail hstep)
    · obtain rfl := h.container_eq (ha.trans hp) (hb.trans hq) hstep.1 hstep'.1 hstep.2
      exact ih hq

theorem not_reaches_back (h : Rooted d) (hc : d.Contains c a) : ¬ Reaches d a c := fun hr ↦ by
  by_cases hac : c = a
  · exact h.acyclic a (.single (hac ▸ hc))
  · exact h.acyclic c (.head hc (hr.contains hac))

/-- What is reached from two entries of a block are different regions. -/
theorem disjoint (h : Rooted d) (hc : Reaches d root c) (hca : d.Contains c a)
    (hcb : d.Contains c b) (ha : d.isLive a) (hb : d.isLive b) (hab : a ≠ b)
    (hax : Reaches d a x) : ¬ Reaches d b x := by
  intro hbx
  have hra : Reaches d root a := hc.tail ⟨hca, ha⟩
  have hrb : Reaches d root b := hc.tail ⟨hcb, hb⟩
  have hback : ∀ {a b}, d.Contains c a → d.Contains c b → Reaches d root a → d.isLive b → a ≠ b →
      ¬ Reaches d a b := by
    intro a b hca hcb hra hb hab hr
    rcases hr.cases_tail with rfl | ⟨p, hp, hstep⟩
    · exact hab rfl
    · obtain rfl := h.container_eq (hra.trans hp) hc hstep.1 hcb hb
      exact h.not_reaches_back hca hp
  rcases h.reaches_total hra hrb hax hbx with hr | hr
  · exact hback hca hcb hra hb hab hr
  · exact hback hcb hca hrb ha hab.symm hr

theorem withOverlay (h : Rooted d) (other : Document) : Rooted (d.withOverlay other) where
  linked := (withOverlay_spec h.linked other).1
  acyclic := h.acyclic.withOverlay h.linked other
  lent := h.lent.follows h.linked (.withOverlay h.linked other)
  lentOnce := h.lentOnce.follows h.linked (.withOverlay h.linked other)

theorem supersede (h : Rooted d) (source : DocumentId) : Rooted (d.supersede source).2 where
  linked := h.linked.supersede source
  acyclic := h.acyclic.supersede h.linked source
  lent := h.lent.follows h.linked (.supersede d source)
  lentOnce := h.lentOnce.follows h.linked (.supersede d source)

end Rooted

theorem Fresh.not_below_of_reaches (hf : Fresh o d) (hl : Linked d) (hc : ¬ Below d o c)
    (h : Reaches d c x) : ¬ Below d o x := by
  induction h with
  | refl => exact hc
  | tail _ hstep ih =>
    obtain ⟨s, hs, hx⟩ := hstep.1
    exact (hf.unlent hl).not_mem_of_listed hl ih hs hx

end BuildScript.Document
