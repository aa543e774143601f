import Mathlib.Data.List.Nodup
import BuildScript.Proofs.Document.Tables

namespace BuildScript.Document

variable {d : Document} {b : NodeId} {p : Node → Bool}

theorem mem_declare {new a : Answer} {l : List Answer} (h : a ∈ declare new l) :
    a = new ∨ a ∈ l := by
  induction l with
  | nil => simpa [declare] using h
  | cons old rest ih =>
    rw [declare] at h
    split at h
    · rcases List.mem_cons.mp h with rfl | h
      · split
        · exact .inr List.mem_cons_self
        · exact .inl rfl
      · exact .inr (List.mem_cons_of_mem _ h)
    · rcases List.mem_cons.mp h with rfl | h
      · exact .inr List.mem_cons_self
      · exact (ih h).imp_right (List.mem_cons_of_mem _)

theorem names_declare (new : Answer) (l : List Answer) :
    (declare new l).map (·.name) =
      if new.name ∈ l.map (·.name) then l.map (·.name) else l.map (·.name) ++ [new.name] := by
  induction l with
  | nil => rfl
  | cons old rest ih =>
    rw [declare]
    split
    · next h => split <;> simp [h]
    · next h =>
      have hne : new.name ≠ old.name := fun he ↦ h he.symm
      simp only [List.map_cons, ih, List.mem_cons, hne, false_or]
      split <;> simp

theorem names_declare_nodup {new : Answer} {l : List Answer} (h : (l.map (·.name)).Nodup) :
    ((declare new l).map (·.name)).Nodup := by
  rw [names_declare]
  split
  · exact h
  · next hn => exact List.nodup_append.mpr ⟨h, by simp, by grind⟩

theorem mem_visible {e : Entry} {n : Node} : (e, n) ∈ d.visible b p ↔
    e ∈ d.entries b ∧ e.isVisible ∧ d.node? e.node = some n ∧ p n := by
  simp only [visible, List.mem_filterMap, List.mem_filter, Option.map_eq_some_iff,
    Option.filter_eq_some_iff, Prod.mk.injEq]
  constructor
  · rintro ⟨e', ⟨he, hv⟩, n', ⟨hn, hp⟩, rfl, rfl⟩
    exact ⟨he, hv, hn, hp⟩
  · rintro ⟨he, hv, hn, hp⟩
    exact ⟨e, ⟨he, hv⟩, n, ⟨hn, hp⟩, rfl, rfl⟩

def Answer.IsFrom (d : Document) (b : NodeId) (a : Answer) : Prop :=
  ∃ e n, e ∈ d.entries b ∧ e.isVisible ∧ e.node = a.node ∧ d.node? e.node = some n ∧
    n.name.full = a.name

theorem foldl_declare {f : List Answer → Entry × Node → List Answer}
    (hf : ∀ acc q, f acc q = declare ⟨q.2.name.full, q.1.node, q.1.state = .applied⟩ acc)
    {l : List (Entry × Node)} (hl : ∀ q ∈ l, q ∈ d.visible b p) (acc : List Answer)
    (hn : (acc.map (·.name)).Nodup) (ha : ∀ a ∈ acc, Answer.IsFrom d b a) :
    ((l.foldl f acc).map (·.name)).Nodup ∧ ∀ a ∈ l.foldl f acc, Answer.IsFrom d b a := by
  induction l generalizing acc with
  | nil => exact ⟨hn, ha⟩
  | cons q l ih =>
    rw [List.foldl_cons, hf]
    refine ih (fun q hq ↦ hl q (List.mem_cons_of_mem _ hq)) _ (names_declare_nodup hn)
      fun a hmem ↦ ?_
    rcases mem_declare hmem with rfl | hmem
    · obtain ⟨he, hv, hnode, -⟩ := mem_visible.mp (hl q List.mem_cons_self)
      exact ⟨q.1, q.2, he, hv, rfl, hnode, rfl⟩
    · exact ha a hmem

/-- What the answers of a block are: visible nodes of it under their own names, each name once. -/
theorem answers_spec (d : Document) (b : NodeId) (p : Node → Bool) :
    ((d.answers b p).map Prod.fst).Nodup ∧ ∀ q ∈ d.answers b p, ∃ e n, e ∈ d.entries b ∧
      e.isVisible ∧ e.node = q.2 ∧ d.node? e.node = some n ∧ n.name.full = q.1 := by
  have hfold := foldl_declare (d := d) (b := b) (p := p) (fun _ _ ↦ rfl) (fun _ h ↦ h) []
    (by simp) (by simp)
  refine ⟨by simpa [answers, Function.comp_def] using hfold.1, fun q hq ↦ ?_⟩
  obtain ⟨a, hmem, rfl⟩ := List.mem_map.mp hq
  exact hfold.2 a hmem

theorem mem_answers {name : String} {id : NodeId} (h : (name, id) ∈ d.answers b p) :
    ∃ s n, d.store? b = some s ∧ id ∈ s.nodes ∧ d.node? id = some n ∧ n.name.full = name := by
  obtain ⟨e, n, he, -, rfl, hn, hname⟩ := (answers_spec d b p).2 _ h
  obtain ⟨s, hs, he⟩ := mem_entries.mp he
  exact ⟨s, n, hs, Store.mem_nodes_of_mem he, hn, hname⟩

theorem answers_nodes_nodup (d : Document) (b : NodeId) (p : Node → Bool) :
    ((d.answers b p).map Prod.snd).Nodup := by
  have hnames := (answers_spec d b p).1
  refine List.Nodup.map_on ?_ hnames.of_map
  rintro ⟨name, id⟩ hq ⟨name', id'⟩ hq' he
  obtain rfl : id = id' := he
  obtain ⟨-, n, -, -, hn, rfl⟩ := mem_answers hq
  obtain ⟨-, n', -, -, hn', rfl⟩ := mem_answers hq'
  rw [hn] at hn'
  cases hn'
  rfl

end BuildScript.Document
