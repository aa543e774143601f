import BuildScript.Proofs.Owned.Merge
import BuildScript.Proofs.Owned.Reset
import BuildScript.Proofs.Reachable

namespace BuildScript

namespace Document

variable {full : Prop} {d : Document} {b x : NodeId} {n : Node} {e : Entry} {s : Store}

theorem editKeeps_overlays : EditKeeps fun d d' ↦ d'.overlays = d.overlays where
  trans h h' := h'.trans h
  alike h := h.overlays
  extend _ h := h.overlays
  modifyStore _ _ _ := rfl
  setHolders _ _ _ := rfl
  setPending _ _ _ := rfl

theorem overlays_run (h : Linked d) (edit : Edit) : (edit.run d).2.overlays = d.overlays :=
  editKeeps_overlays.edit h edit

theorem overlays_reset (h : Linked d) : d.reset.overlays = d.overlays := by
  obtain ⟨l, he⟩ := reset_eq_evict h
  rw [he]
  exact (foldl_evict_fields l _).2.2.1.trans (foldl_modifyStore_fields _ _ _).2.2.1

theorem owned_new (full : Prop) (id : DocumentId) (config : Config) :
    Owned full [] (fun _ ↦ False) (Document.new id config) := by
  refine ⟨linked_new id config, fun b s e hs he ↦ absurd he (not_mem_new hs), by simp,
    fun x n hn _ ↦ .inl (node?_of_new hn).1, fun x n hn hh ↦ ?_, fun x n p s hn hp ↦ ?_,
    fun x n p hn hp ↦ ?_, ?_⟩
  · simp [(node?_of_new hn).2] at hh
  · simp [(node?_of_new hn).2] at hp
  · simp [(node?_of_new hn).2] at hp
  · simp [Document.new, Document.push]

/-- With changes to the main tree only it stays clear who owns what. If they are proper, every node
has a container around it. -/
theorem Reached.owned {allowed : Document → Edit → Prop}
    (ha : ∀ d edit, allowed d edit → InMainTree d edit ∧ (full → edit.isProper))
    (hd : Reached allowed d) : Owned full d.overlays (fun _ ↦ False) d := by
  induction hd with
  | new id config => exact owned_new full id config
  | edit edit _ hall ih =>
    obtain ⟨hmain, hproper⟩ := ha _ _ hall
    rw [overlays_run ih.linked edit]
    exact ih.edit hmain hproper
  | reset _ ih =>
    rw [overlays_reset ih.linked]
    exact ih.reset
  | apply w s _ ih =>
    obtain ⟨ho, hi⟩ := ih.apply w s
    rw [hi.overlays]
    exact ho
  | merge other _ ih => exact ih.merge other
  | takeDiagnostics _ ih =>
    exact ih.of_tables (ih.linked.of_tables rfl rfl ih.linked.sources) rfl rfl ih.sources

/-- Stores belong to the live containers and list live nodes, none of them twice. A live node is the
root, or an overlay, or listed once by the container around it. A block borrows what it does not
own, and only from overlays. -/
structure Ownership (d : Document) : Prop where
  keyed : ∀ i, (d.store? i).isSome ↔ ∃ n, d.node? i = some n ∧ n.isContainer
  live : ∀ b s e, d.store? b = some s → e ∈ s.entries → d.isLive e.node
  distinct : ∀ b s, d.store? b = some s → s.nodes.Nodup
  listed : ∀ x n, d.node? x = some n → x ≠ root → x ∉ d.overlays →
    ∃ p m s, n.parent = some p ∧ d.node? p = some m ∧ m.isContainer ∧ d.store? p = some s ∧
      s.nodes.count x = 1
  borrowed : ∀ b s e n, d.store? b = some s → e ∈ s.entries → d.node? e.node = some n →
    n.parent ≠ some b →
    e.state = .applied ∧ b ∈ n.holders ∧ ∃ o ∈ d.overlays, o ∈ d.lineage e.node
  own : ∀ b s e n, d.store? b = some s → e ∈ s.entries → d.node? e.node = some n →
    n.parent = some b → e.state ≠ .applied

theorem Owned.ownership (h : Owned True d.overlays (fun _ ↦ False) d) : Ownership d where
  keyed i := by rw [h.linked.keyed, Option.any_eq_true]
  live b s e hs he := by
    obtain ⟨n, hn, -⟩ := (h.entry b s e hs he).owner
    exact isLive_iff.mpr ⟨n, hn⟩
  distinct b s hs := (h.linked.store b s hs).nodup
  listed x n hn hroot hov := by
    cases hp : n.parent with
    | none => exact absurd (h.top x n hn hp) (not_or.mpr ⟨hroot, hov⟩)
    | some p =>
      obtain ⟨s, hs⟩ := Option.isSome_iff_exists.mp (h.listsOwned x n p hn hp (.inl trivial))
      obtain ⟨m, hm, hc⟩ := h.linked.isContainer_of_store? hs
      have hmem := (h.listed x n p s hn hp hs).resolve_left not_false
      exact ⟨p, m, s, rfl, hm, hc, hs, List.count_eq_one_of_mem (h.linked.store p s hs).nodup hmem⟩
  borrowed b s e n hs he hn hp := by
    obtain ⟨m, hm, hiff⟩ := (h.entry b s e hs he).owner
    rw [hn] at hm
    cases hm
    have hhold := h.linked.mem_holders hs he hn hp
    obtain ⟨o, ho, hb⟩ := h.held _ n hn (List.ne_nil_of_mem hhold)
    obtain ⟨-, m, hm, -⟩ := h.overlay o ho
    refine ⟨Classical.not_not.mp fun ha ↦ hp (hiff.mpr ha), hhold, o, ho, ?_⟩
    exact (mem_lineage h.linked.older).mpr
      ⟨isLive_iff.mpr ⟨n, hn⟩, isLive_iff.mpr ⟨m, hm⟩, hb⟩
  own b s e n hs he hn hp := by
    obtain ⟨m, hm, hiff⟩ := (h.entry b s e hs he).owner
    rw [hn] at hm
    cases hm
    exact hiff.mp hp

/-- The changes that are addressed to the main tree and give children to blocks and maps only. -/
def IsOrderly (d : Document) (edit : Edit) : Prop := InMainTree d edit ∧ edit.isProper

instance (d : Document) (edit : Edit) : Decidable (IsOrderly d edit) :=
  inferInstanceAs (Decidable (InMainTree d edit ∧ edit.isProper))

theorem reached_stagedDocument : Reached IsOrderly stagedDocument :=
  .edit _ (.edit _ (.merge libraryDocument (.edit _ (.new ⟨"app"⟩ {}) (by decide))) (by decide))
    (by decide)

/-- Merges, resets, values and runs under any writer may come in any order with orderly changes. -/
theorem ownership_of_reached (hd : Reached IsOrderly d) : Ownership d := by
  have ho : Owned True d.overlays (fun _ ↦ False) d :=
    hd.owned fun _ _ ha ↦ ⟨ha.1, fun _ ↦ ha.2⟩
  exact ho.ownership

/-- The staged block is refused, and the overlay is put away by another merge of its source. -/
theorem ownership_of_refused_creation :
    Reached IsOrderly ((stagedDocument.apply (.refusing [(.create, "signing")]) 0).document.merge
      libraryDocument).2 ∧
    Ownership ((stagedDocument.apply (.refusing [(.create, "signing")]) 0).document.merge
      libraryDocument).2 := by
  have hd : Reached IsOrderly
      ((stagedDocument.apply (.refusing [(.create, "signing")]) 0).document.merge
        libraryDocument).2 := .merge _ (.apply _ _ reached_stagedDocument)
  exact ⟨hd, ownership_of_reached hd⟩

end Document

end BuildScript
