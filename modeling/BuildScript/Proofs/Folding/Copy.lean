import BuildScript.Proofs.Folding.Growth

namespace BuildScript

def Name.IsRegular (n : Name) : Prop :=
  n.parts = [] ∨ ∀ segment ∈ n.full.toList.splitOnP (· == '.'), segment ≠ []

instance (n : Name) : Decidable n.IsRegular := inferInstanceAs (Decidable (_ ∨ _))

/-- A regular name is what its text is read as. -/
theorem Name.IsRegular.full_parse {n : Name} (h : n.IsRegular) :
    (Name.parse n.full).full = n.full := by
  rcases h with h | h
  · rw [show n = .empty from congrArg Name.mk h]
    rfl
  · have hall : (n.full.toList.splitOnP (· == '.')).filter (!·.isEmpty) =
        n.full.toList.splitOnP (· == '.') :=
      List.filter_eq_self.mpr fun segment hs ↦ by simpa using h segment hs
    have hjoin : ['.'].intercalate (n.full.toList.splitOnP (· == '.')) = n.full.toList :=
      List.intercalate_splitOn '.'
    refine String.toList_injective ?_
    rw [full, parse, hall, String.toList_intercalate, List.map_map]
    simpa [Function.comp_def] using hjoin

namespace Document

variable {d d' other : Document} {b c o x : NodeId} {n : Node} {s : Store}

theorem config_recordEdges (d : Document) (i : NodeId) : (d.recordEdges i).config = d.config :=
  List.foldlRecOn (motive := fun d' : Document ↦ d'.config = d.config) _ _ rfl fun _ h _ _ ↦ h

/-- The document `d` with an overlay from `d.nextId` on, as far as it is copied. -/
structure OverlayAppended (d d' : Document) : Prop where
  next : d.nextId < d'.nextId
  config : d'.config = d.config
  face : ∀ x, x < d.nextId → d'.face? x = d.face? x
  store : ∀ x, x < d.nextId → d'.store? x = d.store? x
  below : ∀ x, d.nextId ≤ x → x < d'.nextId → Below d' d.nextId x
  applied : d'.appliedCount = d.appliedCount

namespace OverlayAppended

theorem push (hsizes : d.stores.size = d.nodes.size) : OverlayAppended d (d.push overlayNode) where
  next := by simp
  config := rfl
  face x hx := by rw [face?, node?_push, if_neg (Nat.ne_of_lt hx), face?]
  store x hx := by rw [store?_push hsizes, if_neg (Nat.ne_of_lt hx)]
  below x hx hx' := by
    rw [nextId_push] at hx'
    obtain rfl : x = d.nextId := by lia
    exact .refl
  applied := appliedCount_push hsizes _

theorem enroll (h : OverlayAppended d d') (hl : Linked d') (hb : d.nextId ≤ b)
    (hs : d'.store? b = some s) (hp : n.parent = some b) : OverlayAppended d (d'.enroll b n) := by
  have hext := Extends.enroll hl b n
  have hnext := nextId_enroll d' b n
  have hmono : ∀ {x}, Below d' d.nextId x → Below (d'.enroll b n) d.nextId x := (·.enroll b n)
  refine ⟨Nat.lt_trans h.next (hnext ▸ Nat.lt_succ_self _), h.config, fun x hx ↦ ?_, fun x hx ↦ ?_,
    fun x hx hx' ↦ ?_, (appliedCount_enroll hl.sizes b n).trans h.applied⟩
  · rw [face?, hext.node x (Nat.lt_trans hx h.next)]
    exact h.face x hx
  · have hne : x ≠ b := Nat.ne_of_lt (Nat.lt_of_lt_of_le hx hb)
    rw [hext.store x (Nat.lt_trans hx h.next) hne, h.store x hx]
  · by_cases hlt : x < d'.nextId
    · exact hmono (h.below x hx hlt)
    · obtain rfl : x = d'.nextId := by lia
      refine .step (hmono (h.below b hb (hl.lt_of_store? hs))) (n := n) ?_ hp
      rw [node?_enroll, if_pos rfl]

theorem announced (h : OverlayAppended d d') (i : NodeId) (source : DocumentId) (o : NodeId) :
    OverlayAppended d ((d'.recordEdges i).announce source o) := by
  have ha : Alike d' (d'.recordEdges i) := .recordEdges d' i
  have hface : ∀ x, ((d'.recordEdges i).announce source o).face? x = d'.face? x := fun x ↦ by
    have hbare := congrArg (Option.map Node.face) (ha.bare x)
    rwa [Option.map_map, Option.map_map] at hbare
  have hnext : ((d'.recordEdges i).announce source o).nextId = d'.nextId := ha.nextId
  refine ⟨hnext ▸ h.next, (config_recordEdges d' i).trans h.config,
    fun x hx ↦ (hface x).trans (h.face x hx), fun x hx ↦ (ha.store? x).trans (h.store x hx),
    fun x hx hx' ↦ ?_, ?_⟩
  · refine (h.below x hx (hnext ▸ hx')).mono fun y m hm ↦ ?_
    obtain ⟨m', hm', -, -, hp⟩ := node?_of_face? (hface y) hm
    exact ⟨m', hm', hp⟩
  · refine (appliedCount_congr hnext fun b ↦ ?_).trans h.applied
    have hb : ((d'.recordEdges i).announce source o).entries b = d'.entries b :=
      entries_congr (ha.store? b)
    rw [hb]

end OverlayAppended

theorem overlayId_eq (hnew : d.overlaySources.lookup other.id = none) :
    d.overlayId other = d.nextId := by
  rw [overlayId, supersede, hnew]

/-- A merge leaves what there was as it is once an earlier overlay of the same document is put away,
and puts the new overlay beside it. -/
theorem overlayAppended_withOverlay (h : Linked d) (other : Document) :
    OverlayAppended (d.supersede other.id).2 (d.withOverlay other) :=
  (withOverlay_induction (C := OverlayAppended (d.supersede other.id).2)
    (M := OverlayAppended (d.supersede other.id).2) h other (.push (h.supersede other.id).sizes)
    (fun _ _ _ _ _ hd _ hC hle hs _ ↦ hC.enroll hd hle hs rfl)
    fun _ _ _ hC ↦ hC.announced _ _ _).2.2

theorem regular_withOverlay (h : Linked d)
    (hnames : ∀ i n, other.node? i = some n → n.name.IsRegular) (hx : d.overlayId other ≤ x)
    (hn : (d.withOverlay other).node? x = some n) : n.name.IsRegular := by
  let Regular (d' : Document) : Prop :=
    ∀ x n, d.overlayId other ≤ x → d'.node? x = some n → n.name.IsRegular
  suffices hall : Regular (d.withOverlay other) from hall x n hx hn
  refine (withOverlay_induction (C := Regular) (M := Regular) h other ?_ ?_ ?_).2.2
  · intro x n hx hn
    rcases node?_of_push hn with ⟨-, rfl⟩ | hn
    · exact .inl rfl
    · exact absurd (lt_nextId hn) (Nat.not_lt.mpr hx)
  · intro d' target i m s _ _ hC _ _ hi x n hx hn
    rcases node?_of_enroll hn with ⟨-, rfl⟩ | hn
    · exact hnames i m hi
    · exact hC x n hx hn
  · intro d' _ _ hC x n hx hn
    obtain ⟨m, hm, he⟩ := (Alike.recordEdges d' (d.overlayId other)).node? hn
    have hname : n.bare.name = m.bare.name := by rw [he]
    exact (show n.name = m.name from hname) ▸ hC x m hx hm

theorem copyBlock_counts (other : Document) (fuel : Nat) (source target : NodeId) (m : Merging) :
    (copyBlock other fuel source target m).applied = m.applied ∧
      (copyBlock other fuel source target m).synthesized = m.synthesized := by
  induction fuel generalizing source target m with
  | zero => exact ⟨rfl, rfl⟩
  | succ fuel ih =>
    rw [copyBlock]
    refine List.foldlRecOn (motive := fun m' : Merging ↦ m'.applied = m.applied ∧
      m'.synthesized = m.synthesized) _ _ ⟨rfl, rfl⟩ fun m' hm' id _ ↦ ?_
    cases other.node? id with
    | none => exact hm'
    | some n =>
      simp only
      split
      · exact hm'
      · split
        · obtain ⟨happlied, hsynthesized⟩ := ih id m'.document.nextId
            { m' with document := m'.document.enroll target (copyOf n target) }
          exact ⟨happlied.trans hm'.1, hsynthesized.trans hm'.2⟩
        · exact hm'

end Document

end BuildScript
