import BuildScript.Proofs.Fidelity
import BuildScript.Proofs.BorrowsUnstaged

namespace BuildScript

theorem Node.isBlock_currentKind (n : Node) : n.currentKind.isBlock = n.isBlock := by
  rw [currentKind]
  cases n.value? with
  | none => rfl
  | some v => cases h : n.kind <;> simp [Node.isBlock, Kind.withValue, Kind.isBlock, h]

namespace Document

variable {d other : Document} {b lo x y : NodeId} {name : String} {n : Node}

/-- A block shows a property of a name that a merge copies. -/
def Offers (d : Document) (b : NodeId) (name : String) : Prop :=
  ∃ e ∈ d.entries b, d.declares name e ∧ ¬ (d.node? e.node).any (·.tag = .inclusion)

instance (d : Document) (b : NodeId) (name : String) : Decidable (d.Offers b name) :=
  inferInstanceAs (Decidable (∃ e ∈ d.entries b, _))

/-- A block recovers nothing under a name, and gets nothing when a block of that name is folded into
it: that goes into a block that is only staged, or into a new one whose name reads otherwise. -/
def Forfeits (d : Document) (b : NodeId) (name : String) : Prop :=
  ¬ d.Recovers b name ∧ ((d.propertyNamed? b name).any d.isBlockAt ∨
    d.propertyNamed? b name = none ∧ (d.config.kindOf name (d.enclosing b)).isSome ∧
      (Name.parse name).full ≠ name)

instance (d : Document) (b : NodeId) (name : String) : Decidable (d.Forfeits b name) :=
  inferInstanceAs (Decidable (¬ d.Recovers b name ∧ (_ ∨ _)))

theorem Offers.lastNamed? (h : d.Offers b name) : (d.lastNamed? b name).isSome := by
  obtain ⟨e, he, hdecl, hno⟩ := h
  obtain ⟨hvisible, n, hn, hvar, hname⟩ := declares_iff.mp hdecl
  have htag : n.tag ≠ .inclusion := by simpa [hn] using hno
  obtain ⟨s, hs, he⟩ := mem_entries.mp he
  rw [Document.lastNamed?, Option.isSome_iff_ne_none, Ne, List.getLast?_eq_none_iff]
  refine List.ne_nil_of_mem (a := e.node) ?_
  rw [query, hs]
  refine List.mem_map_of_mem (List.mem_filter.mpr ⟨he, ?_⟩)
  rw [Entry.isVisible] at hvisible
  cases hst : e.state <;>
    simp_all [EntryState.isVisible, Node.isCalled, Name.isCalled]

theorem Mirrors.isBlockAt {fuel : Nat} (h : Mirrors other d lo fuel x y) :
    d.isBlockAt y = other.isBlockAt x := by
  obtain ⟨-, n, hn, hgist, -⟩ := h
  obtain ⟨k, hk, he⟩ := Option.map_eq_some_iff.mp hgist
  simp only [Node.gist, Prod.mk.injEq] at he
  rw [Document.isBlockAt, Document.isBlockAt, hn, hk, Option.any_some, Option.any_some,
    Node.isBlock, he.2, Node.isBlock_currentKind]

theorem declares_fresh {state : EntryState} (hst : state.isVisible) (hn : d.node? x = some n)
    (hvar : n.isVariable = false) (hname : n.name.full = name) :
    d.declares name (.fresh x state false) :=
  declares_iff.mpr ⟨hst, n, hn, hvar, hname⟩

/-- What the overlay answers with is a copy of the last declaration that its document offers. -/
theorem overlay_answers (hl : Linked d) (hother : Linked other) (hoffers : other.Offers root name) :
    ∃ x t, other.lastNamed? root name = some x ∧
      (d.withOverlay other).propertyNamed? (d.overlayId other) name = some t ∧
      (d.withOverlay other).isBlockAt t = other.isBlockAt x := by
  obtain ⟨x, hx⟩ := Option.isSome_iff_exists.mp hoffers.lastNamed?
  obtain ⟨fuel, hfuel⟩ : ∃ fuel, other.nodes.size = fuel + 1 := by
    obtain ⟨n, hn, -⟩ := hother.root
    exact Nat.exists_eq_add_one_of_ne_zero (Nat.ne_zero_of_lt (lt_nextId hn))
  have hfilled := filled_withOverlay hl other
  rw [hfuel] at hfilled
  have hanswer := hfilled.propertyNamed? name
  rw [hx] at hanswer
  generalize ht : (d.withOverlay other).propertyNamed? (d.overlayId other) name = t? at hanswer
  cases hanswer with
  | some hmirrors => exact ⟨x, _, hx, rfl, hmirrors.isBlockAt⟩

/-- A merge folds the overlay into the root, and changes no node on the way. -/
theorem folded_merge (hd : Rooted d) (other : Document) :
    (∃ depth, Folded (d.withOverlay other) (d.merge other).2 (d.withOverlay other).nextId
      (depth + 1) root (d.overlayId other)) ∧
      ∀ x < (d.withOverlay other).nextId,
        (d.merge other).2.face? x = (d.withOverlay other).face? x := by
  obtain ⟨hgrows, hfolded⟩ := folds_withOverlay hd other
  obtain ⟨depth, hdepth⟩ : ∃ depth, (d.withOverlay other).nodes.size = depth + 1 :=
    Nat.exists_eq_add_one_of_ne_zero
      (Nat.ne_zero_of_lt (overlayAppended_withOverlay hd.linked other).next)
  rw [merge_document]
  exact ⟨⟨depth, hdepth ▸ hfolded⟩, hgrows.face⟩

section supersede

variable (hl : Linked d) (other : Document)

include hl

theorem entries_withOverlay_root :
    (d.withOverlay other).entries root = (d.supersede other.id).2.entries root :=
  entries_congr ((overlayAppended_withOverlay hl other).store root (lt_overlayId hl other))

theorem face?_withOverlay_of_mem {e : Entry} (he : e ∈ (d.supersede other.id).2.entries root) :
    (d.withOverlay other).face? e.node = (d.supersede other.id).2.face? e.node :=
  (overlayAppended_withOverlay hl other).face e.node ((hl.supersede other.id).lt_of_mem_entries he)

theorem propertyNamed?_withOverlay_root (name : String) :
    (d.withOverlay other).propertyNamed? root name =
      (d.supersede other.id).2.propertyNamed? root name :=
  propertyNamed?_congr (entries_withOverlay_root hl other) fun _ he ↦
    face?_withOverlay_of_mem hl other he

end supersede

theorem Recovers.merge (hd : d.Reachable) (other : Document)
    (h : (d.supersede other.id).2.Recovers root name) : (d.merge other).2.Recovers root name := by
  have hl := hd.linked
  obtain ⟨⟨depth, new, hentries, -⟩, hface⟩ := folded_merge hd.rooted other
  obtain ⟨e, he, hst, hdecl⟩ := h
  have hold := (entries_withOverlay_root hl other).symm ▸ he
  refine ⟨e, hentries ▸ List.mem_append_left _ hold, hst, ?_⟩
  have hlt := Nat.lt_trans ((hl.supersede other.id).lt_of_mem_entries he)
    (overlayAppended_withOverlay hl other).next
  rwa [declares_congr (e := e.revert)
    ((hface e.node hlt).trans (face?_withOverlay_of_mem hl other he))]

theorem recovers_merge (hd : d.Reachable) (hother : Linked other) (hoffers : other.Offers root name)
    (hkept : (other.lastNamed? root name).any other.isBlockAt →
      ¬ (d.supersede other.id).2.Forfeits root name) : (d.merge other).2.Recovers root name := by
  by_cases hrecovers : (d.supersede other.id).2.Recovers root name
  · exact hrecovers.merge hd other
  have hl := hd.linked
  have happended := overlayAppended_withOverlay hl other
  have hlt := lt_overlayId hl other
  obtain ⟨x, t, hx, ht, hblock⟩ := overlay_answers hl hother hoffers
  obtain ⟨⟨depth, new, hentries, hfates⟩, hface⟩ := folded_merge hd.rooted other
  have hfate := hfates (name, t) (mem_propertyMap.mpr ht)
  have hmem : ∀ e, new (name, t) = some e → e ∈ (d.merge other).2.entries root := fun e he ↦ by
    rw [hentries]
    exact List.mem_append_right _ (List.mem_filterMap.mpr ⟨_, mem_propertyMap.mpr ht, he⟩)
  have hanswer := propertyNamed?_withOverlay_root hl other name
  have hoffered : (d.withOverlay other).isBlockAt t →
      (other.lastNamed? root name).any other.isBlockAt :=
    fun htb ↦ by rwa [hx, Option.any_some, ← hblock]
  generalize new (name, t) = e? at hfate hmem
  cases hfate with
  | both hmine hblock' htb _ =>
    rw [hanswer] at hmine
    refine absurd ⟨hrecovers, .inl ?_⟩ (hkept (hoffered htb))
    rw [hmine, Option.any_some, ← isBlockAt_congr (happended.face _ (lt_of_propertyNamed? hmine))]
    exact hblock'
  | @made _ f _ kind hnone hkind htb _ hfresh _ =>
    have hroot : (d.merge other).2.face? root = (d.supersede other.id).2.face? root :=
      (hface root (Nat.lt_trans hlt happended.next)).trans (happended.face root hlt)
    rw [config_withOverlay hl, enclosing_congr hroot] at hkind
    obtain ⟨n, hn, hn'⟩ := Option.map_eq_some_iff.mp hfresh
    simp only [Node.face, Prod.mk.injEq] at hn'
    refine .of_declares (hmem _ rfl) rfl (declares_fresh rfl hn ?_ ?_)
    · rw [Node.isVariable, hn'.2.1]
      rfl
    · rw [hn'.1]
      by_contra hread
      refine hkept (hoffered htb) ⟨hrecovers, .inr ⟨hanswer ▸ hnone, ?_, hread⟩⟩
      rw [config_supersede, hkind]
      rfl
  | lent =>
    obtain ⟨e, -, hdecl, he, -⟩ := pick_of_propertyNamed? ht
    obtain ⟨-, n, hn, hvar, hname⟩ := declares_iff.mp hdecl
    rw [he] at hn
    refine .of_declares (e := .fresh t .applied false) (hmem _ rfl) rfl ?_
    rw [declares_congr (e := .fresh t .applied false) (hface t (lt_of_propertyNamed? ht))]
    exact declares_fresh rfl hn hvar hname

/-- What a document offers in its root is found after a merge and a reset. -/
theorem propertyNamed?_reset_merge (hd : d.Reachable) (hother : other.Reachable)
    (hoffers : other.Offers root name)
    (hkept : (other.lastNamed? root name).any other.isBlockAt →
      ¬ (d.supersede other.id).2.Forfeits root name) :
    ((d.merge other).2.reset.propertyNamed? root name).isSome := by
  have hafter : (d.merge other).2.Reachable := .merge other hd
  exact hafter.borrowsUnstaged.propertyNamed?_reset hafter.linked (.root hafter.linked)
    (recovers_merge hd hother.linked hoffers hkept)

/-- A size is staged in the theme that the root has borrowed. The theme of the fonts goes into the
same block, and the reset takes back the size only. -/
theorem propertyNamed?_reset_merge_fonts :
    let d := ((Edit.add 2 (.literal ⟨["size"]⟩ (.integer 12))).run colouredDocument).2
    d.Reachable ∧ fontsDocument.Reachable ∧ d.hasStagedChanges = true ∧
      ((d.merge fontsDocument).2.reset.propertyNamed? root "theme").isSome := by
  intro d
  have hd : d.Reachable := .edit _ (.merge _ (.new _ _)) trivial
  have hfonts : fontsDocument.Reachable := .edit _ (.new _ _) trivial
  exact ⟨hd, hfonts, by decide +kernel, propertyNamed?_reset_merge hd hfonts (by decide +kernel)
    fun _ ↦ by decide +kernel⟩

/-- The theme of the fonts goes into a theme that is only staged, and goes away with it. -/
theorem propertyNamed?_lost_by_reset :
    let d := ((Edit.add root { name := ⟨["theme"]⟩, kind := .block "theme" }).run
      (.new ⟨"app"⟩ {})).2
    d.Reachable ∧ fontsDocument.Reachable ∧ fontsDocument.Offers root "theme" ∧
      (d.merge fontsDocument).2.reset.propertyNamed? root "theme" = none :=
  ⟨.edit _ (.new _ _) trivial, .edit _ (.new _ _) trivial, by decide +kernel, by decide +kernel⟩

end Document

end BuildScript
