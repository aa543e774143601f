import BuildScript.Proofs.Fidelity
import BuildScript.Proofs.Layers
import BuildScript.Proofs.Visibility

namespace BuildScript

namespace Snapshot

mutual

def withoutInclusions : Snapshot → Snapshot
  | ⟨name, tag, blockKind, value, items, method, target, children⟩ =>
    ⟨name, tag, blockKind, value, items, method, target, allWithoutInclusions children⟩

/-- An inclusion goes with all that is in it. -/
def allWithoutInclusions : List Snapshot → List Snapshot
  | [] => []
  | s :: rest =>
    if s.tag = .inclusion then allWithoutInclusions rest
    else s.withoutInclusions :: allWithoutInclusions rest

end

mutual

def inclusions : Snapshot → List String
  | ⟨name, tag, _, _, _, _, _, children⟩ =>
    (if tag = .inclusion then [name] else []) ++ allInclusions children

def allInclusions : List Snapshot → List String
  | [] => []
  | s :: rest => s.inclusions ++ allInclusions rest

end

variable (n : Node) (children : List Snapshot)

theorem tag_ofNode : (ofNode n children).tag = n.tag := by
  rw [ofNode]
  cases n.kind <;> rfl

theorem withoutInclusions_ofNode :
    (ofNode n children).withoutInclusions = ofNode n (allWithoutInclusions children) := by
  rw [ofNode, ofNode]
  cases n.kind <;> simp only [withoutInclusions]

theorem inclusions_ofNode : (ofNode n children).inclusions =
    (if n.tag = .inclusion then [n.name.full] else []) ++ allInclusions children := by
  rw [ofNode]
  cases n.kind <;> simp only [inclusions]

theorem ofNode_currentKind {n m : Node} {x : NodeId} (h : n.Fits x) (hname : m.name = n.name)
    (hkind : m.kind = n.currentKind) (hpending : m.pending = none) (children : List Snapshot) :
    ofNode m children = ofNode n children := by
  have hvalue : m.value? = n.value? := by
    rw [Node.value?, hpending, hkind, Node.value?_currentKind h.settable]
    rfl
  have htag : m.tag = n.tag := by rw [Node.tag, hkind, Node.tag_currentKind]
  rw [ofNode, ofNode, hname, hvalue, htag, hkind]
  cases hk : n.kind with
  | literal | var | block | list | map | call | inclusion =>
    rw [Node.currentKind, hk]
    cases n.value? <;> rfl

end Snapshot

namespace Document

variable {d A other : Document} {b c lo t x y z : NodeId} {n : Node} {fuel : Nat} {m : Merging}

def shownBelow (d : Document) (b : NodeId) : List Snapshot := (d.shown b).filterMap d.snapshotOf

theorem Acyclic.snapshotOf_eq (h : Acyclic d) (hl : Linked d) (x : NodeId) :
    d.snapshotOf x = (d.node? x).map fun n ↦ .ofNode n (d.shownBelow x) := by
  have hshallow := h.shallow hl x
  obtain ⟨k, hk⟩ := hshallow.pos
  rw [hk] at hshallow
  have hbelow : (d.shown x).filterMap (d.snapshotWithin k) = d.shownBelow x := by
    refine List.filterMap_congr fun y hy ↦ ?_
    rw [shown_eq] at hy
    obtain ⟨e, he, rfl⟩ := List.mem_map.mp hy
    have hc := contains_of_entries (List.mem_filter.mp he).1
    exact (hshallow.below hc).snapshotWithin_eq (Nat.le_refl k) (hk ▸ Nat.le_succ k)
  rw [snapshotOf, hk, snapshotWithin_succ, hbelow]

theorem shownBelow_of_leaf (hl : Linked d) (hn : d.node? x = some n) (hleaf : ¬ n.isContainer) :
    d.shownBelow x = [] := by
  have hstore : d.store? x = none := by
    rw [← Option.not_isSome_iff_eq_none, hl.keyed, hn]
    exact hleaf
  rw [shownBelow, shown, hstore]
  rfl

theorem allElements_eq (d : Document) (b : NodeId) :
    d.allElements b = (d.shown b).filter d.isLive := by
  rw [allElements, query, shown]
  cases d.store? b with
  | none => rfl
  | some s =>
    simp only [Store.query, Store.shown, Option.map_some, Option.getD_some, List.filter_map,
      List.filter_filter]
    congr 1
    refine List.filter_congr fun e _ ↦ ?_
    have hlive : (d.node? e.node).any (fun _ ↦ true) = d.isLive e.node := by
      rw [isLive]
      cases d.node? e.node <;> rfl
    rw [hlive, Function.comp_apply, Bool.and_comm, Entry.isVisible]
    cases e.state <;> rfl

theorem snapshotOf_of_dead (h : d.node? x = none) : d.snapshotOf x = none := by
  rw [snapshotOf]
  cases d.nodes.size with
  | zero => rfl
  | succ k => rw [snapshotWithin_succ, h, Option.map_none]

theorem shownBelow_eq (d : Document) (b : NodeId) :
    d.shownBelow b = (d.allElements b).filterMap d.snapshotOf := by
  rw [allElements_eq, List.filterMap_filter, shownBelow]
  refine List.filterMap_congr fun x _ ↦ ?_
  split
  · rfl
  · next hdead => exact snapshotOf_of_dead (by simpa [isLive] using hdead)

theorem contains_of_allElements (h : x ∈ d.allElements b) : d.Contains b x := by
  rw [allElements_eq, shown_eq] at h
  obtain ⟨e, he, rfl⟩ := List.mem_map.mp (List.mem_filter.mp h).1
  exact contains_of_entries (List.mem_filter.mp he).1

theorem copied_eq (d : Document) (b : NodeId) :
    d.copied b = (d.allElements b).filter fun x ↦ (d.node? x).any (·.tag != .inclusion) := by
  rw [allElements, filter_query]
  rfl

section Source

variable (ho : Linked other) (hoa : Acyclic other)

include ho hoa

theorem allWithoutInclusions_shownBelow (b : NodeId) :
    Snapshot.allWithoutInclusions (other.shownBelow b) =
      (other.copied b).filterMap fun x ↦ (other.snapshotOf x).map (·.withoutInclusions) := by
  rw [shownBelow_eq, copied_eq]
  generalize other.allElements b = l
  induction l with
  | nil => rfl
  | cons x l ih =>
    have hx := hoa.snapshotOf_eq ho x
    cases hn : other.node? x with
    | none => simpa [snapshotOf_of_dead hn, hn] using ih
    | some n =>
      rw [hn, Option.map_some] at hx
      by_cases htag : n.tag = .inclusion <;>
        simp [hx, hn, htag, Snapshot.allWithoutInclusions, Snapshot.tag_ofNode, ih]

theorem skipped_copyStep (ih : ∀ t m, (copyBlock other fuel x t m).skipped =
      m.skipped ++ Snapshot.allInclusions (other.shownBelow x)) (t : NodeId) (m : Merging) :
    (copyStep other fuel t m x).skipped =
      m.skipped ++ Snapshot.allInclusions (other.snapshotOf x).toList := by
  rw [copyStep, hoa.snapshotOf_eq ho]
  cases hn : other.node? x with
  | none => simp [Snapshot.allInclusions]
  | some n =>
    have hleaf : ¬ n.isContainer → other.shownBelow x = [] := shownBelow_of_leaf ho hn
    simp only [Option.map_some, Option.toList_some, Snapshot.allInclusions,
      Snapshot.inclusions_ofNode, List.append_nil]
    by_cases htag : n.tag = .inclusion
    · have hnot : ¬ n.isContainer := by
        rw [Node.tag] at htag
        rw [Node.isContainer]
        cases hk : n.kind <;> simp [hk, Kind.tag, Kind.isContainer] at htag ⊢
      simp [htag, hleaf hnot, Snapshot.allInclusions]
    · rw [if_neg htag, if_neg htag, List.nil_append]
      split
      · exact ih _ _
      · next hnot => simp [hleaf hnot, Snapshot.allInclusions]

/-- A copy notes the inclusions that a reader sees, at every depth. -/
theorem skipped_copyBlock (t : NodeId) (m : Merging) (h : other.Shallow fuel b) :
    (copyBlock other fuel b t m).skipped =
      m.skipped ++ Snapshot.allInclusions (other.shownBelow b) := by
  induction fuel generalizing b t m with
  | zero => exact absurd h.pos (by simp)
  | succ fuel ih =>
    have hbelow : ∀ x ∈ other.allElements b, other.Shallow fuel x := fun x hx ↦
      h.below (contains_of_allElements hx)
    rw [copyBlock_succ, shownBelow_eq]
    generalize other.allElements b = l at hbelow ⊢
    induction l generalizing m with
    | nil => simp [Snapshot.allInclusions]
    | cons x l ihl =>
      obtain ⟨hx, hl⟩ := List.forall_mem_cons.mp hbelow
      rw [List.foldl_cons, ihl _ hl, skipped_copyStep ho hoa fun t m ↦ ih t m hx]
      cases hs : other.snapshotOf x <;>
        simp [hs, Snapshot.allInclusions]

end Source

theorem filterMap_eq_of_forall₂ {α β γ : Type} {R : α → β → Prop} {f : α → Option γ}
    {g : β → Option γ} {l : List α} {l' : List β} (h : List.Forall₂ R l l')
    (hfg : ∀ x ∈ l, ∀ y, R x y → g y = f x) : l'.filterMap g = l.filterMap f := by
  induction h with
  | nil => rfl
  | @cons x y l l' hxy _ ih =>
    rw [List.filterMap_cons, List.filterMap_cons, hfg x List.mem_cons_self y hxy,
      ih fun x' hx' ↦ hfg x' (List.mem_cons_of_mem _ hx')]

section Copy

variable (ho : Linked other) (hoa : Acyclic other) (hl : Linked A) (ha : Acyclic A)
  (hsettled : ∀ z n, lo ≤ z → A.node? z = some n → n.pending = none)

include ho hoa

/-- A copied block shows what the block shows if that is so of what is in them. -/
theorem Filled.shownBelow_eq (h : Filled other A lo (fuel + 1) c y)
    (hshallow : other.Shallow (fuel + 1) c)
    (ih : ∀ x z, Mirrors other A lo fuel x z → other.Shallow fuel x →
      A.snapshotOf z = (other.snapshotOf x).map (·.withoutInclusions)) :
    A.shownBelow y = Snapshot.allWithoutInclusions (other.shownBelow c) := by
  obtain ⟨-, l, hlist, hfilled⟩ := filled_succ.mp h
  have hshown : A.shown y = l := by
    rw [shown_eq, entries_eq_listing?, hlist, Option.getD_some, List.filter_map, List.map_map,
      List.filter_eq_self.mpr fun z _ ↦ by rfl]
    exact List.map_id _
  rw [allWithoutInclusions_shownBelow ho hoa, shownBelow, hshown]
  refine filterMap_eq_of_forall₂ hfilled fun x hx z hxz ↦ ih x z hxz ?_
  rw [copied_eq] at hx
  exact hshallow.below (contains_of_allElements (List.mem_filter.mp hx).1)

include hl ha hsettled

/-- A copy shows what it is a copy of, without the inclusions. -/
theorem Mirrors.snapshotOf_eq (h : Mirrors other A lo fuel x z) (hshallow : other.Shallow fuel x) :
    A.snapshotOf z = (other.snapshotOf x).map (·.withoutInclusions) := by
  induction fuel generalizing x z with
  | zero => exact absurd hshallow.pos (by simp)
  | succ fuel ih =>
    obtain ⟨hz, n, hn, hgist, hin⟩ := h
    obtain ⟨k, hk, he⟩ := Option.map_eq_some_iff.mp hgist
    simp only [Node.gist, Prod.mk.injEq] at he
    obtain ⟨hname, hkind⟩ := he
    have hbelow : A.shownBelow z = Snapshot.allWithoutInclusions (other.shownBelow x) := by
      by_cases hcont : n.isContainer
      · exact (hin hcont).shownBelow_eq ho hoa hshallow fun x z hxz hx ↦ ih hxz hx
      · have hleaf : ¬ k.isContainer := by
          rwa [Node.isContainer, hkind, Node.isContainer_currentKind]
        rw [shownBelow_of_leaf hl hk hleaf, shownBelow_of_leaf ho hn hcont]
        rfl
    rw [ha.snapshotOf_eq hl, hoa.snapshotOf_eq ho, hk, hn, Option.map_some, Option.map_some,
      Option.map_some, Snapshot.withoutInclusions_ofNode, hbelow,
      Snapshot.ofNode_currentKind (ho.node x n hn) hname hkind (hsettled z k hz hk)]

end Copy

section Merge

theorem skipped_mergeBlock (fuel : Nat) (target source : NodeId) (m : Merging) :
    (mergeBlock fuel target source m).skipped = m.skipped := by
  induction fuel generalizing target source m with
  | zero => rfl
  | succ fuel ih =>
    rw [mergeBlock_succ]
    refine List.foldlRecOn (motive := fun m' : Merging ↦ m'.skipped = m.skipped) _ _ rfl
      fun m' hm' q _ ↦ ?_
    rw [← hm', mergeNamed]
    split
    · split
      · exact ih ..
      · rfl
    · split
      · split
        · exact ih ..
        · rfl
      · rfl

def Excludes (lo : NodeId) (d : Document) : Prop :=
  ∀ x g, lo ≤ x → d.gist? x = some g → g.2.tag ≠ .inclusion

theorem Excludes.copyBlock (h : Excludes lo m.document) (other : Document) (fuel : Nat)
    (source target : NodeId) : Excludes lo (copyBlock other fuel source target m).document := by
  induction fuel generalizing source target m with
  | zero => exact h
  | succ fuel ih =>
    rw [copyBlock_succ]
    refine List.foldlRecOn (motive := fun m' : Merging ↦ Excludes lo m'.document) _ _ h
      fun m' h' id _ ↦ ?_
    rw [copyStep]
    cases other.node? id with
    | none => exact h'
    | some n =>
      dsimp only
      split
      · exact h'
      · next htag =>
        have hcopy : Excludes lo (m'.document.enroll target (copyOf n target)) := by
          intro x g hx hg
          rw [gist?_enroll] at hg
          split at hg
          · cases hg
            exact fun he ↦ htag ((Node.tag_currentKind n).symm.trans he)
          · exact h' x g hx hg
        split
        · exact ih (m := { m' with document := _ }) hcopy _ _
        · exact hcopy

theorem excludes_withOverlay (d other : Document) :
    Excludes (d.overlayId other) (d.withOverlay other) := by
  have hstart : Excludes (d.overlayId other) ((d.supersede other.id).2.push overlayNode) := by
    intro x g hx hg
    rw [gist?, node?_push] at hg
    split at hg
    · cases hg
      decide
    · obtain ⟨n, hn, -⟩ := Option.map_eq_some_iff.mp hg
      exact absurd (lt_nextId hn) (Nat.not_lt.mpr hx)
  have hcopy := hstart.copyBlock (m := { document := _ }) other other.nodes.size root
    (d.overlayId other)
  intro x g hx hg
  exact hcopy x g hx ((gist?_alike (.recordEdges _ (d.overlayId other)) x).symm.trans hg)

theorem gist?_overlay (hl : Linked d) (other : Document) :
    (d.withOverlay other).gist? (d.overlayId other) = some (.empty, .block overlayKind) := by
  have hgist : ((d.supersede other.id).2.push overlayNode).gist? (d.overlayId other) =
      some (.empty, .block overlayKind) := by
    rw [gist?, node?_push, overlayId, if_pos rfl]
    rfl
  exact (gist?_alike (.recordEdges _ (d.overlayId other)) _).trans
    ((copies_overlay hl other).1.gist _ _ hgist)

variable {allowed : Document → Edit → Prop}

/-- A document with an overlay at `o` that is a copy of another document. -/
structure Imported (other : Document) (o : NodeId) (d' : Document) : Prop where
  gist : d'.gist? o = some (.empty, .block overlayKind)
  filled : Filled other d' o other.nodes.size root o
  excludes : Excludes o d'

/-- The overlay is folded into other blocks, so it stays the copy that it was. -/
theorem Reached.imported (hd : Reached allowed d) (other : Document) :
    Imported other (d.overlayId other) (d.merge other).2 := by
  have hl := hd.linked
  have hsizes := (withOverlay_spec hl other).1.sizes
  obtain ⟨m₀, m, hm₀, -, hm, -, hover⟩ := hd.overlaying other
  have hgist :
      ∀ x g, (d.withOverlay other).gist? x = some g → (d.merge other).2.gist? x = some g := by
    intro x g hg
    rw [← hm₀] at hg
    obtain ⟨n, hn, rfl⟩ := Option.map_eq_some_iff.mp hg
    obtain ⟨n', hn', hname, hkind, -⟩ := node?_of_face? (hover.grows.face x (lt_nextId hn)) hn
    rw [← hm, gist?, hn', Option.map_some, Node.gist, hname, hkind]
    rfl
  refine ⟨hgist _ _ (gist?_overlay hl other), (filled_withOverlay hl other).mono hgist
    (fun x l hx hlist ↦ ?_) (Nat.le_refl _), fun x g hx hg ↦ ?_⟩
  · have hlt := lt_of_listing? hsizes hlist
    obtain ⟨s, hs, -⟩ := Option.map_eq_some_iff.mp hlist
    obtain ⟨n, hn, -⟩ := (withOverlay_spec hl other).1.isContainer_of_store? hs
    have hbelow := below_withOverlay hl other x n hx hn
    rw [← hm₀] at hlist hlt hbelow
    have hnot : ¬ Overlaps m₀.document root (d.overlayId other) x := fun h ↦
      hover.overlaid.not_below (.inl .refl) h.reaches hbelow
    rwa [← hm, listing?, hover.grows.store x hlt hnot]
  · obtain ⟨n, hn, rfl⟩ := Option.map_eq_some_iff.mp hg
    rw [← hm] at hn
    by_cases hlt : x < m₀.document.nextId
    · obtain ⟨n₀, hn₀, hname, hkind, -⟩ := node?_of_face? (hover.grows.face x hlt).symm hn
      have hold := excludes_withOverlay d other x n₀.gist hx (by rw [← hm₀, gist?, hn₀]; rfl)
      rwa [Node.gist, hkind] at hold
    · obtain ⟨k, p, hk, hblock, -⟩ := hover.grows.made x (Nat.not_lt.mp hlt) (lt_nextId hn)
      rw [hn] at hk
      cases hk
      rw [Node.isBlock] at hblock
      rw [Node.gist]
      cases hkind : n.kind <;> simp [hkind, Kind.isBlock, Kind.tag] at hblock ⊢

/-- A merge copies what a reader of the other document sees, without the inclusions: these are
noted, in the order in which the reader comes to them, and nothing below the overlay is one. -/
theorem merge_shows_other (hd : d.Reachable) (hother : other.Reachable) :
    let report := (d.merge other).1
    let d' := (d.merge other).2
    d'.snapshotOf report.overlay = some
      { name := "", tag := .block, blockKind := some overlayKind
        children := Snapshot.allWithoutInclusions other.snapshot.children } ∧
    report.skipped = Snapshot.allInclusions other.snapshot.children ∧
    ∀ x n, Below d' report.overlay x → d'.node? x = some n → n.tag ≠ .inclusion := by
  intro report d'
  have hd' : d'.Reachable := .merge other hd
  have ho := hother.linked
  have hoa := hother.acyclic
  obtain ⟨hgist, hfilled, hexcludes⟩ := hd.imported other
  have hshallow := hoa.shallow ho root
  obtain ⟨k, hk⟩ := hshallow.pos
  -- a root is a container, so what a reader sees of the document is what is below it
  have hsnapshot : other.snapshot.children = other.shownBelow root := by
    obtain ⟨n, hn, -⟩ := ho.root
    rw [snapshot, hoa.snapshotOf_eq ho, hn, Option.map_some, Option.getD_some, Snapshot.ofNode]
    cases n.kind <;> rfl
  rw [hsnapshot]
  have hsettled : ∀ z n, d.overlayId other ≤ z → d'.node? z = some n → n.pending = none :=
    fun z n hz hn ↦ ((merged hd.linked other).fresh z n
      (Nat.le_trans (Merged.supersede hd.linked other.id).next hz) hn).2
  refine ⟨?_, ?_, fun x n hx hn htag ↦ ?_⟩
  · obtain ⟨n, hn, he⟩ := Option.map_eq_some_iff.mp hgist
    simp only [Node.gist, Prod.mk.injEq] at he
    rw [hk] at hfilled hshallow
    have hbelow : d'.shownBelow (d.overlayId other) =
        Snapshot.allWithoutInclusions (other.shownBelow root) :=
      hfilled.shownBelow_eq ho hoa hshallow fun x z hxz hx ↦
        hxz.snapshotOf_eq ho hoa hd'.linked hd'.acyclic hsettled hx
    have hvalue : n.value? = none := by
      rw [Node.value?, hsettled _ n (Nat.le_refl _) hn, he.2]
      rfl
    rw [show report.overlay = d.overlayId other from rfl, hd'.acyclic.snapshotOf_eq hd'.linked, hn,
      Option.map_some, hbelow, Snapshot.ofNode, he.1, he.2, hvalue, Node.tag, he.2]
    rfl
  · have hskipped := skipped_copyBlock ho hoa (d.overlayId other)
      { document := (d.supersede other.id).2.push overlayNode } hshallow
    exact (skipped_mergeBlock ..).trans hskipped
  · exact hexcludes x n.gist (hx.le hd'.linked.older) (by rw [gist?, hn]; rfl) htag

end Merge

/-- A document with an inclusion at the top and one in the block `2`, in which `24` is staged for
the literal `3` and the removal for `5`. -/
def includingDocument : Document :=
  let d := ((Edit.addParsed root { name := ⟨["base"]⟩, kind := .inclusion "base" }).run
    (.new ⟨"shared"⟩ {})).2
  let d := ((Edit.addParsed root
    { name := ⟨["android"]⟩, kind := .block "android"
      children := [.literal ⟨["minSdk"]⟩ (.integer 21),
        { name := ⟨["flavors"]⟩, kind := .inclusion "flavors" },
        .literal ⟨["debug"]⟩ (.integer 0)] }).run d).2
  ((Edit.remove 2 5).run ((Edit.setValue 3 (.integer 24)).run d).2).2

theorem merge_shows_including :
    let report := (applicationDocument.merge includingDocument).1
    let d' := (applicationDocument.merge includingDocument).2
    applicationDocument.Reachable ∧ includingDocument.Reachable ∧
    (d'.snapshotOf report.overlay = some
      { name := "", tag := .block, blockKind := some overlayKind
        children := Snapshot.allWithoutInclusions includingDocument.snapshot.children } ∧
    report.skipped = Snapshot.allInclusions includingDocument.snapshot.children ∧
    ∀ x n, Below d' report.overlay x → d'.node? x = some n → n.tag ≠ .inclusion) ∧
    includingDocument.snapshot.children.map (·.name) = ["base", "android"] ∧
    report.skipped = ["base", "flavors"] ∧ d'.entries report.overlay ≠ [] := by
  have hd : applicationDocument.Reachable := .merge _ (.edit _ (.new _ _) trivial)
  have hother : includingDocument.Reachable :=
    .edit _ (.edit _ (.edit _ (.edit _ (.new _ _) trivial) trivial) trivial) trivial
  exact ⟨hd, hother, merge_shows_other hd hother, by decide +kernel, by decide +kernel,
    by decide +kernel⟩

end Document

end BuildScript
