import BuildScript.Proofs.Folding.Image
import BuildScript.Proofs.Folding.Law
import BuildScript.Proofs.Folding.Withdrawal

namespace BuildScript

theorem Node.value?_currentKind {n : Node} (h : n.pending.isSome → n.isSettable) :
    n.currentKind.value? = n.value? := by
  obtain ⟨_, kind, _, _, _, _, _, pending⟩ := n
  cases pending with
  | none => cases kind <;> rfl
  | some v =>
    have hset := h rfl
    cases kind with
    | literal | var => rfl
    | block | list | map | call | inclusion => simp [Node.isSettable, Kind.value?] at hset

theorem Node.currentKind_of_settled {n : Node} (h : n.pending = none) : n.currentKind = n.kind := by
  obtain ⟨_, kind, _, _, _, _, _, pending⟩ := n
  cases h
  cases kind <;> rfl

namespace Document

variable {d d' other : Document} {b c lo t x y : NodeId} {name : String} {m : Merging}

/-- Look up one name after the other, each time the last declaration, own or borrowed. -/
def followLast? (d : Document) (block : NodeId) (path : List String) : Option NodeId :=
  path.foldlM d.lastNamed? block

theorem followLast?_cons (d : Document) (block : NodeId) (name : String) (path : List String) :
    d.followLast? block (name :: path) = (d.lastNamed? block name).bind (d.followLast? · path) :=
  List.foldlM_cons

/-- Two declarations that look the same to a reader: of one name and one kind, with one value. -/
def Portrays (d d' : Document) (x y : NodeId) : Prop :=
  ∃ n n', d.node? x = some n ∧ d'.node? y = some n' ∧ n'.name = n.name ∧ n'.tag = n.tag ∧
    n'.currentKind = n.currentKind ∧ n'.value? = n.value?

theorem contains_of_lastNamed? (h : d.lastNamed? b name = some x) : d.Contains b x := by
  have hmem := List.mem_of_getLast? h
  rw [query] at hmem
  cases hs : d.store? b with
  | none => simp [hs] at hmem
  | some s =>
    rw [hs] at hmem
    obtain ⟨e, he, rfl⟩ := List.mem_map.mp hmem
    exact contains_of_mem hs (List.mem_filter.mp he).1 rfl

theorem lastNamed?_of_store?_eq_none (h : d.store? b = none) (name : String) :
    d.lastNamed? b name = none := by
  rw [lastNamed?, query, h]
  rfl

theorem propertyNamed?_of_store?_eq_none (h : d.store? b = none) (name : String) :
    d.propertyNamed? b name = none := by
  rw [propertyNamed?_eq, entries, h]
  rfl

theorem Mirrors.container {fuel : Nat} (hl : Linked other) (hl' : Linked d)
    (h : Mirrors other d lo fuel x y) :
    Filled other d lo fuel x y ∨ other.store? x = none ∧ d.store? y = none := by
  obtain ⟨-, n, hn, hgist, hin⟩ := h
  obtain ⟨k, hk, he⟩ := Option.map_eq_some_iff.mp hgist
  by_cases hcont : n.isContainer
  · exact .inl (hin hcont)
  · have hsame : k.isContainer = n.isContainer := by
      rw [← Node.isContainer_currentKind n]
      exact congrArg (fun q : Name × Kind ↦ q.2.isContainer) he
    refine .inr ⟨?_, ?_⟩
    · rw [← Option.not_isSome_iff_eq_none, hl.keyed, hn]
      simpa using hcont
    · rw [← Option.not_isSome_iff_eq_none, hl'.keyed, hk]
      simpa [hsame] using hcont

/-- Along a path a copy answers with the copies of the last declarations. -/
theorem Filled.follow? {fuel : Nat} (hl : Linked other) (hl' : Linked d)
    (h : Filled other d lo fuel c y) (hs : other.Shallow fuel c) (path : List String)
    (hpath : path ≠ []) : Option.Rel (fun x z ↦ ∃ k, Mirrors other d lo k x z)
      (other.followLast? c path) (d.follow? y path) := by
  induction path generalizing c y fuel with
  | nil => exact absurd rfl hpath
  | cons name path ih =>
    obtain ⟨fuel, rfl⟩ := hs.pos
    have hstep := h.propertyNamed? name
    rw [followLast?_cons, follow?_cons]
    generalize hx : other.lastNamed? c name = x? at hstep
    generalize d.propertyNamed? y name = z? at hstep
    cases hstep with
    | none => exact .none
    | @some x z hxz =>
      rw [Option.bind_some, Option.bind_some]
      cases path with
      | nil => exact .some ⟨fuel, hxz⟩
      | cons name' path =>
        rcases hxz.container hl hl' with hin | ⟨hnone, hnone'⟩
        · exact ih hin (hs.below (contains_of_lastNamed? hx)) (by simp)
        · rw [followLast?_cons, lastNamed?_of_store?_eq_none hnone, follow?_cons,
            propertyNamed?_of_store?_eq_none hnone']
          exact .none

theorem config_supersede (d : Document) (source : DocumentId) :
    (d.supersede source).2.config = d.config := by
  cases h : d.overlaySources.lookup source with
  | none => rw [supersede_of_new h]
  | some o =>
    rw [supersede, h]
    exact config_foldl_evict _ _

theorem listing?_root_supersede (hl : Linked d) (source : DocumentId) (h : d.entries root = []) :
    (d.supersede source).2.listing? root = some [] := by
  obtain ⟨s, hs⟩ := Option.isSome_iff_exists.mp hl.store_root
  rw [entries_eq hs] at h
  cases hlookup : d.overlaySources.lookup source with
  | none => rw [supersede_of_new hlookup, listing?, hs, Option.map_some, h]
  | some o =>
    obtain ⟨s', hs'⟩ := Option.isSome_iff_exists.mp (hl.supersede source).store_root
    rw [listing?, hs', Option.map_some]
    rw [supersede, hlookup] at hs'
    dsimp only [release] at hs'
    obtain ⟨s₀, hs₀, -, hsub⟩ := store?_foldl_evict_sublist (by exact hl.distinct) hs'
    rw [show d.store? root = some s₀ from hs₀] at hs
    cases hs
    rw [h] at hsub
    rw [List.sublist_nil.mp hsub]

/-- The copy is made below the node of the overlay, which is empty at first. -/
theorem copies_overlay (hl : Linked d) (other : Document) :
    Retains (d.overlayId other) ((d.supersede other.id).2.push overlayNode)
      (d.overlayCopy other).document ∧
    Filled other (d.overlayCopy other).document (d.overlayId other) other.nodes.size root
      (d.overlayId other) := by
  have hsup := hl.supersede other.id
  have hsizes : ((d.supersede other.id).2.push overlayNode).stores.size =
      ((d.supersede other.id).2.push overlayNode).nodes.size := by
    simpa [Document.push] using hsup.sizes
  have hnew : ((d.supersede other.id).2.push overlayNode).listing? (d.overlayId other) =
      some [] := by
    rw [listing?, store?_push hsup.sizes, overlayId, if_pos rfl]
    rfl
  exact copies other other.nodes.size root (d.overlayId other)
    { document := (d.supersede other.id).2.push overlayNode } hsizes hnew

/-- A document with the copy of another one in an overlay, before anything is lent. -/
theorem filled_withOverlay (hl : Linked d) (other : Document) :
    Filled other (d.withOverlay other) (d.overlayId other) other.nodes.size root
      (d.overlayId other) := by
  have hrecord := Alike.recordEdges (d.overlayCopy other).document (d.overlayId other)
  exact (copies_overlay hl other).2.mono (fun x g hx ↦ (gist?_alike hrecord x).trans hx)
    (fun x l _ hx ↦ (listing?_alike hrecord x).trans hx) (Nat.le_refl _)

theorem lt_overlayId (hl : Linked d) (other : Document) : root < d.overlayId other := by
  obtain ⟨n, hn, -⟩ := (hl.supersede other.id).root
  exact lt_nextId hn

theorem config_withOverlay (hl : Linked d) (other : Document) :
    (d.withOverlay other).config = d.config :=
  (overlayAppended_withOverlay hl other).config.trans (config_supersede d other.id)

theorem listing?_root_withOverlay (hl : Linked d) (other : Document)
    (hempty : d.entries root = []) : (d.withOverlay other).listing? root = some [] := by
  rw [listing?, (overlayAppended_withOverlay hl other).store root (lt_overlayId hl other),
    ← listing?]
  exact listing?_root_supersede hl other.id hempty

/-- A block without entries borrows all that a block of an overlay declares, if no name is known to
be a block. -/
theorem mergeBlock_eq_borrows (fuel : Nat) (target source : NodeId) (m : Merging)
    (hours : m.document.propertyMap target = [])
    (hkind : ∀ name kind, m.document.config.kindOf name kind = none) :
    mergeBlock (fuel + 1) target source m =
      (m.document.propertyMap source).foldl (fun m q ↦ borrow m target q.2) m := by
  rw [mergeBlock_succ, hours]
  clear hours
  generalize m.document.propertyMap source = l
  generalize ((m.document.node? target).bind (·.kind.blockKind?)).getD rootKind = enclosing
  induction l generalizing m with
  | nil => rfl
  | cons q l ih =>
    have hstep : mergeNamed fuel [] enclosing target m q = borrow m target q.2 := by
      simp [mergeNamed, hkind]
    rw [List.foldl_cons, List.foldl_cons, hstep]
    exact ih (borrow m target q.2) hkind

theorem foldl_borrow (l : List (String × NodeId)) (m : Merging) :
    let m' := l.foldl (fun m q ↦ borrow m t q.2) m
    (∀ x, m'.document.gist? x = m.document.gist? x) ∧
      (∀ x, x ≠ t → m'.document.listing? x = m.document.listing? x) ∧
      m'.document.listing? t =
        (m.document.listing? t).map (· ++ l.map fun q ↦ .fresh q.2 .applied false) := by
  induction l generalizing m with
  | nil =>
    refine ⟨fun _ ↦ rfl, fun _ _ ↦ rfl, ?_⟩
    cases h : m.document.listing? t <;> simp [h]
  | cons q l ih =>
    obtain ⟨hgist, hlisting, htarget⟩ := ih (borrow m t q.2)
    have hlend : ∀ x, (borrow m t q.2).document.gist? x = m.document.gist? x := fun x ↦ by
      rw [document_borrow, gist?, node?_lend, gist?]
      split
      · cases m.document.node? x <;> rfl
      · rfl
    refine ⟨fun x ↦ (hgist x).trans (hlend x), fun x hx ↦ (hlisting x hx).trans ?_,
      htarget.trans ?_⟩
    · rw [document_borrow, listing?, store?_lend, if_neg (Ne.symm hx), listing?]
    · rw [document_borrow, listing?, store?_lend, if_pos rfl, listing?, Option.map_map,
        Option.map_map, Option.map_map]
      congr 1
      funext s
      simp [Store.add, Entry.fresh]

theorem propertyNamed?_of_gist (hgist : ∀ x, d'.gist? x = d.gist? x)
    (hlisting : d'.listing? b = d.listing? b) (name : String) :
    d'.propertyNamed? b name = d.propertyNamed? b name := by
  rw [propertyNamed?_eq, propertyNamed?_eq, entries_eq_listing?, entries_eq_listing?, hlisting,
    List.filter_congr fun e _ ↦ declares_of_gist rfl (hgist e.node)]

theorem propertyNamed?_of_borrows (hgist : ∀ x, d'.gist? x = d.gist? x)
    (hlisting : d'.listing? t = some ((d.propertyMap b).map fun q ↦ .fresh q.2 .applied false))
    (name : String) : d'.propertyNamed? t name = d.propertyNamed? b name := by
  have hnames : ((d.propertyMap b).map Prod.fst).Nodup := (answers_spec d b _).1
  have hdeclared : ((d.propertyMap b).map fun q ↦ Entry.fresh q.2 .applied false).filter
      (d'.declares name) =
        ((d.propertyNamed? b name).map (.fresh · .applied false)).toList := by
    have hnamed := @filterMap_named _ _ name hnames
      fun q ↦ some (Entry.fresh q.2 .applied false)
    rw [lookup_propertyMap] at hnamed
    rw [Option.map_eq_bind]
    refine Eq.trans ?_ hnamed
    rw [← List.filterMap_eq_filter, List.filterMap_map]
    refine List.filterMap_congr fun q hq ↦ ?_
    obtain ⟨e, -, hdecl, he, -⟩ := pick_of_propertyNamed? (mem_propertyMap.mp hq)
    obtain ⟨hv, n, hn, -, hname⟩ := declares_iff.mp hdecl
    have hsame : d'.declares name (.fresh q.2 .applied false) = d.declares name e :=
      declares_of_gist hv.symm ((hgist q.2).trans (congrArg d.gist? he.symm))
    have hiff : d.declares name e = decide (q.1 = name) := by
      rw [Bool.eq_iff_iff, declares_iff, decide_eq_true_iff]
      refine ⟨fun ⟨_, k, hk, _, hkname⟩ ↦ ?_, fun h ↦ h ▸ declares_iff.mp hdecl⟩
      rw [hn] at hk
      cases hk
      exact hname.symm.trans hkname
    rw [Function.comp_apply, Option.guard, hsame, hiff]
    simp
  rw [propertyNamed?_eq, entries_eq_listing?, hlisting, Option.getD_some, hdeclared]
  cases d.propertyNamed? b name <;> rfl

/-- An empty root that knows no blocks answers, after the merge, as the overlay does, and the
overlay is the copy. -/
theorem merge_eq_copy (hl : Linked d) (other : Document) (hempty : d.entries root = [])
    (hkind : ∀ name kind, d.config.kindOf name kind = none) :
    Filled other (d.merge other).2 (d.overlayId other) other.nodes.size root
      (d.overlayId other) ∧ ∀ name, (d.merge other).2.propertyNamed? root name =
        (d.merge other).2.propertyNamed? (d.overlayId other) name := by
  have hfilled := filled_withOverlay hl other
  have hroot := listing?_root_withOverlay hl other hempty
  have hconfig := config_withOverlay hl other
  have hne := overlayId_ne_root hl other
  have hsizes := (withOverlay_spec hl other).1.sizes
  obtain ⟨k, hk⟩ := Nat.exists_eq_add_one_of_ne_zero
    (Nat.ne_zero_of_lt (lt_of_listing? hsizes hroot))
  have hours : (d.withOverlay other).propertyMap root = [] := by
    rw [propertyMap, answers, visible, entries_eq_listing?, hroot]
    rfl
  let start : Merging := { d.overlayCopy other with document := d.withOverlay other }
  have hmerge : (d.merge other).2 = (((d.withOverlay other).propertyMap (d.overlayId other)).foldl
      (fun m q ↦ borrow m root q.2) start).document := by
    rw [merge_document, show (d.withOverlay other).nodes.size = k + 1 from hk]
    exact congrArg Merging.document
      (mergeBlock_eq_borrows k root (d.overlayId other) start hours (hconfig ▸ hkind))
  obtain ⟨hgist, hlisting, htarget⟩ := @foldl_borrow root
    ((d.withOverlay other).propertyMap (d.overlayId other)) start
  rw [← hmerge] at hgist hlisting htarget
  rw [show start.document.listing? root = some [] from hroot, Option.map_some,
    List.nil_append] at htarget
  refine ⟨hfilled.mono (fun x g hx ↦ (hgist x).trans hx) (fun x l hx hxl ↦ ?_) (Nat.le_refl _),
    fun name ↦ ?_⟩
  · refine (hlisting x fun he ↦ hne ?_).trans hxl
    subst he
    exact Nat.le_zero.mp hx
  · rw [propertyNamed?_of_borrows hgist htarget, propertyNamed?_of_gist hgist (hlisting _ hne)]

theorem Mirrors.portrays {fuel : Nat} (h : Mirrors other d' lo fuel x y) (hl : Linked other)
    (hm : Merged d d') (hle : d.nextId ≤ lo) : Portrays other d' x y := by
  obtain ⟨hy, n, hn, hgist, -⟩ := h
  obtain ⟨k, hk, he⟩ := Option.map_eq_some_iff.mp hgist
  simp only [Node.gist, Prod.mk.injEq] at he
  have hsettled := (hm.fresh y k (Nat.le_trans hle hy) hk).2
  refine ⟨n, k, hn, hk, he.1, ?_, (Node.currentKind_of_settled hsettled).trans he.2, ?_⟩
  · rw [← Node.tag_currentKind n, Node.tag, he.2]
  · rw [Node.value?, hsettled, he.2, Node.value?_currentKind (hl.node x n hn).settable]
    rfl

/-- Every name is answered with the last declaration of it, or with an inclusion. -/
def AnsweredLast (d : Document) : Prop :=
  ∀ b < d.nextId, ∀ q ∈ d.propertyMap b,
    d.lastNamed? b q.1 = some q.2 ∨ (d.node? q.2).any (·.tag = .inclusion)

instance (d : Document) : Decidable d.AnsweredLast :=
  inferInstanceAs (Decidable (∀ b < d.nextId, _))

theorem AnsweredLast.followLast? (h : other.AnsweredLast) (hl : Linked other)
    (path : List String) (hx : other.follow? b path = some x)
    (hno : ¬ (other.node? x).any (·.tag = .inclusion)) (hpath : path ≠ []) :
    other.followLast? b path = some x := by
  induction path generalizing b with
  | nil => exact absurd rfl hpath
  | cons name path ih =>
    rw [follow?_cons] at hx
    obtain ⟨a, ha, hrest⟩ := Option.bind_eq_some_iff.mp hx
    have hb := ((contains_of_propertyNamed? ha).1.lt hl).1
    -- an inclusion is no container, so it is the end of every path
    have hlast : other.lastNamed? b name = some a := by
      refine (h b hb (name, a) (mem_propertyMap.mpr ha)).resolve_right fun hinc ↦ ?_
      cases path with
      | nil =>
        cases hrest
        exact hno hinc
      | cons name' path =>
        rw [follow?_cons] at hrest
        obtain ⟨a', ha', -⟩ := Option.bind_eq_some_iff.mp hrest
        obtain ⟨s, hs, -⟩ := (contains_of_propertyNamed? ha').1
        obtain ⟨n, hn, hcont⟩ := hl.isContainer_of_store? hs
        rw [hn, Option.any_some, decide_eq_true_iff, Node.tag] at hinc
        rw [Node.isContainer] at hcont
        cases hkind : n.kind <;> simp [hkind, Kind.tag, Kind.isContainer] at hinc hcont
    rw [followLast?_cons, hlast, Option.bind_some]
    cases path with
    | nil => exact hrest
    | cons name' path => exact ih hrest (by simp)

/-- A document that is merged into an empty one shows there, along every path, its last
declarations. So it shows what a reader of it sees, if these are what answers. -/
theorem merge_into_empty (hother : other.Reachable) (hd : d.Reachable)
    (hempty : d.entries root = []) (hkind : ∀ name kind, d.config.kindOf name kind = none) :
    let d' := (d.merge other).2
    (∀ path, path ≠ [] →
      Option.Rel (Portrays other d') (other.followLast? root path) (d'.follow? root path)) ∧
    (other.AnsweredLast → ∀ path x, path ≠ [] → other.follow? root path = some x →
      ¬ (other.node? x).any (·.tag = .inclusion) →
      ∃ y, d'.follow? root path = some y ∧ Portrays other d' x y) := by
  intro d'
  obtain ⟨hfilled, hroot⟩ := merge_eq_copy hd.linked other hempty hkind
  have hl' : Linked d' := hd.linked.merge other
  have hlaw : ∀ path, path ≠ [] →
      Option.Rel (Portrays other d') (other.followLast? root path) (d'.follow? root path) := by
    intro path hpath
    have hrel := hfilled.follow? hother.linked hl' (hother.acyclic.shallow hother.linked root)
      path hpath
    have hsame : d'.follow? root path = d'.follow? (d.overlayId other) path := by
      cases path with
      | nil => exact absurd rfl hpath
      | cons name path => rw [follow?_cons, follow?_cons, hroot name]
    rw [hsame]
    generalize other.followLast? root path = x? at hrel ⊢
    generalize d'.follow? (d.overlayId other) path = y? at hrel ⊢
    cases hrel with
    | none => exact .none
    | some hxy =>
      obtain ⟨k, hxy⟩ := hxy
      exact .some (hxy.portrays hother.linked (merged hd.linked other)
        (Merged.supersede hd.linked other.id).next)
  refine ⟨hlaw, fun hlast path x hpath hx hno ↦ ?_⟩
  have hrel := hlaw path hpath
  rw [hlast.followLast? hother.linked path hx hno hpath] at hrel
  generalize d'.follow? root path = y? at hrel ⊢
  cases hrel with
  | some hxy => exact ⟨_, rfl, hxy⟩

/-- The value `24` is staged for the literal `2`, and the version is borrowed. -/
theorem merge_into_empty_staged :
    let d' := ((Document.new ⟨"reader"⟩ {}).merge stagedDocument).2
    stagedDocument.AnsweredLast ∧
      stagedDocument.follow? root ["android", "minSdk"] = some 2 ∧
      stagedDocument.value? 2 = some (.integer 24) ∧
      (∃ y, d'.follow? root ["android", "minSdk"] = some y ∧ Portrays stagedDocument d' 2 y) ∧
      Option.Rel (Portrays stagedDocument d') (some 4) (d'.follow? root ["version"]) := by
  intro d'
  have hreachable : stagedDocument.Reachable :=
    .edit _ (.edit _ (.merge libraryDocument (.edit _ (.new _ _) trivial)) trivial) trivial
  obtain ⟨hlaw, hlast⟩ := merge_into_empty hreachable (.new ⟨"reader"⟩ {}) (by decide)
    fun _ _ ↦ rfl
  have hanswered : stagedDocument.AnsweredLast := by decide +kernel
  have hpath : stagedDocument.follow? root ["android", "minSdk"] = some 2 := by decide +kernel
  have hversion : stagedDocument.followLast? root ["version"] = some 4 := by decide +kernel
  refine ⟨hanswered, hpath, by decide +kernel, ?_, hversion ▸ hlaw _ (by simp)⟩
  exact hlast hanswered _ 2 (by simp) hpath (by decide +kernel)

def pinnedDocument : Document :=
  (((Edit.addParsed root (.literal ⟨["version"]⟩ (.integer 2))).run (.new ⟨"app"⟩ {})).2.merge
    libraryDocument).2

/-- The document shows its own version, and what it is merged into the borrowed one. -/
theorem borrowed_shown_after_merge :
    let d' := ((Document.new ⟨"reader"⟩ {}).merge pinnedDocument).2
    pinnedDocument.Reachable ∧
      (pinnedDocument.propertyNamed? root "version").bind pinnedDocument.value? =
        some (.integer 2) ∧
      (d'.propertyNamed? root "version").bind d'.value? = some (.integer 1) :=
  ⟨.merge libraryDocument (.edit _ (.new _ _) trivial), by decide +kernel⟩

end Document

end BuildScript
