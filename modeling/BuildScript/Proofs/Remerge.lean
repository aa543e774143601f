import BuildScript.Proofs.Folding.Recount

namespace BuildScript.Document

variable {X d d' e other : Document} {m₀ m q₀ q : Merging} {c x y : NodeId} {path : List String}

def Resembles (d d' : Document) (x y : NodeId) : Prop :=
  ∃ n n', d.node? x = some n ∧ d'.node? y = some n' ∧ n'.kind = n.kind ∧ n'.value? = n.value?

theorem isLive_of_follow? (hc : d.isLive c) (h : d.follow? c path = some x) : d.isLive x := by
  induction path generalizing c with
  | nil =>
    cases h
    exact hc
  | cons name path ih =>
    rw [follow?_cons] at h
    obtain ⟨a, ha, hrest⟩ := Option.bind_eq_some_iff.mp h
    exact ih (isLive_of_propertyNamed? ha) hrest

/-- Older nodes keep their kinds and values, and what is copied twice has them twice. -/
theorem Renewed.resembles (h : Renewed d m₀ m m.document e q₀ q) (hm : Merged d m.document)
    (hq : Merged e q.document) (hxy : Stands d m₀ m.document e x y) (hx : m.document.isLive x) :
    Resembles m.document q.document x y := by
  obtain ⟨n, hn⟩ := isLive_iff.mp hx
  rcases hxy with ⟨rfl, hlt, hb⟩ | ⟨rfl, hb⟩
  · have he : e.node? y = some n := (h.withdrawn.node y hb).trans hn
    have hlte := lt_nextId he
    obtain ⟨n', hn', -, hkind, -⟩ := node?_of_face? (h.second.face_old hlte) he
    obtain ⟨n₀, hn₀, -, -, -, hpending⟩ := hq.node y n' hlte hn'
    rw [he] at hn₀
    cases hn₀
    exact ⟨n, n', hn, hn', hkind, by rw [Node.value?, hpending, hkind]; rfl⟩
  · have hle := hb.le h.first.overlaid.rooted.linked.older
    have hlt := h.first.overlaid.lt_of_below hb
    have hnext := h.twins.next
    have hlt' : twin d.nextId e.nextId x < q₀.document.nextId := by
      simp only [twin] at hnext ⊢
      lia
    obtain ⟨k, hk, -, hkind, -⟩ := node?_of_face? (h.first.grows.face x hlt).symm hn
    have hgist := h.twins.gist x hle
    rw [gist?, gist?, hk] at hgist
    obtain ⟨k', hk', hg⟩ := Option.map_eq_some_iff.mp hgist
    obtain ⟨n', hn', -, hkind', -⟩ := node?_of_face? (h.second.grows.face _ hlt') hk'
    have hsame : n'.kind = n.kind :=
      hkind'.trans ((congrArg Prod.snd hg).trans hkind)
    have hpending := (hm.fresh x n hle hn).2
    have hpending' := (hq.fresh _ n' (Nat.le_add_left _ _) hn').2
    exact ⟨n, n', hn, hn', hsame, by rw [Node.value?, hpending', hsame, Node.value?, hpending]⟩

theorem Renewed.follow_resembles (h : Renewed d m₀ m m.document e q₀ q)
    (hm : Merged d m.document) (hq : Merged e q.document) (path : List String) :
    Option.Rel (Resembles m.document q.document) (m.document.follow? root path)
      (q.document.follow? root path) := by
  obtain ⟨n, hn, -⟩ := h.first.after.root
  have hlive : m.document.isLive root := isLive_iff.mpr ⟨n, hn⟩
  have hrel := h.follow_rel h.stands_root path
  generalize hx : m.document.follow? root path = x? at hrel ⊢
  generalize q.document.follow? root path = y? at hrel ⊢
  cases hrel with
  | none => exact .none
  | some hxy => exact .some (h.resembles hm hq hxy (isLive_of_follow? hlive hx))

/-- Any merge, step by step: an earlier overlay is put away, and then it is a first merge. -/
theorem accomplished_supersede (hd : d.Reachable)
    (hnames : ∀ i n, other.node? i = some n → n.name.IsRegular) :
    ∃ m₀ m, Accomplished (d.supersede other.id).2 m₀ m ∧
      m₀.document = (d.supersede other.id).2.withOverlay other ∧ m₀.applied = 0 ∧
      m₀.synthesized = 0 ∧ d.merge other = (⟨(d.supersede other.id).2.nextId,
        (d.supersede other.id).1, m.applied, m.synthesized, m.skipped⟩, m.document) ∧
      ((d.supersede other.id).2.merge other).2 = m.document := by
  have hmerge := merge_supersede d other
  have hlists := (Reached.merge other hd).fullyTraced.listsOwned
  rw [hmerge] at hlists
  obtain ⟨m₀, m, h, hm₀, happlied, hsynthesized, hm⟩ :=
    accomplished_merge (hd.rooted.supersede other.id) (lookup_supersede d other.id) hnames hlists
  refine ⟨m₀, m, h, hm₀, happlied, hsynthesized, ?_, congrArg Prod.snd hm⟩
  rw [hmerge, hm]

/-- A document is merged into `d` and some time later into `X`, which has come out of it. -/
theorem Accomplished.renewed (h : Accomplished d m₀ m) (hm₀ : m₀.document = d.withOverlay other)
    (hnew : d.overlaySources.lookup other.id = none) (hseq : Sequel d.nextId m.document X)
    (hX : X.Reachable) (hlookup : X.overlaySources.lookup other.id = some d.nextId)
    (hlisted : ListedBelow d.nextId X)
    (hnames : ∀ i n, other.node? i = some n → n.name.IsRegular) :
    ∃ q₀ q, Renewed d m₀ m X (X.supersede other.id).2 q₀ q ∧ q₀.applied = 0 ∧
      q₀.synthesized = 0 ∧ X.merge other =
        (⟨X.nextId, some d.nextId, q.applied, q.synthesized, q.skipped⟩, q.document) ∧
      ((X.supersede other.id).2.merge other).2 = q.document := by
  obtain ⟨n₁, hn₁, hp₁⟩ := h.node_overlay
  have hlive := hseq.overlay _ .refl (isLive_iff.mpr ⟨n₁, hn₁⟩)
  obtain ⟨n, hn, -, -, -, hp⟩ := node?_of_shape? (hseq.shape _ (lt_nextId hn₁) hlive) hn₁
  have htop : ∀ n, X.node? d.nextId = some n → n.parent = none := fun n' hn' ↦ by
    rw [hn] at hn'
    cases hn'
    rw [hp, hp₁]
  have hw := withdrawn_supersede hX.linked hlookup hlive htop hlisted
  obtain ⟨q₀, q, hsecond, hq₀, happlied, hsynthesized, hq, hlast⟩ :=
    accomplished_supersede hX hnames
  have htwins := Twins.withOverlay h.before hsecond.before other
  rw [overlayId_eq hnew, overlayId_eq (lookup_supersede X other.id), ← hm₀, ← hq₀] at htwins
  refine ⟨q₀, q, ⟨h, hseq, hw, hsecond, htwins⟩, happlied, hsynthesized, ?_, hlast⟩
  rw [hq, supersede_fst, hlookup, hw.next]

/-- A document that is merged twice in a row: the second overlay takes the place of the first one,
and nothing else changes. -/
theorem merge_twice (hd : d.Reachable)
    (hnames : ∀ i n, other.node? i = some n → n.name.IsRegular) :
    let first := d.merge other
    let second := first.2.merge other
    second.1.superseded = some first.1.overlay ∧ second.1.synthesized = 0 ∧
      second.1.applied = first.1.applied ∧ second.2.liveCount = first.2.liveCount ∧
      second.2.overlays.length = first.2.overlays.length ∧
      ∀ path, Option.Rel (Resembles first.2 second.2) (first.2.follow? root path)
        (second.2.follow? root path) := by
  intro first second
  have hnew := lookup_supersede d other.id
  have hfirst : first.2.Reachable := .merge other hd
  obtain ⟨m₀, m, h, hm₀, happlied, -, hsame, hdoc⟩ := accomplished_supersede hd hnames
  obtain ⟨hoverlays, hsources⟩ := overlays_merge h.before hnew
  have hcov := (hasStoresAbove_nextId (d.supersede other.id).2).merge h.before hnew
  have hmerged := merged h.before other
  rw [hdoc] at hoverlays hsources hcov hmerged
  have hfirst' : first.2 = m.document := congrArg Prod.snd hsame
  have hlookup : m.document.overlaySources.lookup other.id =
      some (d.supersede other.id).2.nextId := by
    rw [hsources, List.lookup_append, hnew]
    simp
  obtain ⟨q₀, q, hr, happlied', hsynthesized', hq, hlast⟩ :=
    h.renewed hm₀ hnew (.refl h.after _) (hfirst' ▸ hfirst) hlookup
      ((hcov.listedFrom (hfirst' ▸ hfirst).fullyTraced.listsOwned).below h.after.older) hnames
  have hsecond : second = _ := (congrArg (Document.merge · other) hfirst').trans hq
  have hsecond' : second.2 = q.document := congrArg Prod.snd hsecond
  have hmerged' : Merged (m.document.supersede other.id).2 q.document :=
    hlast ▸ merged hr.second.before other
  rw [hfirst', hsecond', hsecond, show first = _ from hsame]
  refine ⟨rfl, ?_, hr.applied_again happlied happlied', hr.liveCount_again, ?_,
    hr.follow_resembles hmerged hmerged'⟩
  · have hgrows := hr.second.grows.synthesized
    rw [hr.next_again, hsynthesized'] at hgrows
    exact Nat.add_right_cancel hgrows
  · have hfresh : ∀ o ∈ (d.supersede other.id).2.overlays,
        (o != (d.supersede other.id).2.nextId) = true := fun o ho ↦
      bne_iff_ne.mpr (Nat.ne_of_lt ((hd.fullyTraced.listsOwned.supersede other.id).roof o ho).1)
    have hleft : (m.document.supersede other.id).2.overlays =
        (d.supersede other.id).2.overlays := by
      rw [overlays_supersede hlookup, hoverlays, List.filter_append,
        List.filter_eq_self.mpr hfresh]
      simp
    have hagain := (overlays_merge hr.second.before (lookup_supersede m.document other.id)).1
    rw [hlast, hleft] at hagain
    rw [hagain, hoverlays, List.length_append, List.length_append]
    rfl

/-- The title `8` was made for the first overlay and serves the second one. -/
theorem merge_twice_fonts :
    let first := colouredDocument.merge fontsDocument
    let second := first.2.merge fontsDocument
    first.1.synthesized = 1 ∧ second.1.synthesized = 0 ∧ second.1.applied = first.1.applied ∧
      second.2.liveCount = first.2.liveCount ∧
      first.2.follow? root ["theme", "title", "size"] = some 7 ∧
      ∃ y, second.2.follow? root ["theme", "title", "size"] = some y ∧
        Resembles first.2 second.2 7 y := by
  intro first second
  have hregular : ∀ i < fontsDocument.nextId, ∀ n ∈ fontsDocument.node? i, n.name.IsRegular := by
    decide +kernel
  obtain ⟨-, hsynthesized, happlied, hlive, -, hpaths⟩ := merge_twice (d := colouredDocument)
    (.merge _ (.new _ _)) fun i n hn ↦ hregular i (lt_nextId hn) n hn
  have hfirst : first.2.follow? root ["theme", "title", "size"] = some 7 := by decide +kernel
  have hrel := hpaths ["theme", "title", "size"]
  refine ⟨by decide +kernel, hsynthesized, happlied, hlive, hfirst, ?_⟩
  rw [hfirst] at hrel
  generalize hy : second.2.follow? root ["theme", "title", "size"] = y at hrel
  cases hrel with
  | some hxy => exact ⟨_, rfl, hxy⟩

end BuildScript.Document
