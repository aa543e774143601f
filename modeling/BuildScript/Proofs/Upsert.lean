import BuildScript.Proofs.CanonicalOrder
import BuildScript.Proofs.Changes.Edit

namespace BuildScript

namespace Document

variable {d d' d₁ : Document} {block x y : NodeId} {name : String} {value : Value} {s s' : Store}
  {n : Node}

def isLiteralNamed (d : Document) (name : String) (x : NodeId) : Bool :=
  (d.node? x).any fun n ↦ n.tag = .literal && n.isCalled name

theorem literal?_eq (d : Document) (s : Store) (name : String) :
    d.literal? s name = (s.placeable.filter (d.isLiteralNamed name)).getLast? := rfl

theorem literal?_eq_none : d.literal? s name = none ↔
    ∀ x ∈ s.placeable, d.isLiteralNamed name x = false := by
  simp [literal?_eq]

theorem literal?_of_unique (hx : x ∈ s.placeable) (hlit : d.isLiteralNamed name x)
    (hunique : ∀ y ∈ s.placeable, d.isLiteralNamed name y → y = x) :
    d.literal? s name = some x := by
  cases h : d.literal? s name with
  | none => simp [literal?_eq_none.mp h x hx] at hlit
  | some y =>
    obtain ⟨hy, hlity⟩ := List.mem_filter.mp (List.mem_of_getLast? h)
    rw [hunique y hy hlity]

theorem isLiteralNamed_congr (h : (d'.node? y).map (fun n ↦ (n.kind.tag, n.name)) =
    (d.node? x).map fun n ↦ (n.kind.tag, n.name)) :
    d'.isLiteralNamed name y = d.isLiteralNamed name x := by
  have hface : ∀ o : Option Node, (o.any fun n ↦ n.tag = .literal && n.isCalled name) =
      (o.map fun n ↦ (n.kind.tag, n.name)).any fun f ↦ f.1 = .literal && f.2.isCalled name :=
    fun o ↦ by cases o <;> rfl
  rw [isLiteralNamed, isLiteralNamed, hface, h, ← hface]

theorem isLiteralNamed_of_bare (h : (d'.node? x).map Node.bare = (d.node? x).map Node.bare) :
    d'.isLiteralNamed name x = d.isLiteralNamed name x := by
  refine isLiteralNamed_congr ?_
  have hface := congrArg (Option.map fun n ↦ (n.kind.tag, n.name)) h
  rwa [Option.map_map, Option.map_map] at hface

theorem node?_stageValue (d : Document) (x : NodeId) (value : Value) (y : NodeId) :
    ((d.stageValue x value).node? y).map Node.bare =
      ((d.modifyNode x fun n ↦ { n with pending := some value }).node? y).map Node.bare :=
  ((Alike.recordEdges _ x).trans (.markModified _ x)).bare y

theorem store?_stageValue (d : Document) (x : NodeId) (value : Value) (b : NodeId) :
    (d.stageValue x value).store? b = d.store? b :=
  ((Alike.recordEdges _ x).trans (.markModified _ x)).store? b

theorem value?_stageValue (hn : d.node? x = some n) (value : Value) :
    (d.stageValue x value).value? x = some value := by
  have hbare := node?_stageValue d x value x
  rw [node?_modifyNode, if_pos rfl, hn] at hbare
  obtain ⟨m, hm, he⟩ := Option.map_eq_some_iff.mp hbare
  have hpending : m.pending = some value := congrArg Node.pending he
  simp [Document.value?, hm, Node.value?, hpending]

theorem literal?_stageValue (d : Document) (s : Store) (x : NodeId) (value : Value)
    (name : String) : (d.stageValue x value).literal? s name = d.literal? s name := by
  have hface : (d.stageValue x value).isLiteralNamed name = d.isLiteralNamed name := by
    funext y
    refine isLiteralNamed_congr ?_
    have hbare := congrArg (Option.map fun n ↦ (n.kind.tag, n.name)) (node?_stageValue d x value y)
    rw [Option.map_map, Option.map_map] at hbare
    exact hbare.trans (map_node?_modifyNode (fun _ _ ↦ by rfl) y)
  rw [literal?_eq, literal?_eq, hface]

theorem exists_store_of_setNewLiteral {outcome : Outcome}
    (h : ((Edit.setNewLiteral block name value).run d).1 = .ok outcome) :
    ∃ s, d.store? block = some s := by
  cases hc : d.container block with
  | ok s => exact ⟨s, container_ok hc⟩
  | error e =>
    have hfollows := Edit.follows (.setNewLiteral block name value) d
    rw [Edit.check, hc] at hfollows
    cases hfollows with
    | refused hexec =>
      have hrun : ((Edit.setNewLiteral block name value).run d).1 = .error e :=
        congrArg Prod.fst hexec
      simp [hrun] at h

theorem run_setNewLiteral_of_some (hd : Linked d) (hs : d.store? block = some s)
    (hx : d.literal? s name = some x) (value : Value) :
    (Edit.setNewLiteral block name value).run d = (.ok (.node x), d.stageValue x value) := by
  obtain ⟨m, hm, -⟩ := hd.isContainer_of_store? hs
  obtain ⟨n, hn, hset⟩ := literal?_settable hx
  have hcheck : d.checkSet x = .ok ⟨⟩ := by simp only [checkSet, hn, hset, if_true]
  have hexec : (EditM.setNewLiteral block name value).exec d = (.ok x, d.stageValue x value) := by
    simp only [EditM.setNewLiteral, EditM.exec_get_bind, EditM.exec_lift_bind,
      container_eq_ok hm hs, hx, EditM.exec_bind_of_ok (EditM.exec_setValue hcheck value),
      EditM.exec_pure]
  have hrun : (Edit.setNewLiteral block name value).run d =
      (Outcome.node <$> EditM.setNewLiteral block name value).exec d := rfl
  rw [hrun, EditM.exec_map, hexec]
  rfl

theorem run_setNewLiteral_of_none (hd : Linked d) (hs : d.store? block = some s)
    (hx : d.literal? s name = none) (value : Value) :
    (Edit.setNewLiteral block name value).run d =
      (Edit.add block (.literal (.parse name) value)).run d := by
  obtain ⟨m, hm, -⟩ := hd.isContainer_of_store? hs
  have hexec : (EditM.setNewLiteral block name value).exec d =
      (EditM.add block (.literal (.parse name) value)).exec d := by
    simp only [EditM.setNewLiteral, EditM.exec_get_bind, EditM.exec_lift_bind,
      container_eq_ok hm hs, hx]
  have hrun : (Edit.setNewLiteral block name value).run d =
      (Outcome.node <$> EditM.setNewLiteral block name value).exec d := rfl
  rw [hrun, EditM.exec_map, hexec, ← EditM.exec_map]
  rfl

/-- A block in which no literal of a name was found, after a literal of the parsed name has been
staged there: that is what is found, provided that it is called by the name. -/
structure Introduced (block : NodeId) (name : String) (value : Value) (d d' : Document) :
    Prop where
  linked : Linked d'
  next : d.nextId < d'.nextId
  value : d'.value? d.nextId = some value
  found : ∃ s', d'.store? block = some s' ∧
    d'.literal? s' name = if (Name.parse name).full = name then some d.nextId else none

theorem introduced (hl : Linked d) (hs : d.store? block = some s) (hx : d.literal? s name = none)
    (value : Value) : Introduced block name value d
      ((Edit.add block (.literal (.parse name) value)).run d).2 := by
  have hlinked := hl.edit (.add block (.literal (.parse name) value))
  obtain ⟨s', hadded⟩ := canonicallyAdded hl hs (.literal (.parse name) value)
  obtain ⟨-, hold, hself⟩ := appended hl hs (.literal (.parse name) value)
  rw [run_add hl hs] at hlinked ⊢
  have hnodes := nodes_placeNew (d.stage block (.literal (.parse name) value)
    fun id s ↦ s.add id .toBeAdded false) block d.nextId
  generalize (d.stage block (.literal (.parse name) value) fun id s ↦
    s.add id .toBeAdded false) = D at *
  have hnode : ∀ i, (D.placeNew block d.nextId).node? i = D.node? i := fun i ↦ by
    simp only [node?, hnodes]
  generalize D.placeNew block d.nextId = d' at *
  rw [← hnode] at hself
  obtain ⟨n, hn, he⟩ := Option.map_eq_some_iff.mp hself
  have hkind : n.kind = .literal value := congrArg Node.kind he
  have hpending : n.pending = none := congrArg Node.pending he
  have hname : n.name = .parse name := congrArg Node.name he
  have hnew : d'.isLiteralNamed name d.nextId = decide ((Name.parse name).full = name) := by
    simp [isLiteralNamed, hn, Node.tag, hkind, Kind.tag, Node.isCalled, Name.isCalled, hname,
      beq_eq_decide]
  -- the other entries are those of before, and none of them is for a literal of the name
  have hothers : ∀ y ∈ s'.placeable, y ≠ d.nextId → d'.isLiteralNamed name y = false := by
    intro y hy hne
    obtain ⟨e, he, hplace, rfl⟩ := Store.mem_placeable.mp hy
    have hmem : e ∈ s.entries := by
      rw [← hadded.others]
      exact List.mem_filter.mpr ⟨he, by simpa using hne⟩
    have hlt := ((hl.store block s hs).links e.node (Store.mem_nodes_of_mem hmem)).1
    rw [isLiteralNamed_of_bare ((congrArg (Option.map Node.bare) (hnode e.node)).trans
      (hold e.node hlt))]
    exact literal?_eq_none.mp hx e.node (Store.mem_placeable.mpr ⟨e, hmem, hplace, rfl⟩)
  refine ⟨hlinked, lt_nextId hn, ?_, s', hadded.store, ?_⟩
  · simp [Document.value?, hn, Node.value?, hpending, hkind, Kind.value?]
  · split
    · next hfull =>
      obtain ⟨hmem, hid⟩ := Store.mem_of_find? hadded.staged
      refine literal?_of_unique (Store.mem_placeable.mpr ⟨_, hmem, rfl, hid⟩)
        (by simp [hnew, hfull]) fun y hy hlit ↦ ?_
      by_contra hne
      simp [hothers y hy hne] at hlit
    · next hfull =>
      refine literal?_eq_none.mpr fun y hy ↦ ?_
      by_cases hne : y = d.nextId
      · simp [hne, hnew, hfull]
      · exact hothers y hy hne

/-- Setting a literal by its name gives it the value. Setting it again finds the same literal and
lists nothing new, exactly if the literal was there before or is called what its name reads as. -/
theorem setNewLiteral_again_iff (hd : d.Reachable) {v₁ : Value}
    (h : (Edit.setNewLiteral block name v₁).run d = (.ok (.node x), d₁)) (v₂ : Value) :
    d₁.value? x = some v₁ ∧
      ∃ y d₂, (Edit.setNewLiteral block name v₂).run d₁ = (.ok (.node y), d₂) ∧
        d₂.value? y = some v₂ ∧
        (y = x ∧ d₂.entries block = d₁.entries block ↔
          d.isLive x ∨ (Name.parse name).full = name) := by
  have hl := hd.linked
  obtain ⟨s, hs⟩ := exists_store_of_setNewLiteral (congrArg Prod.fst h)
  cases hlit : d.literal? s name with
  | some z =>
    rw [run_setNewLiteral_of_some hl hs hlit] at h
    obtain ⟨rfl, rfl⟩ : z = x ∧ d.stageValue z v₁ = d₁ := by simpa using h
    obtain ⟨n, hn, hset⟩ := literal?_settable hlit
    have hs₁ := (store?_stageValue d z v₁ block).trans hs
    have hlit₁ := (literal?_stageValue d s z v₁ name).trans hlit
    obtain ⟨n₁, hn₁, -⟩ := literal?_settable hlit₁
    refine ⟨value?_stageValue hn v₁, z, _,
      run_setNewLiteral_of_some (hl.stageValue hn hset v₁) hs₁ hlit₁ v₂,
      value?_stageValue hn₁ v₂, iff_of_true ⟨rfl, ?_⟩ (.inl (isLive_iff.mpr ⟨n, hn⟩))⟩
    simp only [entries, store?_stageValue]
  | none =>
    have hintro := introduced hl hs hlit v₁
    rw [run_setNewLiteral_of_none hl hs hlit, run_add hl hs] at h
    rw [run_add hl hs] at hintro
    simp only [Prod.mk.injEq, Except.ok.injEq, Outcome.node.injEq] at h
    obtain ⟨rfl, rfl⟩ := h
    generalize (d.stage block (.literal (.parse name) v₁) fun id s ↦
      s.add id .toBeAdded false).placeNew block d.nextId = d₁ at *
    obtain ⟨s₁, hs₁, hfound⟩ := hintro.found
    have hdead : ¬ d.isLive d.nextId := fun hlive ↦ by
      obtain ⟨n, hn⟩ := isLive_iff.mp hlive
      exact Nat.lt_irrefl _ (lt_nextId hn)
    refine ⟨hintro.value, ?_⟩
    split at hfound
    · next hfull =>
      obtain ⟨n₁, hn₁, -⟩ := literal?_settable hfound
      refine ⟨_, _, run_setNewLiteral_of_some hintro.linked hs₁ hfound v₂,
        value?_stageValue hn₁ v₂, iff_of_true ⟨rfl, ?_⟩ (.inr hfull)⟩
      simp only [entries, store?_stageValue]
    · next hfull =>
      have hintro₂ := introduced hintro.linked hs₁ hfound v₂
      refine ⟨d₁.nextId, _, ?_, hintro₂.value,
        iff_of_false (fun hsame ↦ ?_) (by simp [hdead, hfull])⟩
      · rw [run_setNewLiteral_of_none hintro.linked hs₁ hfound, run_add hintro.linked hs₁]
      · exact Nat.ne_of_gt hintro.next hsame.1

/-- The literal of the block is set twice. -/
theorem setNewLiteral_again_minSdk :
    applicationDocument.Reachable ∧
    ∃ d₁, (Edit.setNewLiteral 1 "minSdk" (.integer 24)).run applicationDocument =
        (.ok (.node 2), d₁) ∧
      d₁.value? 2 = some (.integer 24) ∧
      ∃ d₂, (Edit.setNewLiteral 1 "minSdk" (.integer 26)).run d₁ = (.ok (.node 2), d₂) ∧
        d₂.entries 1 = d₁.entries 1 ∧ d₂.value? 2 = some (.integer 26) := by
  have happ : applicationDocument.Reachable := .merge _ (.edit _ (.new _ _) trivial)
  have hrun : ((Edit.setNewLiteral 1 "minSdk" (.integer 24)).run applicationDocument).1 =
      .ok (.node 2) := by rfl
  have hfirst : (Edit.setNewLiteral 1 "minSdk" (.integer 24)).run applicationDocument =
      (.ok (.node 2), ((Edit.setNewLiteral 1 "minSdk" (.integer 24)).run applicationDocument).2) :=
    Prod.ext hrun rfl
  obtain ⟨hvalue, y, d₂, hsecond, hvalue₂, hiff⟩ :=
    setNewLiteral_again_iff happ hfirst (.integer 26)
  obtain ⟨rfl, hentries⟩ := hiff.mpr (.inl (by decide))
  exact ⟨happ, _, hfirst, hvalue, d₂, hsecond, hentries, hvalue₂⟩

/-- A name with an empty segment is never found: each call stages another literal. -/
theorem setNewLiteral_doubled :
    let first := (Edit.setNewLiteral root "a..b" (.integer 1)).run (.new ⟨"app"⟩ {})
    let second := (Edit.setNewLiteral root "a..b" (.integer 2)).run first.2
    Reachable (.new ⟨"app"⟩ {}) ∧ first.1 = .ok (.node 1) ∧ second.1 = .ok (.node 2) ∧
      (first.2.entries root).map (·.node) = [1] ∧
      (second.2.entries root).map (·.node) = [1, 2] :=
  ⟨.new _ _, by rfl, by rfl, by decide +kernel, by decide +kernel⟩

end Document

end BuildScript
