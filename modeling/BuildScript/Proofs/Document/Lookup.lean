import BuildScript.Proofs.Document.Answers
import Mathlib.Data.List.Induction

namespace BuildScript

/-- The part of a node that a lookup goes by, and the place of the node. -/
def Node.face (n : Node) : Name × Kind × Option NodeId := (n.name, n.kind, n.parent)

def Entry.pick (l : List Entry) : Option Entry :=
  (l.filter (·.state != .applied)).getLast? <|> l.getLast?

namespace Entry

variable {l : List Entry} {e : Entry}

theorem pick_append_own (h : e.state ≠ .applied) : pick (l ++ [e]) = some e := by
  simp [pick, h]

theorem pick_append_applied (h : e.state = .applied) :
    pick (l ++ [e]) = some (((l.filter (·.state != .applied)).getLast?).getD e) := by
  simp only [pick, List.filter_append, List.getLast?_append, List.getLast?_singleton]
  simp only [List.filter_cons, h, bne_self_eq_false, Bool.false_eq_true, if_false,
    List.filter_nil, List.getLast?_nil, Option.none_or, Option.some_or]
  cases (l.filter (·.state != .applied)).getLast? <;> rfl

theorem mem_of_pick (h : pick l = some e) : e ∈ l := by
  rw [pick, Option.orElse_eq_orElse, Option.orElse_eq_or, Option.or_eq_some_iff] at h
  rcases h with h | ⟨-, h⟩
  · exact (List.mem_filter.mp (List.mem_of_getLast? h)).1
  · exact List.mem_of_getLast? h

theorem pick_of_own (h : (l.filter (·.state != .applied)).getLast? = some e) : pick l = some e := by
  rw [pick, h]
  rfl

theorem pick_append_of_own {l' : List Entry} (hl' : ∀ e' ∈ l', e'.state = .applied)
    (h : (l.filter (·.state != .applied)).getLast? = some e) : pick (l ++ l') = some e := by
  refine pick_of_own ?_
  have hnil : l'.filter (·.state != .applied) = [] :=
    List.filter_eq_nil_iff.mpr fun e' he' ↦ by simp [hl' e' he']
  rw [List.filter_append, hnil, List.append_nil, h]

theorem filter_pick (l : List Entry) :
    (pick l).filter (·.state != .applied) = (l.filter (·.state != .applied)).getLast? := by
  cases h : (l.filter (·.state != .applied)).getLast? with
  | some e =>
    have he := (List.mem_filter.mp (List.mem_of_getLast? h)).2
    rw [pick_of_own h, Option.filter_some, if_pos he]
  | none =>
    rw [pick, h]
    have hall : ∀ e ∈ l, (e.state != .applied) ≠ true :=
      List.filter_eq_nil_iff.mp (List.getLast?_eq_none_iff.mp h)
    refine Option.filter_eq_none_iff.mpr fun e he ↦ hall e (List.mem_of_getLast? ?_)
    simpa using he

theorem pick_eq_none_iff : pick l = none ↔ l = [] := by
  rw [pick, Option.orElse_eq_orElse, Option.orElse_eq_or, Option.or_eq_none_iff,
    List.getLast?_eq_none_iff, List.getLast?_eq_none_iff]
  exact ⟨fun h ↦ h.2, fun h ↦ by simp [h]⟩

theorem of_pick_applied (h : pick l = some e) (he : e.state = .applied) :
    l.filter (·.state != .applied) = [] ∧ l.getLast? = some e := by
  have hnone : (l.filter (·.state != .applied)).getLast? = none := by
    rw [← filter_pick, h, Option.filter_some, if_neg (by simp [he])]
  refine ⟨List.getLast?_eq_none_iff.mp hnone, ?_⟩
  rw [pick, hnone] at h
  exact h

theorem getLast?_filter {l : List Entry} {p : Entry → Bool} (h : l.getLast? = some e) (hp : p e) :
    (l.filter p).getLast? = some e := by
  obtain ⟨l, rfl⟩ := List.getLast?_eq_some_iff.mp h
  simp [hp]

/-- The last entry answers unless it is borrowed and another one is not. -/
theorem pick_eq_getLast?_iff : pick l = l.getLast? ↔
    ∀ e, l.getLast? = some e → e.state = .applied → ∀ o ∈ l, o.state = .applied := by
  cases h : (l.filter (·.state != .applied)).getLast? with
  | none =>
    have hall : ∀ o ∈ l, o.state = .applied := by
      intro o ho
      simpa using List.filter_eq_nil_iff.mp (List.getLast?_eq_none_iff.mp h) o ho
    have hpick : pick l = l.getLast? := by
      rw [pick, h]
      rfl
    exact ⟨fun _ _ _ _ ↦ hall, fun _ ↦ hpick⟩
  | some o =>
    obtain ⟨ho, hown⟩ := List.mem_filter.mp (List.mem_of_getLast? h)
    have hne : o.state ≠ .applied := by simpa using hown
    rw [pick_of_own h]
    constructor
    · intro hlast e he hst
      obtain rfl := Option.some.inj (hlast.trans he)
      exact absurd hst hne
    · intro hlast
      obtain ⟨e, he⟩ :=
        Option.isSome_iff_exists.mp (List.getLast?_isSome.mpr (List.ne_nil_of_mem ho))
      have hst : e.state ≠ .applied := fun hst ↦ hne (hlast e he hst o ho)
      rw [he, ← h]
      exact getLast?_filter he (by simpa using hst)

theorem pick_filter {p : Entry → Bool} (h : pick l = some e) (hp : p e) :
    pick (l.filter p) = some e := by
  by_cases he : e.state = .applied
  · obtain ⟨hown, hlast⟩ := of_pick_applied h he
    rw [pick, List.filter_filter, List.filter_congr (q := fun e ↦ p e && (e.state != .applied))
      (fun e _ ↦ Bool.and_comm ..), ← List.filter_filter, hown]
    exact getLast?_filter hlast hp
  · refine pick_of_own ?_
    rw [List.filter_filter, List.filter_congr (q := fun e ↦ p e && (e.state != .applied))
      (fun e _ ↦ Bool.and_comm ..), ← List.filter_filter]
    refine getLast?_filter ?_ hp
    rw [← filter_pick, h, Option.filter_some, if_pos (by simpa using he)]

end Entry

theorem Kind.isVariable_eq (k : Kind) : k.isVariable = (k.tag == .var) := by cases k <;> rfl

theorem Kind.isBlock_eq (k : Kind) : k.isBlock = k.blockKind?.isSome := by cases k <;> rfl

namespace Document

variable {d d' : Document} {b : NodeId} {name : String}

def face? (d : Document) (x : NodeId) : Option (Name × Kind × Option NodeId) :=
  (d.node? x).map Node.face

theorem node?_of_face? {x : NodeId} {n : Node} (h : d'.face? x = d.face? x)
    (hn : d.node? x = some n) :
    ∃ n', d'.node? x = some n' ∧ n'.name = n.name ∧ n'.kind = n.kind ∧ n'.parent = n.parent := by
  rw [face?, face?, hn, Option.map_some] at h
  obtain ⟨n', hn', he⟩ := Option.map_eq_some_iff.mp h
  simp only [Node.face, Prod.mk.injEq] at he
  exact ⟨n', hn', he⟩

theorem lt_of_face? {x : NodeId} {face : Name × Kind × Option NodeId} (h : d.face? x = some face) :
    x < d.nextId := by
  obtain ⟨n, hn, -⟩ := Option.map_eq_some_iff.mp h
  exact lt_nextId hn

def shape? (d : Document) (x : NodeId) : Option (Name × Tag × Option BlockKind × Option NodeId) :=
  (d.face? x).map fun face ↦ (face.1, face.2.1.tag, face.2.1.blockKind?, face.2.2)

theorem shape?_congr {x : NodeId} (h : d'.face? x = d.face? x) : d'.shape? x = d.shape? x := by
  rw [shape?, h, shape?]

theorem node?_of_shape? {x : NodeId} {n : Node} (h : d'.shape? x = d.shape? x)
    (hn : d.node? x = some n) : ∃ n', d'.node? x = some n' ∧ n'.name = n.name ∧
      n'.kind.tag = n.kind.tag ∧ n'.kind.blockKind? = n.kind.blockKind? ∧ n'.parent = n.parent := by
  rw [shape?, shape?, face?, face?, hn, Option.map_some, Option.map_some, Option.map_map] at h
  obtain ⟨n', hn', he⟩ := Option.map_eq_some_iff.mp h
  simp only [Function.comp_apply, Node.face, Prod.mk.injEq] at he
  exact ⟨n', hn', he⟩

def follow? (d : Document) (block : NodeId) (path : List String) : Option NodeId :=
  path.foldlM d.propertyNamed? block

theorem follow?_cons (d : Document) (block : NodeId) (name : String) (path : List String) :
    d.follow? block (name :: path) = (d.propertyNamed? block name).bind (d.follow? · path) :=
  List.foldlM_cons

def declares (d : Document) (name : String) (e : Entry) : Bool :=
  e.isVisible && (d.node? e.node).any fun n ↦ !n.isVariable && n.isCalled name

def isProperty (d : Document) (name : String) (x : NodeId) : Bool :=
  (d.node? x).any fun n ↦ !n.isVariable && n.isCalled name

theorem inState_eq (d : Document) (b : NodeId) (state : EntryState) :
    d.inState b state = ((d.entries b).filter (·.state = state)).map (·.node) := by
  rw [inState, entries]
  cases d.store? b <;> rfl

theorem map_node_filter_applied (d : Document) (b : NodeId) (name : String) :
    (((d.entries b).filter (d.declares name)).filter (·.state = .applied)).map (·.node) =
      (d.inState b .applied).filter (d.isProperty name) := by
  rw [inState_eq, List.filter_map, List.filter_filter, List.filter_filter]
  refine congrArg _ (List.filter_congr fun e _ ↦ ?_)
  cases hst : e.state <;> simp [declares, isProperty, Entry.isVisible, EntryState.isVisible, hst]

theorem map_node_filter_declares
    (h : ((d.entries b).filter (d.declares name)).filter (·.state != .applied) = []) :
    ((d.entries b).filter (d.declares name)).map (·.node) =
      (d.inState b .applied).filter (d.isProperty name) := by
  rw [← map_node_filter_applied]
  refine congrArg _ (List.filter_eq_self.mpr fun e he ↦ ?_).symm
  simpa using List.filter_eq_nil_iff.mp h e he

theorem declares_iff {e : Entry} : d.declares name e ↔ e.isVisible ∧
    ∃ n, d.node? e.node = some n ∧ n.isVariable = false ∧ n.name.full = name := by
  simp only [declares, Bool.and_eq_true, Option.any_eq_true, Bool.not_eq_true', Node.isCalled,
    Name.isCalled, beq_iff_eq]

theorem visible_map_fst (d : Document) (b : NodeId) (p : Node → Bool) :
    (d.visible b p).map Prod.fst =
      (d.entries b).filter fun e ↦ e.isVisible && (d.node? e.node).any p := by
  rw [visible]
  generalize d.entries b = l
  induction l with
  | nil => rfl
  | cons e l ih =>
    rw [List.filter_cons, List.filter_cons]
    cases hv : e.isVisible with
    | false => simpa using ih
    | true =>
      cases hn : d.node? e.node with
      | none => simpa [hn] using ih
      | some n => cases hp : p n <;> simpa [hn, hp, Option.filter] using ih

theorem propertyNamed?_eq (d : Document) (b : NodeId) (name : String) :
    d.propertyNamed? b name =
      (Entry.pick ((d.entries b).filter (d.declares name))).map (·.node) := by
  rw [propertyNamed?, lookup, visible_map_fst]
  rfl

theorem pick_of_propertyNamed? {t : NodeId} (h : d.propertyNamed? b name = some t) :
    ∃ e ∈ d.entries b, d.declares name e ∧ e.node = t ∧
      Entry.pick ((d.entries b).filter (d.declares name)) = some e := by
  rw [propertyNamed?_eq] at h
  obtain ⟨e, he, rfl⟩ := Option.map_eq_some_iff.mp h
  obtain ⟨hmem, hdecl⟩ := List.mem_filter.mp (Entry.mem_of_pick he)
  exact ⟨e, hmem, hdecl, rfl, he⟩

theorem find?_declare (new : Answer) (l : List Answer) (name : String) :
    (declare new l).find? (·.name = name) =
      if new.name = name then
        some (((l.find? (·.name = name)).filter fun old ↦ new.borrowed && !old.borrowed).getD new)
      else l.find? (·.name = name) := by
  induction l with
  | nil => by_cases h : new.name = name <;> simp [declare, h]
  | cons old l ih =>
    rw [declare]
    by_cases hold : old.name = name
    · by_cases hnew : new.name = name
      · rw [if_pos (hold.trans hnew.symm)]
        cases hb : (new.borrowed && !old.borrowed) <;> simp [hold, hnew, hb, Option.filter]
      · rw [if_neg fun h ↦ hnew (h.symm.trans hold)]
        simp [hold, hnew]
    · by_cases hsame : old.name = new.name
      · have hnew : new.name ≠ name := fun h ↦ hold (hsame.trans h)
        cases hb : (new.borrowed && !old.borrowed) <;> simp [hsame, hnew]
      · simpa [hsame, hold] using ih

theorem find?_foldl_declare (l : List (Entry × Node)) (name : String) :
    ((l.foldl (fun answers (e, n) ↦ declare ⟨n.name.full, e.node, e.state = .applied⟩ answers)
      []).find? (·.name = name)).map (fun a ↦ (a.node, a.borrowed)) =
    (Entry.pick ((l.filter (·.2.isCalled name)).map Prod.fst)).map
      fun e ↦ (e.node, decide (e.state = .applied)) := by
  induction l using List.reverseRecOn with
  | nil => rfl
  | append_singleton l q ih =>
    obtain ⟨e, n⟩ := q
    rw [List.foldl_append, List.foldl_cons, List.foldl_nil, find?_declare, List.filter_append,
      List.map_append]
    by_cases hname : n.name.full = name
    · have hcalled : [(e, n)].filter (·.2.isCalled name) = [(e, n)] := by
        simp [Node.isCalled, Name.isCalled, hname]
      rw [if_pos hname, hcalled, List.map_singleton]
      by_cases hst : e.state = .applied
      · rw [Entry.pick_append_applied hst, ← Entry.filter_pick]
        generalize List.find? _ _ = found at ih ⊢
        generalize Entry.pick _ = picked at ih ⊢
        cases found with
        | none =>
          cases picked with
          | none => simp
          | some e₀ => simp at ih
        | some a =>
          cases picked with
          | none => simp at ih
          | some e₀ =>
            simp only [Option.map_some, Option.some.injEq, Prod.mk.injEq] at ih
            by_cases hst₀ : e₀.state = .applied
            · simp [Option.filter, hst, hst₀, ih]
            · simp [Option.filter, hst, hst₀, ih]
      · rw [Entry.pick_append_own hst]
        simp [hst]
    · simp [Node.isCalled, Name.isCalled, hname, ih]

theorem lookup_map_answers (l : List Answer) (name : String) :
    (l.map fun a ↦ (a.name, a.node)).lookup name = (l.find? (·.name = name)).map (·.node) := by
  induction l with
  | nil => rfl
  | cons a l ih =>
    rw [List.map_cons, List.lookup_cons, List.find?_cons, ih]
    by_cases h : a.name = name
    · simp [h]
    · have hne : (name == a.name) = false := by simpa using Ne.symm h
      simp [h, hne]

theorem visible_filter (d : Document) (b : NodeId) (p q : Node → Bool) :
    (d.visible b p).filter (q ·.2) = d.visible b fun n ↦ p n && q n := by
  rw [visible, visible, List.filter_filterMap]
  refine List.filterMap_congr fun e _ ↦ ?_
  cases d.node? e.node with
  | none => rfl
  | some n => cases hp : p n <;> simp [Option.filter, hp]

/-- The map and the lookup of a single name have the same answer. -/
theorem lookup_answers (d : Document) (b : NodeId) (p : Node → Bool) (name : String) :
    (d.answers b p).lookup name = d.lookup b fun n ↦ p n && n.isCalled name := by
  have hfind := find?_foldl_declare (d.visible b p) name
  have hnode := congrArg (Option.map Prod.fst) hfind
  rw [Option.map_map, Option.map_map, visible_filter d b p (·.isCalled name)] at hnode
  rw [answers, lookup_map_answers]
  exact hnode

theorem mem_answers_iff {p : Node → Bool} {t : NodeId} :
    (name, t) ∈ d.answers b p ↔ d.lookup b (fun n ↦ p n && n.isCalled name) = some t := by
  rw [← lookup_answers, List.lookup_eq_some_iff]
  constructor
  · intro h
    obtain ⟨l₁, l₂, hl⟩ := List.append_of_mem h
    refine ⟨l₁, l₂, hl, fun q hq ↦ ?_⟩
    have hnodup := (answers_spec d b p).1
    rw [hl, List.map_append, List.map_cons] at hnodup
    have hne : q.1 ≠ name := (List.nodup_append.mp hnodup).2.2 q.1 (List.mem_map_of_mem hq) name
      List.mem_cons_self
    simpa using Ne.symm hne
  · rintro ⟨l₁, l₂, hl, -⟩
    simp [hl]

theorem lookup_propertyMap (d : Document) (b : NodeId) (name : String) :
    (d.propertyMap b).lookup name = d.propertyNamed? b name := lookup_answers d b _ name

theorem mem_propertyMap {t : NodeId} :
    (name, t) ∈ d.propertyMap b ↔ d.propertyNamed? b name = some t := mem_answers_iff

/-- What a block declares goes by its entries and the faces of their nodes. -/
theorem declares_congr {e : Entry}
    (h : d'.face? e.node = d.face? e.node) : d'.declares name e = d.declares name e := by
  unfold declares
  unfold face? at h
  congr 1
  generalize d'.node? e.node = o at h ⊢
  generalize d.node? e.node = o' at h ⊢
  cases o <;> cases o' <;>
    simp_all [Node.face, Node.isVariable, Node.isCalled]

theorem isProperty_of_shape? {x : NodeId} (h : d'.shape? x = d.shape? x) :
    d'.isProperty name x = d.isProperty name x := by
  unfold isProperty
  unfold shape? face? at h
  generalize d'.node? x = o at h ⊢
  generalize d.node? x = o' at h ⊢
  cases o <;> cases o' <;>
    simp_all [Node.face, Node.isVariable, Node.isCalled, Kind.isVariable_eq]

theorem propertyNamed?_of_no_own
    (h : ((d.entries b).filter (d.declares name)).filter (·.state != .applied) = []) :
    d.propertyNamed? b name = ((d.inState b .applied).filter (d.isProperty name)).getLast? := by
  rw [← map_node_filter_declares h, propertyNamed?_eq, Entry.pick, h, List.getLast?_map]
  rfl

theorem propertyNamed?_congr (he : d'.entries b = d.entries b)
    (hn : ∀ e ∈ d.entries b,
      d'.face? e.node = d.face? e.node) : d'.propertyNamed? b name = d.propertyNamed? b name := by
  rw [propertyNamed?_eq, propertyNamed?_eq, he,
    List.filter_congr fun e hmem ↦ declares_congr (hn e hmem)]

theorem propertyMap_congr (he : d'.entries b = d.entries b)
    (hn : ∀ e ∈ d.entries b,
      d'.face? e.node = d.face? e.node) : d'.propertyMap b = d.propertyMap b := by
  have hfold : ∀ d : Document, d.propertyMap b =
      ((((d.visible b (!·.isVariable)).map fun q ↦
        (⟨q.2.name.full, q.1.node, q.1.state = .applied⟩ : Answer)).foldl
          (fun answers a ↦ declare a answers) []).map fun a ↦ (a.name, a.node)) := fun d ↦ by
    rw [List.foldl_map]
    rfl
  rw [hfold, hfold, visible, visible, he, List.map_filterMap, List.map_filterMap,
    List.filterMap_congr fun e hmem ↦ ?_]
  have hface := hn e (List.mem_filter.mp hmem).1
  unfold face? at hface
  generalize d'.node? e.node = o at hface ⊢
  generalize d.node? e.node = o' at hface ⊢
  cases o with
  | none => cases o' <;> simp_all
  | some n =>
    cases o' with
    | none => simp at hface
    | some n' =>
      simp only [Option.map_some, Option.some.injEq, Node.face, Prod.mk.injEq] at hface
      cases hv : n'.kind.isVariable <;>
        simp [Option.filter, Node.isVariable, hface, hv]

end Document

end BuildScript
