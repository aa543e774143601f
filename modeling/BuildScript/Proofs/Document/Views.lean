import BuildScript.Proofs.Document.Lookup

namespace BuildScript

namespace Entry

variable {l : List Entry} {e : Entry} {p : Entry → Bool}

def IsLast (P : Entry → Prop) (l : List Entry) (e : Entry) : Prop :=
  ∃ before after, l = before ++ e :: after ∧ P e ∧ ∀ x ∈ after, ¬ P x

theorem isLast_iff : IsLast (fun x ↦ p x) l e ↔ (l.filter p).getLast? = some e := by
  constructor
  · rintro ⟨before, after, rfl, hp, hafter⟩
    rw [List.filter_append, List.filter_cons_of_pos hp, List.filter_eq_nil_iff.mpr hafter]
    exact List.getLast?_concat
  · intro h
    obtain ⟨front, hfront⟩ := List.getLast?_eq_some_iff.mp h
    obtain ⟨before, rest, rfl, -, hrest⟩ := List.filter_eq_append_iff.mp hfront
    obtain ⟨skipped, after, rfl, -, hp, hafter⟩ := List.filter_eq_cons_iff.mp hrest
    exact ⟨before ++ skipped, after, by simp, hp, List.filter_eq_nil_iff.mp hafter⟩

theorem isLast_own_iff : IsLast (fun x ↦ p x ∧ x.state ≠ .applied) l e ↔
    ((l.filter p).filter (·.state != .applied)).getLast? = some e := by
  have hboth : (fun x ↦ p x = true ∧ x.state ≠ .applied) =
      fun x : Entry ↦ ((x.state != .applied) && p x) = true := by
    funext x
    simp [and_comm]
  rw [hboth, isLast_iff, List.filter_filter]

/-- The entry that answers is the last one that is not borrowed, or the last one where all are. -/
theorem pick_filter_eq_some_iff : pick (l.filter p) = some e ↔
    IsLast (fun x ↦ p x ∧ x.state ≠ .applied) l e ∨
      (∀ x ∈ l, p x → x.state = .applied) ∧ IsLast (fun x ↦ p x) l e := by
  rw [isLast_own_iff, isLast_iff]
  constructor
  · intro h
    by_cases hst : e.state = .applied
    · obtain ⟨hnone, hlast⟩ := of_pick_applied h hst
      refine .inr ⟨fun x hx hp ↦ ?_, hlast⟩
      simpa using List.filter_eq_nil_iff.mp hnone x (List.mem_filter.mpr ⟨hx, hp⟩)
    · have hlast := filter_pick (l.filter p)
      rw [h, Option.filter_some, if_pos (by simpa using hst)] at hlast
      exact .inl hlast.symm
  · rintro (hlast | ⟨hall, hlast⟩)
    · exact pick_of_own hlast
    · have hnone : (l.filter p).filter (·.state != .applied) = [] := by
        refine List.filter_eq_nil_iff.mpr fun x hx ↦ ?_
        obtain ⟨hx, hp⟩ := List.mem_filter.mp hx
        simp [hall x hx hp]
      rw [pick, hnone]
      exact hlast

end Entry

namespace Document

variable {d : Document} {b : NodeId} {p : Node → Bool} {name : String}

def shows (d : Document) (p : Node → Bool) (name : String) (e : Entry) : Bool :=
  e.isVisible && (d.node? e.node).any fun n ↦ p n && n.isCalled name

/-- Who answers for a name: the last of the block's own entries for it, or the last that is borrowed
where there are no others. -/
inductive AnswersFor (d : Document) (b : NodeId) (p : Node → Bool) (name : String) : NodeId → Prop
  | own {e : Entry} : e.IsLast (fun x ↦ d.shows p name x ∧ x.state ≠ .applied) (d.entries b) →
      AnswersFor d b p name e.node
  | borrowed {e : Entry} : (∀ x ∈ d.entries b, d.shows p name x → x.state = .applied) →
      e.IsLast (fun x ↦ d.shows p name x) (d.entries b) → AnswersFor d b p name e.node

theorem lookup_eq_some_iff {id : NodeId} :
    d.lookup b (fun n ↦ p n && n.isCalled name) = some id ↔ d.AnswersFor b p name id := by
  have hlookup : d.lookup b (fun n ↦ p n && n.isCalled name) =
      (Entry.pick ((d.entries b).filter (d.shows p name))).map (·.node) := by
    rw [lookup, visible_map_fst]
    rfl
  rw [hlookup, Option.map_eq_some_iff]
  constructor
  · rintro ⟨e, he, rfl⟩
    rcases Entry.pick_filter_eq_some_iff.mp he with hown | ⟨hall, hlast⟩
    · exact .own hown
    · exact .borrowed hall hlast
  · intro h
    cases h with
    | own hown => exact ⟨_, Entry.pick_filter_eq_some_iff.mpr (.inl hown), rfl⟩
    | borrowed hall hlast =>
      exact ⟨_, Entry.pick_filter_eq_some_iff.mpr (.inr ⟨hall, hlast⟩), rfl⟩

theorem names_foldl_declare (l : List (Entry × Node)) :
    (l.foldl (fun answers (e, n) ↦ declare ⟨n.name.full, e.node, e.state = .applied⟩ answers)
      []).map (·.name) = (l.map (·.2.name.full)).eraseDups := by
  induction l using List.reverseRecOn with
  | nil => rfl
  | append_singleton l q ih =>
    rw [List.foldl_append, List.foldl_cons, List.foldl_nil, names_declare, ih, List.map_append,
      List.eraseDups_append]
    by_cases hmem : q.2.name.full ∈ l.map (·.2.name.full)
    · rw [if_pos (List.mem_eraseDups.mpr hmem)]
      simp [List.removeAll, hmem]
    · rw [if_neg fun h ↦ hmem (List.mem_eraseDups.mp h)]
      simp [List.removeAll, hmem, List.eraseDups_cons]

/-- A map from names to nodes and a lookup of single names that are two views of what a block shows
through `p`: they answer alike, and the map lists the names as they are first declared. -/
structure Concordant (d : Document) (b : NodeId) (p : Node → Bool) (map : List (String × NodeId))
    (named? : String → Option NodeId) : Prop where
  nodup : (map.map Prod.fst).Nodup
  order : map.map Prod.fst = ((d.visible b p).map (·.2.name.full)).eraseDups
  mem_iff : ∀ name id, (name, id) ∈ map ↔ named? name = some id
  answers : ∀ name id, named? name = some id ↔ d.AnswersFor b p name id

theorem concordant (d : Document) (b : NodeId) (p : Node → Bool) :
    Concordant d b p (d.answers b p) fun name ↦ d.lookup b fun n ↦ p n && n.isCalled name where
  nodup := (answers_spec d b p).1
  order := by
    have hnames := names_foldl_declare (d.visible b p)
    simpa only [Document.answers, List.map_map, Function.comp_def] using hnames
  mem_iff _ _ := mem_answers_iff
  answers _ _ := lookup_eq_some_iff

/-- Properties, variables and elements: what the map of a block lists under a name is what a lookup
of the name finds. -/
theorem maps_concordant (d : Document) (b : NodeId) :
    Concordant d b (!·.isVariable) (d.propertyMap b) (d.propertyNamed? b) ∧
    Concordant d b Node.isVariable (d.variableMap b) (d.variableNamed? b) ∧
    Concordant d b (fun _ ↦ true) (d.elementMap b) (d.elementNamed? b) :=
  ⟨concordant d b _, concordant d b _, concordant d b _⟩

end Document

end BuildScript
