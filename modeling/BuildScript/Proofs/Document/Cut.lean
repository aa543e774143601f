import BuildScript.Proofs.Document.Views
import BuildScript.Proofs.Reachable

namespace BuildScript

/-- The entries up to the first visible one for a node, with that one or without it, and all of them
where there is none. -/
def Store.upTo (child : NodeId) (withChild : Bool) : List Entry → List Entry
  | [] => []
  | e :: rest =>
    if e.isVisible && e.node == child then if withChild then [e] else []
    else e :: upTo child withChild rest

namespace Store

variable {child : NodeId} {withChild : Bool} {l : List Entry}

theorem upTo_sublist : (upTo child withChild l).Sublist l := by
  fun_induction upTo child withChild l with
  | case1 => exact .slnil
  | case2 e rest => exact List.singleton_sublist.mpr List.mem_cons_self
  | case3 e rest => exact List.nil_sublist _
  | case4 e rest _ ih => exact ih.cons_cons e

theorem upTo_eq_self (h : ∀ e ∈ l, e.node = child → e.isVisible = false) :
    upTo child withChild l = l := by
  induction l with
  | nil => rfl
  | cons e l ih =>
    obtain ⟨he, hl⟩ := List.forall_mem_cons.mp h
    have hskip : ¬ (e.isVisible && e.node == child) = true := by
      rw [Bool.and_eq_true, beq_iff_eq]
      rintro ⟨hv, hn⟩
      simp [he hn] at hv
    rw [upTo, if_neg hskip, ih hl]

theorem filter_upTo (child : NodeId) (withChild : Bool) (l : List Entry) :
    (upTo child withChild l).filter (·.isVisible) =
      if withChild then
        (l.filter (·.isVisible)).take
          (((l.filter (·.isVisible)).takeWhile (·.node != child)).length + 1)
      else (l.filter (·.isVisible)).takeWhile (·.node != child) := by
  induction l with
  | nil => cases withChild <;> rfl
  | cons e l ih =>
    rw [upTo]
    cases hv : e.isVisible with
    | false => simpa [hv] using ih
    | true =>
      by_cases hn : e.node = child
      · cases withChild <;> simp [hv, hn]
      · cases withChild <;> simp_all

end Store

namespace Document

variable {d : Document} {b child : NodeId} {name : String} {withChild : Bool}

def cut (d : Document) (block child : NodeId) (withChild : Bool) : Document :=
  d.modifyStore block fun s ↦ { s with entries := Store.upTo child withChild s.entries }

theorem entries_cut (d : Document) (b child : NodeId) (withChild : Bool) :
    (d.cut b child withChild).entries b = Store.upTo child withChild (d.entries b) := by
  rw [cut, entries, store?_modifyStore, if_pos rfl, entries]
  cases d.store? b <;> rfl

/-- What a block declares under a name ends with a borrowed entry, behind one of its own. -/
def Overtaken (d : Document) (block : NodeId) (name : String) : Prop :=
  ∃ e : Entry, e.IsLast (fun x ↦ d.declares name x) (d.entries block) ∧ e.state = .applied ∧
    ∃ o ∈ d.entries block, d.declares name o ∧ o.state ≠ .applied

/-- In front of a child the last declaration answers, whether it is borrowed or not. -/
theorem propertyBefore?_eq (d : Document) (b child : NodeId) (name : String) (withChild : Bool) :
    d.propertyBefore? b (some child) name withChild =
      (((d.cut b child withChild).entries b).filter (d.declares name)).getLast?.map (·.node) := by
  have hdeclares : d.declares name = fun e ↦ e.isVisible &&
      (d.node? e.node).any fun n ↦ !n.isVariable && n.isCalled name := rfl
  simp only [propertyBefore?]
  rw [← Store.filter_upTo, List.filter_filter, entries_cut, hdeclares]
  simp only [Bool.and_comm]

theorem propertyNamed?_cut (d : Document) (b child : NodeId) (name : String) (withChild : Bool) :
    (d.cut b child withChild).propertyNamed? b name =
      (Entry.pick (((d.cut b child withChild).entries b).filter (d.declares name))).map
        (·.node) := propertyNamed?_eq _ b name

theorem not_overtaken_iff : ¬ d.Overtaken b name ↔
    Entry.pick ((d.entries b).filter (d.declares name)) =
      ((d.entries b).filter (d.declares name)).getLast? := by
  rw [Entry.pick_eq_getLast?_iff]
  constructor
  · intro h e he hst o ho
    obtain ⟨ho, hdecl⟩ := List.mem_filter.mp ho
    by_contra hne
    exact h ⟨e, Entry.isLast_iff.mpr he, hst, o, ho, hdecl, hne⟩
  · rintro h ⟨e, he, hst, o, ho, hdecl, hne⟩
    exact hne (h e (Entry.isLast_iff.mp he) hst o (List.mem_filter.mpr ⟨ho, hdecl⟩))

theorem map_node_eq_iff {l : List Entry} (hl : (l.map (·.node)).Nodup) {o o' : Option Entry}
    (ho : ∀ e ∈ o, e ∈ l) (ho' : ∀ e ∈ o', e ∈ l) : o.map (·.node) = o'.map (·.node) ↔ o = o' := by
  refine ⟨fun h ↦ ?_, fun h ↦ congrArg _ h⟩
  cases o with
  | none => cases o' <;> simp_all
  | some e =>
    cases o' with
    | none => simp at h
    | some e' =>
      have hnode : e.node = e'.node := by simpa using h
      rw [Store.eq_of_node_eq (s := { entries := l }) hl (ho e rfl) (ho' e' rfl) hnode]

theorem nodup_entries_cut (h : Linked d) (b child : NodeId) (withChild : Bool) :
    (((d.cut b child withChild).entries b).map (·.node)).Nodup := by
  rw [entries_cut]
  refine List.Nodup.sublist (Store.upTo_sublist.map _) ?_
  cases hs : d.store? b with
  | none => simp [entries, hs]
  | some s =>
    rw [entries_eq hs]
    exact (h.store b s hs).nodup

theorem propertyBefore?_eq_cut_iff (h : Linked d) (b child : NodeId) (name : String)
    (withChild : Bool) :
    d.propertyBefore? b (some child) name withChild =
      (d.cut b child withChild).propertyNamed? b name ↔
        ¬ (d.cut b child withChild).Overtaken b name := by
  rw [propertyBefore?_eq, propertyNamed?_cut,
    map_node_eq_iff (nodup_entries_cut h b child withChild), eq_comm, not_overtaken_iff]
  · rfl
  · exact fun e he ↦ (List.mem_filter.mp (List.mem_of_getLast? he)).1
  · exact fun e he ↦ (List.mem_filter.mp (Entry.mem_of_pick he)).1

/-- A lookup in front of a child is one in the block that ends there, unless a borrowed declaration
of the name stands last behind one of the block's own. Then the borrowed one answers. -/
theorem propertyBefore?_eq_iff (hd : d.Reachable) (b child : NodeId) (name : String)
    (withChild : Bool) :
    d.propertyBefore? b none name withChild = d.propertyNamed? b name ∧
    (∀ id, d.propertyBefore? b (some child) name withChild = some id ↔
      ∃ e : Entry, e.IsLast (fun x ↦ d.declares name x) ((d.cut b child withChild).entries b) ∧
        e.node = id) ∧
    (d.propertyBefore? b (some child) name withChild =
      (d.cut b child withChild).propertyNamed? b name ↔
        ¬ (d.cut b child withChild).Overtaken b name) ∧
    ((∀ e ∈ d.entries b, e.node = child → e.isVisible = false) →
      (d.propertyBefore? b (some child) name withChild = d.propertyBefore? b none name withChild ↔
        ¬ d.Overtaken b name)) := by
  have hcut := propertyBefore?_eq_cut_iff hd.linked b child name withChild
  refine ⟨rfl, fun id ↦ ?_, hcut, fun hchild ↦ ?_⟩
  · rw [propertyBefore?_eq, Option.map_eq_some_iff]
    simp only [Entry.isLast_iff]
  · have hwhole : (d.cut b child withChild).entries b = d.entries b := by
      rw [entries_cut, Store.upTo_eq_self hchild]
    have hnamed : (d.cut b child withChild).propertyNamed? b name = d.propertyNamed? b name :=
      propertyNamed?_congr hwhole fun _ _ ↦ rfl
    have hover : (d.cut b child withChild).Overtaken b name ↔ d.Overtaken b name := by
      rw [Overtaken, hwhole]
      rfl
    rw [hnamed, hover] at hcut
    exact hcut

def orderedVersions : Document :=
  let d := (((Document.new ⟨"app"⟩ {}).merge libraryDocument).2)
  let d := ((Edit.addParsed root (.literal ⟨["version"]⟩ (.integer 2))).run d).2
  let d := ((Edit.addParsed root (.literal ⟨["name"]⟩ (.string "app"))).run d).2
  ((Edit.remove root 4).run d).2

/-- In front of the removed name the whole block counts, and in front of its own version only what
it has borrowed. -/
theorem propertyBefore?_eq_iff_orderedVersions :
    orderedVersions.Reachable ∧
    (∀ e ∈ orderedVersions.entries root, e.node = 4 → e.isVisible = false) ∧
    orderedVersions.propertyBefore? root (some 4) "version" false =
      orderedVersions.propertyBefore? root none "version" false ∧
    orderedVersions.propertyBefore? root none "version" false = some 3 ∧
    orderedVersions.propertyBefore? root (some 3) "version" false =
      (orderedVersions.cut root 3 false).propertyNamed? root "version" ∧
    (orderedVersions.cut root 3 false).propertyNamed? root "version" = some 2 := by
  have hd : orderedVersions.Reachable :=
    .edit _ (.edit _ (.edit _ (.merge _ (.new _ _)) trivial) trivial) trivial
  have hchild : ∀ e ∈ orderedVersions.entries root, e.node = 4 → e.isVisible = false := by
    decide +kernel
  have hwhole : ¬ orderedVersions.Overtaken root "version" :=
    not_overtaken_iff.mpr (by decide +kernel)
  have hcut : ¬ (orderedVersions.cut root 3 false).Overtaken root "version" :=
    not_overtaken_iff.mpr (by decide +kernel)
  refine ⟨hd, hchild, ?_, by decide +kernel, ?_, by decide +kernel⟩
  · exact ((propertyBefore?_eq_iff hd root 4 "version" false).2.2.2 hchild).mpr hwhole
  · exact (propertyBefore?_eq_iff hd root 3 "version" false).2.2.1.mpr hcut

def overtakenVersion : Document :=
  let d := ((Edit.addParsed root (.literal ⟨["version"]⟩ (.integer 2))).run (.new ⟨"app"⟩ {})).2
  ((Edit.addParsed root (.literal ⟨["name"]⟩ (.string "app"))).run (d.merge libraryDocument).2).2

/-- The borrowed version `3` answers in front of the name, although the block has the version `1` of
its own there. -/
theorem propertyBefore?_overtaken :
    overtakenVersion.Reachable ∧
    overtakenVersion.propertyBefore? root (some 4) "version" false = some 3 ∧
    (overtakenVersion.cut root 4 false).propertyNamed? root "version" = some 1 :=
  ⟨.edit _ (.merge _ (.edit _ (.new _ _) trivial)) trivial, by decide +kernel, by decide +kernel⟩

end Document

end BuildScript
