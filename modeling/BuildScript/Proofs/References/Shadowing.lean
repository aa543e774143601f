import BuildScript.Proofs.Layers
import Mathlib.Data.List.Infix

namespace BuildScript

namespace Document

variable {d : Document} {a b c n p x : NodeId} {m : Node} {name : String} {path parts : List String}
  {cut : String × List String} {fuel : Nat}

def conceal (d : Document) (block node : NodeId) : Document :=
  d.modifyStore block fun s ↦ { s with
    entries := s.entries.map fun e ↦ if e.node = node then { e with state := .hidden } else e }

/-- Resolve a path from inside a block, wherever it is written. The longest name that the block
declares decides, if what it answers with leads on to the rest of the path. -/
def locateIn (d : Document) : Nat → NodeId → List String → Option NodeId
  | 0, _, _ => none
  | fuel + 1, block, path =>
    (cuts path).findSome? fun cut ↦ (d.elementNamed? block cut.1).bind fun id ↦
      if cut.2.isEmpty then some id
      else if (d.store? id).isSome then d.locateIn fuel id cut.2
      else none

/-- No path takes more steps than it has names. -/
def locate (d : Document) (block : NodeId) (path : List String) : Option NodeId :=
  d.locateIn path.length block path

/-- What the rest of a path leads to below a node. -/
def leads (d : Document) (id : NodeId) (path : List String) : Option NodeId :=
  if path.isEmpty then some id
  else if (d.store? id).isSome then d.locate id path
  else none

def via (d : Document) (block : NodeId) (cut : String × List String) : Option NodeId :=
  (d.elementNamed? block cut.1).bind (d.leads · cut.2)

/-- Resolve a reference from a scope, wherever it is written: the innermost block around the scope
from inside which it resolves decides. -/
def locateFrom (d : Document) (scope : NodeId) (reference : String) : Option NodeId :=
  (d.lineage scope).findSome? fun block ↦ d.locate block (Name.parse reference).parts

/-- What a reference resolves to from the place of a node where that node does not show. -/
def locateBeside (d : Document) (node : NodeId) (reference : String) : Option NodeId := do
  let scope ← (← d.node? node).parent
  (d.conceal scope node).locateFrom scope reference

/-- The blocks that the search for a path from a scope comes to, with what is left of the path: the
blocks around the scope until it resolves in one, and what answers to a beginning of the path if no
longer one has led to anything. -/
inductive Searched (d : Document) (scope : NodeId) (parts : List String) :
    NodeId → List String → Prop
  | start {before after : List NodeId} {a : NodeId} : d.lineage scope = before ++ a :: after →
      (∀ b ∈ before, d.locate b parts = none) → Searched d scope parts a parts
  | descend {c x : NodeId} {path : List String} {before after : List (String × List String)}
      {cut : String × List String} : Searched d scope parts c path →
      cuts path = before ++ cut :: after → (∀ cut' ∈ before, d.via c cut' = none) →
      d.elementNamed? c cut.1 = some x → Searched d scope parts x cut.2

/-- The search comes to a block and tries a cut there, with the shorter ones still to be tried. -/
def Tried (d : Document) (scope : NodeId) (parts : List String) (c : NodeId)
    (cut : String × List String) (shorter : List (String × List String)) : Prop :=
  ∃ path longer, Searched d scope parts c path ∧ cuts path = longer ++ cut :: shorter ∧
    ∀ cut' ∈ longer, d.via c cut' = none

theorem mem_cuts (h : cut ∈ cuts path) : cut.2 <:+ path ∧ cut.2.length < path.length := by
  obtain ⟨i, hi, rfl⟩ := List.mem_map.mp h
  have hlt := List.mem_range.mp (List.mem_reverse.mp hi)
  refine ⟨List.drop_suffix _ _, ?_⟩
  rw [List.length_drop]
  omega

theorem cuts_pairwise (path : List String) :
    (cuts path).Pairwise fun cut cut' ↦ cut.2.length < cut'.2.length := by
  rw [cuts, List.pairwise_map, List.pairwise_reverse]
  refine List.pairwise_lt_range.imp_of_mem fun {i j} hi hj hij ↦ ?_
  have hlt := List.mem_range.mp hj
  simp only [List.length_drop]
  omega

theorem join_findSome?_eq {α β : Type} {f : α → Option (Option β)} {g : α → Option β} {l : List α}
    (h : ∀ before x after, l = before ++ x :: after → (∀ y ∈ before, g y = none) →
      f x = (g x).map some ∨ f x = some none ∧ g x = none ∧ ∀ y ∈ after, g y = none) :
    (l.findSome? f).join = l.findSome? g := by
  induction l with
  | nil => rfl
  | cons x l ih =>
    rw [List.findSome?_cons, List.findSome?_cons]
    rcases h [] x l rfl (by simp) with hfx | ⟨hfx, hgx, hrest⟩
    · cases hgx : g x with
      | some y => simp [hfx, hgx]
      | none =>
        rw [hfx, hgx]
        refine ih fun before y after hl hbefore ↦ h (x :: before) y after (by rw [hl]; rfl) ?_
        exact List.forall_mem_cons.mpr ⟨hgx, hbefore⟩
    · rw [hfx, hgx]
      exact (List.findSome?_eq_none_iff.mpr hrest).symm

/-- Two searches agree that agree on what is tried in vain, and on what comes next. -/
theorem findSome?_eq {α β : Type} {f g : α → Option β} {l : List α}
    (h : ∀ before x after, l = before ++ x :: after → (∀ y ∈ before, g y = none) → f x = g x) :
    l.findSome? f = l.findSome? g := by
  induction l with
  | nil => rfl
  | cons x l ih =>
    rw [List.findSome?_cons, List.findSome?_cons, h [] x l rfl (by simp)]
    cases hgx : g x with
    | some y => rfl
    | none =>
      refine ih fun before y after hl hbefore ↦ h (x :: before) y after (by rw [hl]; rfl) ?_
      exact List.forall_mem_cons.mpr ⟨hgx, hbefore⟩

theorem findSome?_congr {α β : Type} {f g : α → Option β} {l : List α}
    (h : ∀ x ∈ l, f x = g x) : l.findSome? f = l.findSome? g :=
  findSome?_eq fun _ x _ hl _ ↦ h x (hl ▸ List.mem_append_right _ List.mem_cons_self)

/-- More fuel than the path has names changes nothing. -/
theorem locateIn_eq (h : path.length ≤ fuel) : d.locateIn fuel b path = d.locate b path := by
  suffices hfuel : ∀ fuel fuel' b path, path.length ≤ fuel → path.length ≤ fuel' →
      d.locateIn fuel b path = d.locateIn fuel' b path from hfuel _ _ b path h (Nat.le_refl _)
  intro fuel fuel'
  induction fuel generalizing fuel' with
  | zero =>
    intro b path hz _
    obtain rfl := List.length_eq_zero_iff.mp (Nat.le_zero.mp hz)
    cases fuel' <;> rfl
  | succ fuel ih =>
    intro b path hf hf'
    cases fuel' with
    | zero =>
      obtain rfl := List.length_eq_zero_iff.mp (Nat.le_zero.mp hf')
      rfl
    | succ fuel' =>
      rw [locateIn, locateIn]
      refine findSome?_congr fun cut hcut ↦ ?_
      have hlt := (mem_cuts hcut).2
      refine congrArg _ (funext fun id ↦ ?_)
      rw [ih fuel' id cut.2 (by omega) (by omega)]

theorem locate_eq (d : Document) (b : NodeId) (path : List String) :
    d.locate b path = (cuts path).findSome? (d.via b) := by
  cases path with
  | nil => rfl
  | cons name path =>
    rw [locate, List.length_cons, locateIn]
    refine findSome?_congr fun cut hcut ↦ ?_
    have hlt := (mem_cuts hcut).2
    rw [List.length_cons] at hlt
    refine congrArg _ (funext fun id ↦ ?_)
    rw [locateIn_eq (Nat.le_of_lt_succ hlt)]
    rfl

def hits (d : Document) (b : NodeId) (name : String) : List Entry :=
  (d.visible b (·.isCalled name)).map Prod.fst

theorem elementNamed?_eq (d : Document) (b : NodeId) (name : String) :
    d.elementNamed? b name = (Entry.pick (d.hits b name)).map (·.node) := rfl

theorem lookupPast_eq (d : Document) (b : NodeId) (name : String) (n : NodeId) :
    d.lookupPast b name n = ((d.hits b name).filter (·.node != n)).getLast?.map (·.node) := by
  have hnodes : d.lookupPast b name n =
      (((d.hits b name).map (·.node)).filter (· != n)).getLast? := by
    rw [hits, List.map_map]
    rfl
  rw [hnodes, List.filter_map, List.getLast?_map]
  rfl

theorem mem_hits {e : Entry} : e ∈ d.hits b name ↔ e ∈ d.entries b ∧ e.isVisible ∧
    ∃ n, d.node? e.node = some n ∧ n.name.full = name := by
  rw [hits, visible_map_fst, List.mem_filter, Bool.and_eq_true, Option.any_eq_true]
  simp [Node.isCalled, Name.isCalled]

@[simp]
theorem node?_conceal (d : Document) (b n i : NodeId) : (d.conceal b n).node? i = d.node? i := rfl

theorem isSome_store?_conceal (d : Document) (b n i : NodeId) :
    ((d.conceal b n).store? i).isSome = (d.store? i).isSome := by
  rw [conceal, store?_modifyStore]
  split <;> simp

theorem hits_conceal (d : Document) (b n : NodeId) (name : String) :
    (d.conceal b n).hits b name = (d.hits b name).filter (·.node != n) := by
  have hentries : (d.conceal b n).entries b =
      (d.entries b).map fun e ↦ if e.node = n then { e with state := .hidden } else e := by
    rw [entries, conceal, store?_modifyStore, if_pos rfl, entries]
    cases d.store? b <;> rfl
  rw [hits, hits, visible_map_fst, visible_map_fst, hentries, List.filter_map, List.filter_filter]
  -- what is hidden is filtered out, and all else is as it was
  have hshown : (d.entries b).filter
      ((fun e : Entry ↦ e.isVisible && ((d.conceal b n).node? e.node).any (·.isCalled name)) ∘
        fun e ↦ if e.node = n then { e with state := .hidden } else e)
      = (d.entries b).filter fun e ↦ e.node != n && (e.isVisible && (d.node? e.node).any
        (·.isCalled name)) := by
    refine List.filter_congr fun e _ ↦ ?_
    by_cases he : e.node = n
    · simp [he, Entry.isVisible, EntryState.isVisible]
    · simp [he]
  rw [hshown]
  refine (List.map_congr_left fun e he ↦ ?_).trans (List.map_id _)
  have hne : e.node ≠ n := by simpa using (Bool.and_eq_true_iff.mp (List.mem_filter.mp he).2).1
  exact if_neg hne

theorem hits_conceal_of_ne (hc : c ≠ b) : (d.conceal b n).hits c name = d.hits c name := by
  have hentries : (d.conceal b n).entries c = d.entries c := by
    rw [entries, conceal, store?_modifyStore, if_neg hc.symm, entries]
  rw [hits, hits, visible, visible, hentries]
  rfl

theorem lineage_conceal (d : Document) (b n i : NodeId) :
    (d.conceal b n).lineage i = d.lineage i := by
  have hfuel : ∀ fuel i, (d.conceal b n).lineageWithin fuel i = d.lineageWithin fuel i := by
    intro fuel
    induction fuel with
    | zero => exact fun _ ↦ rfl
    | succ fuel ih =>
      intro i
      rw [lineageWithin, lineageWithin, node?_conceal]
      simp only [ih]
  exact hfuel _ i

theorem of_mem_hits {e : Entry} (he : e ∈ d.hits b name) :
    d.Contains b e.node ∧ ∃ n, d.node? e.node = some n ∧ n.name.full = name := by
  obtain ⟨hmem, -, hn⟩ := mem_hits.mp he
  exact ⟨contains_of_entries hmem, hn⟩

theorem of_elementNamed? (h : d.elementNamed? b name = some x) :
    d.Contains b x ∧ ∃ n, d.node? x = some n ∧ n.name.full = name := by
  obtain ⟨e, he, rfl⟩ := Option.map_eq_some_iff.mp (elementNamed?_eq d b name ▸ h)
  exact of_mem_hits (Entry.mem_of_pick he)

theorem of_elementNamed?_conceal (h : (d.conceal p n).elementNamed? c name = some x) :
    d.Contains c x ∧ ∃ m, d.node? x = some m ∧ m.name.full = name := by
  by_cases hc : c = p
  · subst hc
    rw [elementNamed?_eq, hits_conceal] at h
    obtain ⟨e, he, rfl⟩ := Option.map_eq_some_iff.mp h
    exact of_mem_hits (List.mem_filter.mp (Entry.mem_of_pick he)).1
  · rw [elementNamed?_eq, hits_conceal_of_ne hc, ← elementNamed?_eq] at h
    exact of_elementNamed? h

theorem elementNamed?_conceal (h : d.elementNamed? c name = some x) (hx : x ≠ n) :
    (d.conceal p n).elementNamed? c name = some x := by
  rw [elementNamed?_eq] at h ⊢
  by_cases hc : c = p
  · subst hc
    obtain ⟨e, he, rfl⟩ := Option.map_eq_some_iff.mp h
    rw [hits_conceal, Entry.pick_filter he (by simpa using hx)]
    rfl
  · rwa [hits_conceal_of_ne hc]

theorem elementNamed?_conceal_of_none (h : d.elementNamed? c name = none) :
    (d.conceal p n).elementNamed? c name = none := by
  by_cases hc : c = p
  · subst hc
    rw [elementNamed?_eq, Option.map_eq_none_iff, Entry.pick_eq_none_iff] at h ⊢
    rw [hits_conceal, h, List.filter_nil]
  · rwa [elementNamed?_eq, hits_conceal_of_ne hc]

/-- Where the search for a path comes to a name that a node answers for: the last declaration that
the node shadows is borrowed only if all of them are, and if it does not lead on to the rest of the
path, no shorter name does. -/
structure Unhindered (d : Document) (block node : NodeId) (name : String) (parts : List String) :
    Prop where
  order : ∀ cut shorter, Tried (d.conceal block node) block parts block cut shorter → cut.1 = name →
    ∀ e, ((d.hits block name).filter (·.node != node)).getLast? = some e → e.state = .applied →
      ∀ o ∈ (d.hits block name).filter (·.node != node), o.state = .applied
  descent : ∀ cut shorter, Tried (d.conceal block node) block parts block cut shorter →
    cut.1 = name → ((d.conceal block node).elementNamed? block name).isSome →
    (d.conceal block node).via block cut = none →
    ∀ cut' ∈ shorter, (d.conceal block node).via block cut' = none

/-- Then the last declaration that the node shadows is the one that the block answers with where the
node does not show. -/
theorem Unhindered.lookupPast_eq {shorter : List (String × List String)}
    (h : Unhindered d b n cut.1 parts) (ht : Tried (d.conceal b n) b parts b cut shorter) :
    d.lookupPast b cut.1 n = (d.conceal b n).elementNamed? b cut.1 := by
  rw [Document.lookupPast_eq, elementNamed?_eq, hits_conceal,
    Entry.pick_eq_getLast?_iff.mpr (h.order cut shorter ht rfl)]

theorem Searched.reaches (h : Searched (d.conceal p n) p parts c path) (ho : d.Older) :
    (∃ a, Below d a p ∧ Reaches d a c) ∧ path <:+ parts := by
  induction h with
  | @start before after a ha _ =>
    have hmem : a ∈ d.lineage p := by
      rw [← lineage_conceal (b := p) (n := n), ha]
      exact List.mem_append_right _ List.mem_cons_self
    exact ⟨⟨a, ((mem_lineage ho).mp hmem).2.2, .refl⟩, List.suffix_refl _⟩
  | @descend c x path before after cut _ hcuts _ hx ih =>
    obtain ⟨⟨a, ha, hr⟩, hpath⟩ := ih
    obtain ⟨hc, m, hm, -⟩ := of_elementNamed?_conceal hx
    have hcut : cut ∈ cuts path := hcuts ▸ List.mem_append_right _ List.mem_cons_self
    exact ⟨⟨a, ha, hr.tail ⟨hc, isLive_iff.mpr ⟨m, hm⟩⟩⟩, (mem_cuts hcut).1.trans hpath⟩

/-- It is enough to look at all ends of the path. -/
theorem Unhindered.of_tails (ho : d.Older)
    (horder : ∀ e ∈ ((d.hits b name).filter (·.node != n)).getLast?, e.state = .applied →
      ∀ o ∈ (d.hits b name).filter (·.node != n), o.state = .applied)
    (hdescent : ∀ path ∈ parts.tails, ∀ cut ∈ cuts path, cut.1 = name →
      ((d.conceal b n).elementNamed? b name).isSome → (d.conceal b n).via b cut = none →
      ∀ cut' ∈ cuts path, cut.2.length < cut'.2.length → (d.conceal b n).via b cut' = none) :
    Unhindered d b n name parts where
  order _ _ _ _ := horder
  descent cut shorter htried hname hshadowed hvia cut' hcut' := by
    obtain ⟨path, longer, hsearched, hcuts, -⟩ := htried
    have hpairs := hcuts ▸ cuts_pairwise path
    refine hdescent path ((List.mem_tails _ _).mpr (hsearched.reaches ho).2) cut (by simp [hcuts])
      hname hshadowed hvia cut' (by simp [hcuts, hcut']) ?_
    exact (List.pairwise_cons.mp (List.pairwise_append.mp hpairs).2.1).1 cut' hcut'

def leadsPast (d : Document) (n : NodeId) (fuel : Nat) (id : NodeId) (path : List String) :
    Option NodeId :=
  if path.isEmpty then some id
  else if (d.store? id).isSome then d.resolveIn n fuel id path
  else none

/-- What is tried with one cut: nothing, or a declaration that leads on or not. -/
def attempt (d : Document) (n : NodeId) (fuel : Nat) (block : NodeId)
    (cut : String × List String) : Option (Option NodeId) :=
  match d.elementNamed? block cut.1 with
  | none => none
  | some found =>
    if found = n then (d.lookupPast block cut.1 n).map (d.leadsPast n fuel · cut.2)
    else (d.leadsPast n fuel found cut.2).map some

theorem resolveIn_succ (d : Document) (n : NodeId) (fuel : Nat) (b : NodeId) (path : List String) :
    d.resolveIn n (fuel + 1) b path = ((cuts path).findSome? (d.attempt n fuel b)).join := rfl

section Attempt

variable (hleads : ∀ x, (d.conceal p n).elementNamed? c cut.1 = some x →
  d.leadsPast n fuel x cut.2 = (d.conceal p n).leads x cut.2)

theorem attempt_of_none (h : d.elementNamed? c cut.1 = none) :
    d.attempt n fuel c cut = ((d.conceal p n).via c cut).map some := by
  rw [attempt, h, via, elementNamed?_conceal_of_none h]
  rfl

include hleads

theorem attempt_of_ne (h : d.elementNamed? c cut.1 = some x) (hx : x ≠ n) :
    d.attempt n fuel c cut = ((d.conceal p n).via c cut).map some := by
  have hshown := elementNamed?_conceal (p := p) h hx
  rw [attempt, h, via, hshown]
  simp only [if_neg hx, Option.bind_some]
  rw [hleads x hshown]

/-- Where the node itself answers, the search breaks off if what it shadows does not lead on. -/
theorem attempt_of_self {shorter : List (String × List String)} (hc : c = p)
    (h : d.elementNamed? c cut.1 = some n) (hun : Unhindered d p n cut.1 parts)
    (ht : Tried (d.conceal p n) p parts p cut shorter) :
    d.attempt n fuel c cut = ((d.conceal p n).via c cut).map some ∨
      d.attempt n fuel c cut = some none ∧ (d.conceal p n).via c cut = none ∧
        ((d.conceal p n).elementNamed? p cut.1).isSome := by
  subst hc
  have hpast : d.attempt n fuel c cut =
      ((d.conceal c n).elementNamed? c cut.1).map (d.leadsPast n fuel · cut.2) := by
    rw [attempt, h, ← hun.lookupPast_eq ht]
    exact if_pos rfl
  cases hshadowed : (d.conceal c n).elementNamed? c cut.1 with
  | none =>
    refine .inl ?_
    rw [hpast, via, hshadowed]
    rfl
  | some t =>
    have hvia : (d.conceal c n).via c cut = (d.conceal c n).leads t cut.2 := by
      rw [via, hshadowed]
      rfl
    rw [hpast, hshadowed, Option.map_some, hleads t hshadowed, hvia]
    cases (d.conceal c n).leads t cut.2 with
    | some y => exact .inl rfl
    | none => exact .inr ⟨rfl, rfl, rfl⟩

end Attempt

/-- Where the search comes to, references of a node resolve as if the node did not show. -/
theorem resolveIn_eq (h : Layered d) (ho : d.Older) (hn : d.node? n = some m)
    (hp : m.parent = some p)
    (hun : d.elementNamed? p m.name.full = some n → Unhindered d p n m.name.full parts)
    (hs : Searched (d.conceal p n) p parts c path) (hfuel : path.length ≤ fuel) :
    d.resolveIn n fuel c path = (d.conceal p n).locate c path := by
  induction fuel generalizing c path with
  | zero =>
    obtain rfl := List.length_eq_zero_iff.mp (Nat.le_zero.mp hfuel)
    rfl
  | succ fuel ih =>
    rw [resolveIn_succ, locate_eq]
    refine join_findSome?_eq fun longer cut shorter hcuts hlonger ↦ ?_
    have hcut : cut ∈ cuts path := hcuts ▸ List.mem_append_right _ List.mem_cons_self
    have hlt := (mem_cuts hcut).2
    have hleads : ∀ x, (d.conceal p n).elementNamed? c cut.1 = some x →
        d.leadsPast n fuel x cut.2 = (d.conceal p n).leads x cut.2 := fun x hx ↦ by
      rw [leadsPast, leads, isSome_store?_conceal, ih (.descend hs hcuts hlonger hx) (by omega)]
    cases hfound : d.elementNamed? c cut.1 with
    | none => exact .inl (attempt_of_none hfound)
    | some x =>
      by_cases hx : x = n
      · subst hx
        obtain ⟨hc, m', hm', hname⟩ := of_elementNamed? hfound
        obtain rfl := Option.some.inj (hn.symm.trans hm')
        obtain ⟨⟨a, ha, hr⟩, -⟩ := hs.reaches ho
        obtain rfl := h.eq_of_contains hn hp ha hr hc
        rw [hname] at hun
        have htried : Tried (d.conceal c x) c parts c cut shorter :=
          ⟨path, longer, hs, hcuts, hlonger⟩
        exact (attempt_of_self hleads rfl hfound (hun hfound) htried).imp_right
          fun ⟨hf, hvia, hshadowed⟩ ↦
            ⟨hf, hvia, (hun hfound).descent cut shorter htried rfl hshadowed hvia⟩
      · exact .inl (attempt_of_ne hleads hfound hx)

/-- A reference resolves to what it would resolve to if the node with it did not show, unless the
node itself answers for its name and hinders that. -/
theorem resolveReference?_eq_locateBeside (hd : d.Reachable) (n : NodeId) (reference : String)
    (h : ∀ m p, d.node? n = some m → m.parent = some p →
      d.elementNamed? p m.name.full = some n →
      Unhindered d p n m.name.full (Name.parse reference).parts) :
    d.resolveReference? n reference = d.locateBeside n reference := by
  rw [resolveReference?, locateBeside]
  cases hn : d.node? n with
  | none => rfl
  | some m =>
    cases hp : m.parent with
    | none => simp [hp]
    | some p =>
      simp only [Option.bind_eq_bind, Option.bind_some, hp, resolve?, locateFrom, lineage_conceal]
      refine findSome?_eq fun before a after ha hbefore ↦ ?_
      rw [← lineage_conceal (b := p) (n := n)] at ha
      exact resolveIn_eq hd.layered hd.linked.older hn hp (h m p hn hp) (.start ha hbefore)
        (Nat.le_refl _)

/-- The version `7` refers to the one it shadows, not to the borrowed one, and `8` to what is inside
the block that the beginning of its own name means. -/
def shadowingDocument : Document :=
  let d := ((Document.new ⟨"app"⟩ {}).merge libraryDocument).2
  let d := ((Edit.addParsed root (.literal ⟨["version"]⟩ (.integer 2))).run d).2
  let d := ((Edit.addParsed root
    { name := ⟨["a"]⟩, kind := .block "a"
      children := [{ name := ⟨["b"]⟩, kind := .block "b"
                     children := [.literal ⟨["c"]⟩ (.integer 3)] }] }).run d).2
  let d := ((Edit.addParsed root (.literal ⟨["version"]⟩ (.reference "version"))).run d).2
  ((Edit.addParsed root (.literal ⟨["a", "b"]⟩ (.reference "a.b.c"))).run d).2

theorem reachable_shadowingDocument : shadowingDocument.Reachable :=
  .edit _ (.edit _ (.edit _ (.edit _ (.merge libraryDocument (.new ⟨"app"⟩ {})) trivial) trivial)
    trivial) trivial

theorem resolveReference?_of_shadowed :
    shadowingDocument.Reachable ∧
    shadowingDocument.resolveReference? 7 "version" =
      shadowingDocument.locateBeside 7 "version" ∧
    shadowingDocument.locateBeside 7 "version" = some 3 ∧
    shadowingDocument.resolveReference? 8 "a.b.c" = shadowingDocument.locateBeside 8 "a.b.c" ∧
    shadowingDocument.locateBeside 8 "a.b.c" = some 6 := by
  have hversion : Unhindered shadowingDocument root 7 "version" (Name.parse "version").parts :=
    .of_tails reachable_shadowingDocument.linked.older (by decide +kernel) (by decide +kernel)
  have hpath : Unhindered shadowingDocument root 8 "a.b" (Name.parse "a.b.c").parts :=
    .of_tails reachable_shadowingDocument.linked.older (by decide +kernel) (by decide +kernel)
  have hnode : ∀ m ∈ shadowingDocument.node? 7, m.name.full = "version" ∧ m.parent = some root := by
    decide +kernel
  have hnode' : ∀ m ∈ shadowingDocument.node? 8, m.name.full = "a.b" ∧ m.parent = some root := by
    decide +kernel
  refine ⟨reachable_shadowingDocument, ?_, by decide +kernel, ?_, by decide +kernel⟩
  · refine resolveReference?_eq_locateBeside reachable_shadowingDocument 7 "version"
      fun m p hm hp _ ↦ ?_
    obtain ⟨hname, hroot⟩ := hnode m hm
    obtain rfl := Option.some.inj (hroot.symm.trans hp)
    rwa [hname]
  · refine resolveReference?_eq_locateBeside reachable_shadowingDocument 8 "a.b.c"
      fun m p hm hp _ ↦ ?_
    obtain ⟨hname, hroot⟩ := hnode' m hm
    obtain rfl := Option.some.inj (hroot.symm.trans hp)
    rwa [hname]

def shadowedDocument : Document :=
  let d := ((Edit.addParsed root (.literal ⟨["version"]⟩ (.integer 2))).run (.new ⟨"app"⟩ {})).2
  let d := ((Edit.addParsed root (.literal ⟨["version"]⟩ (.reference "version"))).run
    (d.merge libraryDocument).2).2
  let d := ((Edit.addParsed root (.literal ⟨["a", "b"]⟩ (.integer 3))).run d).2
  let d := ((Edit.addParsed root
    { name := ⟨["a"]⟩, kind := .block "a"
      children := [{ name := ⟨["b"]⟩, kind := .block "b"
                     children := [.literal ⟨["c"]⟩ (.integer 4)] }] }).run d).2
  ((Edit.addParsed root (.literal ⟨["a", "b"]⟩ (.reference "a.b.c"))).run d).2

/-- The reference of `4` goes to the borrowed version although the block has one of its own, and
that of `9` gives up at the literal that the node shadows. -/
theorem not_resolveReference?_eq_locateBeside :
    shadowedDocument.Reachable ∧
    shadowedDocument.resolveReference? 4 "version" = some 3 ∧
    shadowedDocument.locateBeside 4 "version" = some 1 ∧
    shadowedDocument.resolveReference? 9 "a.b.c" = none ∧
    shadowedDocument.locateBeside 9 "a.b.c" = some 8 := by
  refine ⟨?_, by decide +kernel, by decide +kernel, by decide +kernel, by decide +kernel⟩
  exact .edit _ (.edit _ (.edit _ (.edit _ (.merge libraryDocument (.edit _ (.new ⟨"app"⟩ {})
    trivial)) trivial) trivial) trivial) trivial

end Document

end BuildScript
