import Mathlib.Data.List.Forall2
import BuildScript.Proofs.Folding.Twin

namespace BuildScript

def Node.currentKind (n : Node) : Kind :=
  match n.value? with
  | some v => n.kind.withValue v
  | none => n.kind

theorem Node.tag_currentKind (n : Node) : n.currentKind.tag = n.tag := by
  rw [currentKind]
  cases n.value? with
  | none => rfl
  | some v => cases h : n.kind <;> simp [Node.tag, Kind.withValue, Kind.tag, h]

theorem Node.isContainer_currentKind (n : Node) : n.currentKind.isContainer = n.isContainer := by
  rw [currentKind]
  cases n.value? with
  | none => rfl
  | some v => exact Kind.isContainer_withValue ..

theorem Node.isVariable_currentKind (n : Node) : n.currentKind.isVariable = n.isVariable := by
  rw [currentKind]
  cases n.value? with
  | none => rfl
  | some v => cases h : n.kind <;> simp [Node.isVariable, Kind.withValue, Kind.isVariable, h]

namespace Document

variable {A A' B O : Document} {c id lo lo' t t' x y : NodeId} {n : Node}

theorem forall₂_getLast? {R : NodeId → NodeId → Prop} {l l' : List NodeId}
    (h : List.Forall₂ R l l') : Option.Rel R l.getLast? l'.getLast? := by
  rw [List.getLast?_eq_head?_reverse, List.getLast?_eq_head?_reverse]
  have hrev : List.Forall₂ R l.reverse l'.reverse := List.rel_reverse h
  generalize l.reverse = k at hrev ⊢
  generalize l'.reverse = k' at hrev ⊢
  cases hrev with
  | nil => exact .none
  | cons hxy _ => exact .some hxy

theorem filter_query (d : Document) (b : NodeId) (p q : Node → Bool) :
    (d.query b p false false).filter (fun x ↦ (d.node? x).any q) =
      d.query b (fun n ↦ p n && q n) false false := by
  rw [query, query]
  cases d.store? b with
  | none => rfl
  | some s =>
    simp only [Store.query, List.filter_map, List.filter_filter]
    congr 1
    refine List.filter_congr fun e _ ↦ ?_
    rw [Function.comp_apply]
    cases d.node? e.node with
    | none => simp
    | some n => cases hp : p n <;> cases hq : q n <;> simp [hp, hq]

def copied (d : Document) (b : NodeId) : List NodeId :=
  d.query b (·.tag != .inclusion) false false

/-- The last visible declaration of a name in a block, own or borrowed, inclusions apart. -/
def lastNamed? (d : Document) (b : NodeId) (name : String) : Option NodeId :=
  (d.query b (fun n ↦ n.tag != .inclusion && (!n.isVariable && n.isCalled name))
    false false).getLast?

/-- The copy `y` of the block `c`, with the copies of the blocks in it as deep as the fuel goes. -/
def Filled (O A : Document) (lo : NodeId) : Nat → NodeId → NodeId → Prop
  | 0, _, _ => True
  | fuel + 1, c, y => lo ≤ y ∧ ∃ l, A.listing? y = some (l.map (.fresh · .existing false)) ∧
      List.Forall₂ (fun x z ↦ lo ≤ z ∧ ∃ n, O.node? x = some n ∧
        A.gist? z = some (n.name, n.currentKind) ∧ (n.isContainer → Filled O A lo fuel x z))
        (O.copied c) l

/-- The copy `z` of the declaration `x`. -/
def Mirrors (O A : Document) (lo : NodeId) (fuel : Nat) (x z : NodeId) : Prop :=
  lo ≤ z ∧ ∃ n, O.node? x = some n ∧ A.gist? z = some (n.name, n.currentKind) ∧
    (n.isContainer → Filled O A lo fuel x z)

theorem filled_succ {fuel : Nat} : Filled O A lo (fuel + 1) c y ↔ lo ≤ y ∧
    ∃ l, A.listing? y = some (l.map (.fresh · .existing false)) ∧
      List.Forall₂ (Mirrors O A lo fuel) (O.copied c) l := Iff.rfl

/-- What `A` has, `B` has as well, but for the entries of `t`. -/
structure Retains (t : NodeId) (A B : Document) : Prop where
  sizes : B.stores.size = B.nodes.size
  next : A.nextId ≤ B.nextId
  config : B.config = A.config
  gist : ∀ x g, A.gist? x = some g → B.gist? x = some g
  listing : ∀ x l, x ≠ t → A.listing? x = some l → B.listing? x = some l

theorem lt_of_gist? {g : Name × Kind} (h : A.gist? x = some g) : x < A.nextId := by
  obtain ⟨n, hn, -⟩ := Option.map_eq_some_iff.mp h
  exact lt_nextId hn

theorem lt_of_listing? {l : List Entry} (hsizes : A.stores.size = A.nodes.size)
    (h : A.listing? x = some l) : x < A.nextId := by
  obtain ⟨s, hs, -⟩ := Option.map_eq_some_iff.mp h
  have hlt := Table.lt_size_of_get? hs
  rw [hsizes] at hlt
  exact hlt

namespace Retains

theorem refl (h : A.stores.size = A.nodes.size) : Retains t A A :=
  ⟨h, Nat.le_refl _, rfl, fun _ _ h ↦ h, fun _ _ _ h ↦ h⟩

theorem trans (hsizes : A.stores.size = A.nodes.size) (h : Retains t A A') (h' : Retains t' A' B)
    (ht : t' = t ∨ A.nextId ≤ t') : Retains t A B where
  sizes := h'.sizes
  next := Nat.le_trans h.next h'.next
  config := h'.config.trans h.config
  gist x g hx := h'.gist x g (h.gist x g hx)
  listing x l hne hx := by
    refine h'.listing x l (fun he ↦ ?_) (h.listing x l hne hx)
    subst he
    rcases ht with rfl | hle
    · exact hne rfl
    · exact absurd (lt_of_listing? hsizes hx) (Nat.not_lt.mpr hle)

theorem enroll (h : A.stores.size = A.nodes.size) (ht : t < A.nextId) (n : Node) :
    Retains t A (A.enroll t n) where
  sizes := by simpa [Document.enroll, push, modifyStore] using h
  next := by
    rw [nextId_enroll]
    exact Nat.le_succ _
  config := rfl
  gist x g hx := by
    rw [gist?_enroll, if_neg (Nat.ne_of_lt (lt_of_gist? hx)), hx]
  listing x l hne hx := by
    rw [listing?_enroll h ht, if_neg (Nat.ne_of_lt (lt_of_listing? h hx)), if_neg hne, hx]

end Retains

section Mono

variable {fuel : Nat} (hgist : ∀ x g, A.gist? x = some g → A'.gist? x = some g)
  (hlisting : ∀ x l, lo ≤ x → A.listing? x = some l → A'.listing? x = some l) (hle : lo' ≤ lo)

include hgist hlisting hle

theorem Filled.mono (h : Filled O A lo fuel c y) : Filled O A' lo' fuel c y := by
  induction fuel generalizing c y with
  | zero => trivial
  | succ fuel ih =>
    obtain ⟨hy, l, hl, hfilled⟩ := filled_succ.mp h
    refine filled_succ.mpr ⟨Nat.le_trans hle hy, l, hlisting y _ hy hl,
      hfilled.imp fun x z hxz ↦ ?_⟩
    obtain ⟨hz, n, hn, hg, hin⟩ := hxz
    exact ⟨Nat.le_trans hle hz, n, hn, hgist z _ hg, fun hcont ↦ ih (hin hcont)⟩

theorem Mirrors.mono (h : Mirrors O A lo fuel x y) : Mirrors O A' lo' fuel x y := by
  obtain ⟨hy, n, hn, hg, hin⟩ := h
  exact ⟨Nat.le_trans hle hy, n, hn, hgist y _ hg,
    fun hcont ↦ (hin hcont).mono hgist hlisting hle⟩

end Mono

def copyStep (O : Document) (fuel : Nat) (t : NodeId) (m : Merging) (id : NodeId) : Merging :=
  match O.node? id with
  | none => m
  | some n =>
    if n.tag = .inclusion then { m with skipped := m.skipped ++ [n.name.full] }
    else
      let m' := { m with document := m.document.enroll t (copyOf n t) }
      if n.isContainer then copyBlock O fuel id m.document.nextId m' else m'

theorem copyBlock_succ (O : Document) (fuel : Nat) (c t : NodeId) (m : Merging) :
    copyBlock O (fuel + 1) c t m = (O.allElements c).foldl (copyStep O fuel t) m := rfl

def Copies (O : Document) (fuel : Nat) : Prop :=
  ∀ (c t : NodeId) (m : Merging), m.document.stores.size = m.document.nodes.size →
    m.document.listing? t = some [] → Retains t m.document (copyBlock O fuel c t m).document ∧
      Filled O (copyBlock O fuel c t m).document t fuel c t

section Copy

variable {fuel : Nat} {m : Merging} {es : List Entry}

theorem copyStep_of_skipped (h : ¬ (O.node? id).any (·.tag != .inclusion)) :
    (copyStep O fuel t m id).document = m.document := by
  rw [copyStep]
  cases hn : O.node? id with
  | none => rfl
  | some n => simp_all

theorem copyStep_spec (h : Copies O fuel)
    (hsizes : m.document.stores.size = m.document.nodes.size)
    (hlist : m.document.listing? t = some es) (hn : O.node? id = some n)
    (htag : n.tag ≠ .inclusion) :
    Retains t m.document (copyStep O fuel t m id).document ∧
      (copyStep O fuel t m id).document.listing? t =
        some (es ++ [.fresh m.document.nextId .existing false]) ∧
      Mirrors O (copyStep O fuel t m id).document m.document.nextId fuel id
        m.document.nextId := by
  have hlt := lt_of_listing? hsizes hlist
  have hretains := Retains.enroll hsizes hlt (copyOf n t)
  have hgist : (m.document.enroll t (copyOf n t)).gist? m.document.nextId =
      some (n.name, n.currentKind) := by
    rw [gist?_enroll, if_pos rfl]
    rfl
  have hlist' : (m.document.enroll t (copyOf n t)).listing? t =
      some (es ++ [.fresh m.document.nextId .existing false]) := by
    rw [listing?_enroll hsizes hlt, if_neg (Nat.ne_of_lt hlt), if_pos rfl, hlist]
    rfl
  rw [copyStep, hn]
  simp only [if_neg htag]
  split
  · next hcont =>
    have hnew : (m.document.enroll t (copyOf n t)).listing? m.document.nextId = some [] := by
      rw [listing?_enroll hsizes hlt, if_pos rfl, if_pos]
      exact (Node.isContainer_currentKind n).trans hcont
    obtain ⟨hin, hfilled⟩ := h id m.document.nextId
      { m with document := m.document.enroll t (copyOf n t) } hretains.sizes hnew
    refine ⟨hretains.trans hsizes hin (.inr (Nat.le_refl _)), ?_,
      Nat.le_refl _, n, hn, hin.gist _ _ hgist, fun _ ↦ hfilled⟩
    exact hin.listing t _ (Nat.ne_of_lt hlt) hlist'
  · next hcont =>
    exact ⟨hretains, hlist', Nat.le_refl _, n, hn, hgist, fun hyes ↦ absurd hyes hcont⟩

theorem foldl_copyStep (h : Copies O fuel) (ids : List NodeId)
    (hsizes : m.document.stores.size = m.document.nodes.size)
    (hlist : m.document.listing? t = some es) :
    Retains t m.document (ids.foldl (copyStep O fuel t) m).document ∧ ∃ l,
      (ids.foldl (copyStep O fuel t) m).document.listing? t =
        some (es ++ l.map (.fresh · .existing false)) ∧
      List.Forall₂ (Mirrors O (ids.foldl (copyStep O fuel t) m).document t fuel)
        (ids.filter fun x ↦ (O.node? x).any (·.tag != .inclusion)) l := by
  induction ids generalizing m es with
  | nil =>
    refine ⟨.refl hsizes, [], ?_, .nil⟩
    simpa using hlist
  | cons id ids ih =>
    rw [List.foldl_cons]
    by_cases hcopied : (O.node? id).any (·.tag != .inclusion)
    · obtain ⟨n, hn, htag⟩ := (Option.any_eq_true _ _).mp hcopied
      obtain ⟨hstep, hlist', hmirrors⟩ := copyStep_spec h hsizes hlist hn (by simpa using htag)
      obtain ⟨hrest, l, hl, hfilled⟩ := ih hstep.sizes hlist'
      have hlt := lt_of_listing? hsizes hlist
      rw [List.filter_cons_of_pos (by exact hcopied)]
      refine ⟨hstep.trans hsizes hrest (.inl rfl), m.document.nextId :: l, ?_,
        .cons (hmirrors.mono hrest.gist (fun x l hx ↦ ?_) (Nat.le_of_lt hlt)) hfilled⟩
      · rw [hl, List.append_assoc]
        rfl
      · exact hrest.listing x l (Nat.ne_of_gt (Nat.lt_of_lt_of_le hlt hx))
    · have hskip : (copyStep O fuel t m id).document = m.document := copyStep_of_skipped hcopied
      rw [List.filter_cons_of_neg (by exact hcopied)]
      rw [← hskip] at hsizes hlist ⊢
      exact ih hsizes hlist

theorem copies (O : Document) (fuel : Nat) : Copies O fuel := by
  induction fuel with
  | zero => exact fun c t m hsizes _ ↦ ⟨.refl hsizes, trivial⟩
  | succ fuel ih =>
    intro c t m hsizes hempty
    have hcopied : O.copied c = (O.allElements c).filter fun x ↦
        (O.node? x).any (·.tag != .inclusion) := by
      rw [allElements, filter_query]
      rfl
    obtain ⟨hretains, l, hl, hfilled⟩ := foldl_copyStep ih (O.allElements c) hsizes hempty
    rw [copyBlock_succ, filled_succ, hcopied]
    exact ⟨hretains, Nat.le_refl _, l, hl, hfilled⟩

end Copy

theorem propertyNamed?_of_listing {l : List NodeId}
    (h : A.listing? y = some (l.map (.fresh · .existing false))) (name : String) :
    A.propertyNamed? y name = (l.filter fun z ↦
      (A.node? z).any fun n ↦ !n.isVariable && n.isCalled name).getLast? := by
  have hdeclares : A.declares name ∘ (Entry.fresh · .existing false) =
      fun z ↦ (A.node? z).any fun n ↦ !n.isVariable && n.isCalled name := by
    funext z
    simp [declares, Entry.fresh, Entry.isVisible, EntryState.isVisible]
  rw [propertyNamed?_eq, entries_eq_listing?, h, Option.getD_some, List.filter_map, hdeclares]
  generalize l.filter _ = l
  cases hl : l.getLast? with
  | none =>
    rw [List.getLast?_eq_none_iff.mp hl]
    rfl
  | some z =>
    obtain ⟨l, rfl⟩ := List.getLast?_eq_some_iff.mp hl
    rw [List.map_append, List.map_singleton, Entry.pick_append_own (by simp [Entry.fresh])]
    rfl

theorem Mirrors.any_iff {fuel : Nat} (h : Mirrors O A lo fuel x y) (name : String) :
    (O.node? x).any (fun n ↦ !n.isVariable && n.isCalled name) ↔
      (A.node? y).any fun n ↦ !n.isVariable && n.isCalled name := by
  obtain ⟨-, n, hn, hgist, -⟩ := h
  obtain ⟨k, hk, he⟩ := Option.map_eq_some_iff.mp hgist
  simp only [Node.gist, Prod.mk.injEq] at he
  have hvar : k.isVariable = n.isVariable := by
    rw [Node.isVariable, he.2, Node.isVariable_currentKind]
  rw [hn, hk, Option.any_some, Option.any_some, hvar, Node.isCalled, Node.isCalled, he.1]

/-- A copy answers with the copy of the last declaration, whether that is an own one or not. -/
theorem Filled.propertyNamed? {fuel : Nat} (h : Filled O A lo (fuel + 1) c y) (name : String) :
    Option.Rel (Mirrors O A lo fuel) (O.lastNamed? c name) (A.propertyNamed? y name) := by
  obtain ⟨-, l, hl, hfilled⟩ := filled_succ.mp h
  have hlast : O.lastNamed? c name = ((O.copied c).filter fun x ↦
      (O.node? x).any fun n ↦ !n.isVariable && n.isCalled name).getLast? := by
    rw [copied, filter_query]
    rfl
  rw [hlast, propertyNamed?_of_listing hl]
  exact forall₂_getLast? (List.rel_filter (fun _ _ hxz ↦ hxz.any_iff name) hfilled)

end Document

end BuildScript
