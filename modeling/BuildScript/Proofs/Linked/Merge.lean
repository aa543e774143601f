import BuildScript.Document.Merge
import BuildScript.Proofs.Document.Answers
import BuildScript.Proofs.Linked.Edit

namespace BuildScript.Document

variable {d d' : Document} {b o x y target source node : NodeId} {n : Node} {s : Store}

def enroll (d : Document) (b : NodeId) (n : Node) : Document :=
  (d.push n).modifyStore b (·.add d.nextId .existing false)

def lend (d : Document) (b node : NodeId) : Document :=
  (d.modifyStore b (·.add node .applied false)).modifyNode node
    fun n ↦ { n with holders := n.holders ++ [b] }

def emptyBlock (parent : NodeId) (name : String) (kind : BlockKind) : Node :=
  { name := .parse name, kind := .block kind, parent := some parent }

theorem Extends.enroll (h : Linked d) (b : NodeId) (n : Node) : Extends b d (d.enroll b n) :=
  (Extends.push h n b).trans (.modifyStore _ b _)

theorem node?_enroll (d : Document) (b : NodeId) (n : Node) (i : NodeId) :
    (d.enroll b n).node? i = if i = d.nextId then some n else d.node? i := node?_push d n i

theorem node?_lend (d : Document) (b node i : NodeId) : (d.lend b node).node? i =
    if node = i then (d.node? i).map fun n ↦ { n with holders := n.holders ++ [b] }
    else d.node? i := by
  simp only [lend, node?_modifyNode, node?_modifyStore]

theorem nextId_enroll (d : Document) (b : NodeId) (n : Node) :
    (d.enroll b n).nextId = d.nextId + 1 := nextId_push d n

theorem nextId_lend (d : Document) (b node : NodeId) : (d.lend b node).nextId = d.nextId :=
  nextId_modifyNode ..

theorem store?_lend (d : Document) (b node i : NodeId) : (d.lend b node).store? i =
    if b = i then (d.store? i).map (·.add node .applied false) else d.store? i := by
  simp only [lend, store?_modifyNode, store?_modifyStore]

theorem node?_of_enroll {m : Node} (h : (d.enroll b n).node? x = some m) :
    x = d.nextId ∧ m = n ∨ d.node? x = some m :=
  node?_of_push h

theorem node?_enroll_of_some {m : Node} (h : d.node? x = some m) (b : NodeId) (n : Node) :
    (d.enroll b n).node? x = some m := by
  rw [node?_enroll, if_neg (Nat.ne_of_lt (lt_nextId h)), h]

theorem mem_store?_enroll {c : NodeId} {s : Store} {e : Entry} (h : Linked d)
    (hs : (d.enroll c n).store? b = some s) (he : e ∈ s.entries) :
    (∃ s₀, d.store? b = some s₀ ∧ e ∈ s₀.entries) ∨
      b = c ∧ e = .fresh d.nextId .existing false :=
  (mem_store?_add hs he).imp_left fun ⟨s₀, hs₀, he₀⟩ ↦ ⟨s₀, store?_of_mem_push h.sizes hs₀ he₀, he₀⟩

theorem Below.enroll (h : Below d o x) (b : NodeId) (n : Node) : Below (d.enroll b n) o x :=
  h.mono fun _ _ hm ↦ ⟨_, node?_enroll_of_some hm b n, rfl⟩

theorem node?_of_lend (h : (d.lend b node).node? x = some n) :
    ∃ n₀, d.node? x = some n₀ ∧ n.parent = n₀.parent ∧ (x ≠ node → n = n₀) := by
  rcases node?_of_modifyNode h with ⟨rfl, n₀, hn₀, rfl⟩ | ⟨-, hn⟩
  · exact ⟨n₀, hn₀, rfl, fun hne ↦ absurd rfl hne⟩
  · exact ⟨n, hn, rfl, fun _ ↦ rfl⟩

theorem node?_lend_of_some (h : d.node? x = some n) (b node : NodeId) :
    ∃ n', (d.lend b node).node? x = some n' ∧ n'.parent = n.parent := by
  rw [node?_lend, h]
  split
  · exact ⟨_, rfl, rfl⟩
  · exact ⟨n, rfl, rfl⟩

theorem below_lend : Below (d.lend b node) o x ↔ Below d o x := by
  refine ⟨fun h ↦ h.mono fun y m hm ↦ ?_, fun h ↦ h.mono fun y m hm ↦ node?_lend_of_some hm b node⟩
  obtain ⟨m₀, hm₀, hp, -⟩ := node?_of_lend hm
  exact ⟨m₀, hm₀, hp.symm⟩

namespace Linked

theorem enroll (h : Linked d) (hs : d.store? b = some s) (hp : n.parent = some b)
    (hh : n.holders = []) (hpending : n.pending = none) : Linked (d.enroll b n) := by
  have hlt := h.lt_of_store? hs
  have hpush : Linked (d.push n) := by
    refine h.push (fun p hpar ↦ ?_) hh hpending
    rw [hp] at hpar
    cases hpar
    exact hlt
  refine hpush.modifyStore fun s' hs' ↦ ?_
  have hfits := hpush.store b s' hs'
  rw [store?_push h.sizes, if_neg (Nat.ne_of_lt hlt)] at hs'
  have hnew : d.nextId ∉ s'.nodes := fun hmem ↦
    Nat.lt_irrefl _ ((h.store b s' hs').links _ hmem).1
  refine hfits.add hnew ⟨by rw [nextId_push]; exact Nat.lt_succ_self _, fun m hm ↦ .inl ?_⟩ _ _
  rw [node?_push, if_pos rfl] at hm
  cases hm
  exact hp

theorem addHolder (h : Linked d) (hn : d.node? node = some n) (hp : n.parent = some source)
    (hne : source ≠ b) (hh : n.holders = []) :
    Linked (d.modifyNode node fun m ↦ { m with holders := m.holders ++ [b] }) := by
  refine h.setHolders hn (h.ne_root_of_parent hn hp) rfl (by simp [hh]) (by simp [hh])
    fun p hpar ↦ ?_
  rw [hp] at hpar
  cases hpar
  simpa [hh] using hne

theorem lend (h : Linked d) (hn : d.node? node = some n) (hp : n.parent = some source)
    (hne : source ≠ b) (hh : n.holders = []) : Linked (d.lend b node) := by
  have hset := h.addHolder hn hp hne hh
  refine hset.modifyStore fun s hs ↦ ?_
  have hnot : node ∉ s.nodes := by
    intro hmem
    rcases ((h.store b s hs).links _ hmem).2 n hn with hpar | hhold
    · rw [hp] at hpar
      exact hne (Option.some.inj hpar)
    · simp [hh] at hhold
  refine (hset.store b s hs).add hnot ⟨?_, fun m hm ↦ .inr ?_⟩ _ _
  · rw [nextId_modifyNode]
    exact lt_nextId hn
  · rw [node?_modifyNode, if_pos rfl, hn] at hm
    cases hm
    simp

end Linked

theorem copyOf_isContainer (n : Node) (parent : NodeId) :
    (copyOf n parent).isContainer = n.isContainer := by
  simp only [copyOf, Node.isContainer]
  split
  · exact Kind.isContainer_withValue _ _
  · rfl

theorem store?_enroll_isSome (h : Linked d) (b : NodeId) (n : Node) (hs : (d.store? y).isSome) :
    ((d.enroll b n).store? y).isSome := by
  obtain ⟨s, hs⟩ := Option.isSome_iff_exists.mp hs
  have hy := h.lt_of_store? hs
  rw [Document.enroll, store?_modifyStore, store?_push h.sizes, if_neg (Nat.ne_of_lt hy), hs]
  split <;> rfl

/-- What a copied node keeps, the copy of a block keeps. All copies go to the nodes from `o` on. -/
theorem copyBlock_induction {Q : Document → Prop} (other : Document)
    (hcopy : ∀ d target i n s, Linked d → Q d → o ≤ target → d.store? target = some s →
      other.node? i = some n → Q (d.enroll target (copyOf n target))) (fuel : Nat)
    (source target : NodeId) (m : Merging)
    (h : Linked m.document) (hQ : Q m.document) (ho : o ≤ target)
    (hs : (m.document.store? target).isSome) :
    Linked (copyBlock other fuel source target m).document ∧
      Q (copyBlock other fuel source target m).document ∧
      ∀ y, (m.document.store? y).isSome →
        ((copyBlock other fuel source target m).document.store? y).isSome := by
  induction fuel generalizing source target m with
  | zero => exact ⟨h, hQ, fun _ hy ↦ hy⟩
  | succ fuel ih =>
    rw [copyBlock]
    generalize other.allElements source = l
    induction l generalizing m with
    | nil => exact ⟨h, hQ, fun _ hy ↦ hy⟩
    | cons id l ihl =>
      rw [List.foldl_cons]
      cases hid : other.node? id with
      | none => exact ihl m h hQ hs
      | some n =>
        simp only
        split
        · exact ihl { m with skipped := m.skipped ++ [n.name.full] } h hQ hs
        · obtain ⟨s, hs'⟩ := Option.isSome_iff_exists.mp hs
          have hl : Linked (m.document.enroll target (copyOf n target)) := h.enroll hs' rfl rfl rfl
          have hq := hcopy m.document target id n s h hQ ho hs' hid
          have hkeep := fun y ↦ store?_enroll_isSome (y := y) h target (copyOf n target)
          split
          · next hc =>
            have hcopied : ((m.document.enroll target (copyOf n target)).store?
                m.document.nextId).isSome := by
              rw [hl.keyed, node?_enroll, if_pos rfl]
              exact (copyOf_isContainer n target).trans hc
            have hlt := Nat.le_trans ho (Nat.le_of_lt (h.lt_of_store? hs'))
            obtain ⟨hl', hq', hkeep'⟩ := ih id m.document.nextId
              { m with document := m.document.enroll target (copyOf n target) } hl hq hlt hcopied
            obtain ⟨hl'', hq'', hkeep''⟩ := ihl _ hl' hq' (hkeep' _ (hkeep _ hs))
            exact ⟨hl'', hq'', fun y hy ↦ hkeep'' y (hkeep' y (hkeep y hy))⟩
          · obtain ⟨hl', hq', hkeep'⟩ := ihl
              { m with document := m.document.enroll target (copyOf n target) } hl hq (hkeep _ hs)
            exact ⟨hl', hq', fun y hy ↦ hkeep' y (hkeep y hy)⟩

/-- The nodes in `R` are parts of the overlay `o` that nobody has borrowed yet, with all that is
around them. -/
structure Unlent (o : NodeId) (R : NodeId → Prop) (d : Document) : Prop where
  node : ∀ x, R x → ∃ n, d.node? x = some n ∧ n.holders = [] ∧ ∀ p, n.parent = some p → R p
  below : ∀ x, R x → Below d o x

/-- All that lies below `t` is in `R`, and the stores there list children only. -/
structure Whole (R : NodeId → Prop) (d : Document) (t : NodeId) : Prop where
  all : ∀ x, Below d t x → R x
  own : ∀ y s x, Below d t y → d.store? y = some s → x ∈ s.nodes →
    ∃ n, d.node? x = some n ∧ n.parent = some y

/-- The nodes in `R` have stayed as they were, got no new children, and no store is lost. -/
structure Kept (R : NodeId → Prop) (d d' : Document) : Prop where
  node : ∀ x, R x → d'.node? x = d.node? x
  store : ∀ x, R x → d'.store? x = d.store? x
  child : ∀ x n' p, d'.node? x = some n' → n'.parent = some p → R p →
    ∃ n, d.node? x = some n ∧ n.parent = some p
  stores : ∀ y, (d.store? y).isSome → (d'.store? y).isSome

section Regions

variable {R R' : NodeId → Prop} {t t' : NodeId}

theorem Kept.refl (R : NodeId → Prop) (d : Document) : Kept R d d :=
  ⟨fun _ _ ↦ rfl, fun _ _ ↦ rfl, fun _ n' _ hn hp _ ↦ ⟨n', hn, hp⟩, fun _ hy ↦ hy⟩

theorem Kept.mono (h : Kept R d d') (hR : ∀ x, R' x → R x) : Kept R' d d' :=
  ⟨fun x hx ↦ h.node x (hR x hx), fun x hx ↦ h.store x (hR x hx),
    fun x n' p hn hp hx ↦ h.child x n' p hn hp (hR p hx), h.stores⟩

theorem Kept.trans {d'' : Document} (h : Kept R d d') (h' : Kept R d' d'') : Kept R d d'' where
  node x hx := (h'.node x hx).trans (h.node x hx)
  store x hx := (h'.store x hx).trans (h.store x hx)
  child x n' p hn hp hx := by
    obtain ⟨n, hn, hp⟩ := h'.child x n' p hn hp hx
    exact h.child x n p hn hp hx
  stores y hy := h'.stores y (h.stores y hy)

theorem Kept.below (h : Kept R d d') (hall : ∀ x, Below d t x → R x) (hx : Below d' t x) :
    Below d t x := by
  induction hx with
  | refl => exact .refl
  | step _ hn hp ih =>
    obtain ⟨n, hn, hp⟩ := h.child _ _ _ hn hp (hall _ ih)
    exact .step ih hn hp

theorem Whole.kept (h : Whole R d t) (hk : Kept R d d') : Whole R d' t where
  all x hx := h.all x (hk.below h.all hx)
  own y s x hy hs hx := by
    have hy' := hk.below h.all hy
    rw [hk.store y (h.all y hy')] at hs
    obtain ⟨n, hn, hp⟩ := h.own y s x hy' hs hx
    exact ⟨n, (hk.node x (h.all x (.step hy' hn hp))).trans hn, hp⟩

theorem Unlent.kept (h : Unlent o R d) (hk : Kept R d d') : Unlent o R d' where
  node x hx := by
    obtain ⟨n, hn, hrest⟩ := h.node x hx
    exact ⟨n, (hk.node x hx).trans hn, hrest⟩
  below x hx := by
    have hbelow := h.below x hx
    induction hbelow with
    | refl => exact .refl
    | step _ hn hp ih =>
      obtain ⟨n, hn', -, hR⟩ := h.node _ hx
      rw [hn] at hn'
      cases hn'
      exact .step (ih (hR _ hp)) ((hk.node _ hx).trans hn) hp

theorem Unlent.without (h : Unlent o R d) (t : NodeId) :
    Unlent o (fun x ↦ R x ∧ ¬ Below d t x) d where
  node x hx := by
    obtain ⟨n, hn, hh, hR⟩ := h.node x hx.1
    exact ⟨n, hn, hh, fun p hp ↦ ⟨hR p hp, fun hb ↦ hx.2 (.step hb hn hp)⟩⟩
  below x hx := h.below x hx.1

theorem Whole.without (h : Whole R d t') (ho : d.Older) {n n' : Node} {p : NodeId}
    (hn : d.node? t = some n) (hp : n.parent = some p) (hn' : d.node? t' = some n')
    (hp' : n'.parent = some p) (hne : t ≠ t') : Whole (fun x ↦ R x ∧ ¬ Below d t x) d t' where
  all x hx := ⟨h.all x hx, fun hb ↦ hne (Below.sibling_eq ho hn hn' hp hp' hb hx)⟩
  own := h.own

theorem Unlent.not_mem_of_listed (h : Unlent o R d) (hl : Linked d) (ht : ¬ R b)
    (hs : d.store? b = some s) (hx : x ∈ s.nodes) : ¬ R x := by
  intro hR
  obtain ⟨n, hn, hh, hp⟩ := h.node x hR
  rcases ((hl.store b s hs).links x hx).2 n hn with hpar | hhold
  · exact ht (hp b hpar)
  · simp [hh] at hhold

theorem Kept.lend (hb : ¬ R b) (t : NodeId) :
    Kept (fun x ↦ R x ∧ ¬ Below d t x) d (d.lend b t) where
  node x hx := by
    have hne : t ≠ x := by
      rintro rfl
      exact hx.2 .refl
    rw [node?_lend, if_neg hne]
  store x hx := by
    have hne : b ≠ x := by
      rintro rfl
      exact hb hx.1
    rw [store?_lend, if_neg hne]
  child x n' p hn hp _ := by
    obtain ⟨n, hn₀, hpar, -⟩ := node?_of_lend hn
    exact ⟨n, hn₀, hpar.symm.trans hp⟩
  stores y hy := by
    rw [store?_lend]
    split
    · simpa using hy
    · exact hy

theorem Kept.enroll (h : Linked d) (hu : Unlent o R d) (hb : ¬ R b) (hp : n.parent = some b) :
    Kept R d (d.enroll b n) where
  node x hx := by
    obtain ⟨m, hm, -⟩ := hu.node x hx
    exact (Extends.enroll h b n).node x (lt_nextId hm)
  store x hx := by
    obtain ⟨m, hm, -⟩ := hu.node x hx
    have hne : x ≠ b := by
      rintro rfl
      exact hb hx
    exact (Extends.enroll h b n).store x (lt_nextId hm) hne
  child x n' p hn hpar hx := by
    rcases node?_of_enroll hn with ⟨-, rfl⟩ | hn
    · rw [hp] at hpar
      cases hpar
      exact absurd hx hb
    · exact ⟨n', hn, hpar⟩
  stores y hy := store?_enroll_isSome h b n hy

end Regions

def mergeNamed (fuel : Nat) (ours : List (String × NodeId)) (enclosing : BlockKind)
    (target : NodeId) (m : Merging) (q : String × NodeId) : Merging :=
  let isBlock (id : NodeId) : Bool := (m.document.node? id).any Node.isBlock
  match ours.lookup q.1 with
  | some mine =>
    if isBlock mine && isBlock q.2 then mergeBlock fuel mine q.2 m
    else borrow m target q.2
  | none =>
    match m.document.config.kindOf q.1 enclosing with
    | some kind =>
      if isBlock q.2 then
        mergeBlock fuel m.document.nextId q.2 (synthesize m target q.1 kind)
      else borrow m target q.2
    | none => borrow m target q.2

theorem mergeBlock_succ (fuel : Nat) (target source : NodeId) (m : Merging) :
    mergeBlock (fuel + 1) target source m = (m.document.propertyMap source).foldl
      (mergeNamed fuel (m.document.propertyMap target)
        (((m.document.node? target).bind (·.kind.blockKind?)).getD rootKind) target) m := rfl

section Induction

variable {Q : Document → Prop} {R : NodeId → Prop} {t : NodeId} {m : Merging}

/-- A merge from `d` to `d'` that keeps `Q` and the region outside of a subtree. -/
structure Preserves (Q : Document → Prop) (R : NodeId → Prop) (t : NodeId) (d d' : Document) :
    Prop where
  linked : Linked d'
  holds : Q d'
  kept : Kept (fun x ↦ R x ∧ ¬ Below d t x) d d'

/-- Nothing around `t` or below it is lent, the stores below it list children only, and `b` lies
elsewhere. -/
structure Lendable (d : Document) (b t : NodeId) : Prop where
  around : ∀ x n, Below d x t → d.node? x = some n → n.holders = []
  below : ∀ x n, Below d t x → d.node? x = some n → n.holders = []
  own : ∀ y s x, Below d t y → d.store? y = some s → x ∈ s.nodes →
    ∃ n, d.node? x = some n ∧ n.parent = some y
  apart : ¬ Below d t b

theorem Unlent.holders_eq (hu : Unlent o R d) (hx : R x) (hn : d.node? x = some n) :
    n.holders = [] := by
  obtain ⟨m, hm, hh, -⟩ := hu.node x hx
  rw [hn] at hm
  cases hm
  exact hh

theorem Unlent.around (hu : Unlent o R d) (hb : Below d x y) (hy : R y) : R x := by
  induction hb with
  | refl => exact hy
  | step _ hn hp ih =>
    obtain ⟨m, hm, -, hR⟩ := hu.node _ hy
    rw [hn] at hm
    cases hm
    exact ih (hR _ hp)

theorem Unlent.lendable (hu : Unlent o R d) (hw : Whole R d t) (hb : ¬ R b) : Lendable d b t where
  around _ _ hx hn := hu.holders_eq (hu.around hx (hw.all t .refl)) hn
  below x _ hx hn := hu.holders_eq (hw.all x hx) hn
  own := hw.own
  apart h := hb (hw.all b h)

def LendKeeps (o : NodeId) (Q : Document → Prop) : Prop :=
  ∀ d b t n p, Linked d → Q d → (d.store? b).isSome → d.node? t = some n → n.holders = [] →
    n.parent = some p → p ≠ b → Below d o t → Lendable d b t → Q (d.lend b t)

def EnrollKeeps (Q : Document → Prop) : Prop :=
  ∀ d b name kind, Linked d → Q d → (d.store? b).isSome → Q (d.enroll b (emptyBlock b name kind))

theorem Preserves.lend (hlend : LendKeeps o Q) (h : Linked d) (hQ : Q d) (hu : Unlent o R d)
    (hb : ¬ R b) (hs : (d.store? b).isSome) (hw : Whole R d t) (hn : d.node? t = some n)
    (hp : n.parent = some source) (hsrc : R source) : Preserves Q R t d (d.lend b t) := by
  have ht := hw.all t .refl
  have hh := hu.holders_eq ht hn
  have hne : source ≠ b := by
    rintro rfl
    exact hb hsrc
  refine ⟨h.lend hn hp hne hh, ?_, .lend hb t⟩
  exact hlend d b t n source h hQ hs hn hh hp hne (hu.below t ht) (hu.lendable hw hb)

theorem Preserves.synthesized (henroll : EnrollKeeps Q) (h : Linked d) (hQ : Q d)
    (hu : Unlent o R d) (hb : ¬ R b) (hs : (d.store? b).isSome) (hw : Whole R d t) {name : String}
    {kind : BlockKind}
    (hin : Linked (d.enroll b (emptyBlock b name kind)) →
      Q (d.enroll b (emptyBlock b name kind)) →
      Unlent o R (d.enroll b (emptyBlock b name kind)) → ¬ R d.nextId →
      ((d.enroll b (emptyBlock b name kind)).store? d.nextId).isSome →
      Whole R (d.enroll b (emptyBlock b name kind)) t →
      Preserves Q R t (d.enroll b (emptyBlock b name kind)) d') : Preserves Q R t d d' := by
  obtain ⟨s, hs'⟩ := Option.isSome_iff_exists.mp hs
  have hl : Linked (d.enroll b (emptyBlock b name kind)) := h.enroll hs' rfl rfl rfl
  have hk : Kept R d (d.enroll b (emptyBlock b name kind)) := .enroll h hu hb rfl
  have hnew : ¬ R d.nextId := by
    intro hR
    obtain ⟨n, hn, -⟩ := hu.node _ hR
    exact Nat.lt_irrefl _ (lt_nextId hn)
  have hstore : ((d.enroll b (emptyBlock b name kind)).store? d.nextId).isSome := by
    rw [hl.keyed, node?_enroll, if_pos rfl]
    rfl
  have hres := hin hl (henroll d b name kind h hQ hs) (hu.kept hk) hnew hstore (hw.kept hk)
  refine ⟨hres.linked, hres.holds, (hk.mono fun x hx ↦ hx.1).trans (hres.kept.mono fun x hx ↦ ?_)⟩
  exact ⟨hx.1, fun hb ↦ hx.2 (hk.below hw.all hb)⟩

def MergeKeeps (o : NodeId) (Q : Document → Prop) (fuel : Nat) : Prop :=
  ∀ (target source : NodeId) (m : Merging) (R : NodeId → Prop), Linked m.document → Q m.document →
    Unlent o R m.document → ¬ R target → (m.document.store? target).isSome →
    Whole R m.document source →
    Preserves Q R source m.document (mergeBlock fuel target source m).document

theorem Preserves.named {fuel : Nat} {ours : List (String × NodeId)} {enclosing : BlockKind}
    (ih : MergeKeeps o Q fuel) (hlend : LendKeeps o Q) (henroll : EnrollKeeps Q)
    (h : Linked m.document) (hQ : Q m.document) (hu : Unlent o R m.document) (ht : ¬ R target)
    (hs : (m.document.store? target).isSome) (hsrc : R source)
    (hours : ∀ name mine, ours.lookup name = some mine → ¬ R mine) (name : String)
    (hw : Whole R m.document t) (hn : m.document.node? t = some n) (hp : n.parent = some source) :
    Preserves Q R t m.document (mergeNamed fuel ours enclosing target m (name, t)).document := by
  have hborrow : Preserves Q R t m.document (borrow m target t).document :=
    .lend hlend h hQ hu ht hs hw hn hp hsrc
  simp only [mergeNamed]
  split
  · next mine hmine =>
    split
    · next hboth =>
      have hstore := h.store_of_isBlock (Bool.and_eq_true_iff.mp hboth).1
      exact ih mine t m R h hQ hu (hours name mine hmine) hstore hw
    · exact hborrow
  · split
    · split
      · exact .synthesized henroll h hQ hu ht hs hw fun hl hq hu hnew hstore hw ↦
          ih _ t (synthesize m target name _) R hl hq hu hnew hstore hw
      · exact hborrow
    · exact hborrow

theorem Preserves.foldl {fuel : Nat} {ours : List (String × NodeId)} {enclosing : BlockKind}
    (ih : MergeKeeps o Q fuel) (hlend : LendKeeps o Q) (henroll : EnrollKeeps Q)
    {l : List (String × NodeId)} (hl : (l.map Prod.snd).Nodup)
    (h : Linked m.document) (hQ : Q m.document) (hu : Unlent o R m.document) (ht : ¬ R target)
    (hs : (m.document.store? target).isSome) (hsrc : R source)
    (hours : ∀ name mine, ours.lookup name = some mine → ¬ R mine)
    (hw : ∀ q ∈ l, Whole R m.document q.2 ∧
      ∃ n, m.document.node? q.2 = some n ∧ n.parent = some source) :
    let d' := (l.foldl (mergeNamed fuel ours enclosing target) m).document
    Linked d' ∧ Q d' ∧
      Kept (fun x ↦ R x ∧ ∀ q ∈ l, ¬ Below m.document q.2 x) m.document d' := by
  induction l generalizing m R with
  | nil => exact ⟨h, hQ, .refl _ _⟩
  | cons q l ihl =>
    obtain ⟨name, t⟩ := q
    obtain ⟨hnot, hrest⟩ := List.nodup_cons.mp hl
    obtain ⟨hwt, n, hn, hp⟩ := hw (name, t) List.mem_cons_self
    have hstep : Preserves Q R t m.document
        (mergeNamed fuel ours enclosing target m (name, t)).document :=
      .named ih hlend henroll h hQ hu ht hs hsrc hours name hwt hn hp
    have hothers : ∀ q ∈ l, Whole (fun x ↦ R x ∧ ¬ Below m.document t x) m.document q.2 := by
      intro q hq
      obtain ⟨hwq, n', hn', hp'⟩ := hw q (List.mem_cons_of_mem _ hq)
      have hne : t ≠ q.2 := fun he ↦ hnot (List.mem_map.mpr ⟨q, hq, he.symm⟩)
      exact hwq.without h.older hn hp hn' hp' hne
    obtain ⟨hl', hq', hk'⟩ := ihl hrest hstep.linked hstep.holds
      ((hu.without t).kept hstep.kept) (fun hR ↦ ht hR.1) (hstep.kept.stores _ hs)
      ⟨hsrc, Below.not_parent h.older hn hp⟩ (fun name mine hm hR ↦ hours name mine hm hR.1)
      fun q hq ↦ ⟨(hothers q hq).kept hstep.kept, by
        obtain ⟨-, n', hn', hp'⟩ := hw q (List.mem_cons_of_mem _ hq)
        exact ⟨n', (hstep.kept.node _ ((hothers q hq).all _ .refl)).trans hn', hp'⟩⟩
    refine ⟨hl', hq', (hstep.kept.mono fun x hx ↦ ?_).trans (hk'.mono fun x hx ↦ ?_)⟩
    · exact ⟨hx.1, hx.2 (name, t) List.mem_cons_self⟩
    · refine ⟨⟨hx.1, hx.2 (name, t) List.mem_cons_self⟩, fun q hq hb ↦ ?_⟩
      exact hx.2 q (List.mem_cons_of_mem _ hq) (hstep.kept.below (hothers q hq).all hb)

/-- What a loan and a new block keep, folding an overlay into a block keeps. Only what lies below
the source can be lent. -/
theorem mergeBlock_induction (hlend : LendKeeps o Q) (henroll : EnrollKeeps Q) (fuel : Nat) :
    MergeKeeps o Q fuel := by
  induction fuel with
  | zero => exact fun _ _ _ _ h hQ _ _ _ _ ↦ ⟨h, hQ, .refl _ _⟩
  | succ fuel ih =>
    intro target source m R h hQ hu ht hs hw
    have hours :
        ∀ name mine, (m.document.propertyMap target).lookup name = some mine → ¬ R mine := by
      intro name mine hl
      obtain ⟨l₁, l₂, hl, -⟩ := List.lookup_eq_some_iff.mp hl
      have hmem : (name, mine) ∈ m.document.propertyMap target := by simp [hl]
      obtain ⟨s', n, hs', hmem, -⟩ := mem_answers hmem
      exact hu.not_mem_of_listed h ht hs' hmem
    have hchild : ∀ q ∈ m.document.propertyMap source,
        ∃ n, m.document.node? q.2 = some n ∧ n.parent = some source := by
      rintro ⟨name, id⟩ hq
      obtain ⟨s', n, hs', hmem, -⟩ := mem_answers hq
      exact hw.own source s' id .refl hs' hmem
    rw [mergeBlock_succ]
    obtain ⟨hl', hq', hk'⟩ := Preserves.foldl ih hlend henroll
      (answers_nodes_nodup m.document source _) h hQ hu ht hs (hw.all source .refl) hours
      fun q hq ↦ ⟨by
        obtain ⟨n, hn, hp⟩ := hchild q hq
        exact ⟨fun x hx ↦ hw.all x ((Below.child hn hp).trans hx),
          fun y s x hy ↦ hw.own y s x ((Below.child hn hp).trans hy)⟩, hchild q hq⟩
    refine ⟨hl', hq', hk'.mono fun x hx ↦ ⟨hx.1, fun q hq hb ↦ hx.2 ?_⟩⟩
    obtain ⟨n, hn, hp⟩ := hchild q hq
    exact (Below.child hn hp).trans hb

end Induction

def overlayNode : Node := { name := .empty, kind := .block overlayKind, parent := none }

def announce (d : Document) (source : DocumentId) (o : NodeId) : Document :=
  { d with
    overlays := d.overlays ++ [o]
    overlaySources := d.overlaySources ++ [(source, o)] }

def overlayId (d other : Document) : NodeId := (d.supersede other.id).2.nextId

def overlayCopy (d other : Document) : Merging :=
  copyBlock other other.nodes.size root (d.overlayId other)
    { document := (d.supersede other.id).2.push overlayNode }

def withOverlay (d other : Document) : Document :=
  ((d.overlayCopy other).document.recordEdges (d.overlayId other)).announce other.id
    (d.overlayId other)

theorem merge_document (d other : Document) : (d.merge other).2 =
    (mergeBlock (d.withOverlay other).nodes.size root (d.overlayId other)
      { d.overlayCopy other with document := d.withOverlay other }).document := rfl

/-- From `o` on there is nothing but an overlay that no block has borrowed from. -/
structure Fresh (o : NodeId) (d : Document) : Prop where
  top : ∃ n, d.node? o = some n ∧ n.parent = none
  holders : ∀ x n, o ≤ x → d.node? x = some n → n.holders = []
  own : ∀ y s x, o ≤ y → d.store? y = some s → x ∈ s.nodes →
    ∃ n, d.node? x = some n ∧ n.parent = some y

theorem Fresh.push (h : Linked d) : Fresh d.nextId (d.push overlayNode) where
  top := ⟨overlayNode, by simp, rfl⟩
  holders x n hx hn := by
    rcases node?_of_push hn with ⟨-, rfl⟩ | hn
    · rfl
    · exact absurd (lt_nextId hn) (Nat.not_lt.mpr hx)
  own y s x hy hs hx := by
    obtain ⟨e, he, -⟩ := List.mem_map.mp hx
    have hlt := h.lt_of_store? (store?_of_mem_push h.sizes hs he)
    exact absurd hlt (Nat.not_lt.mpr hy)

theorem Fresh.enroll (hf : Fresh o d) (h : Linked d) (hp : n.parent = some b)
    (hh : n.holders = []) : Fresh o (d.enroll b n) := by
  refine ⟨?_, fun x m hx hm ↦ ?_, fun y s' x hy hs' hx ↦ ?_⟩
  · obtain ⟨m, hm, hpar⟩ := hf.top
    exact ⟨m, node?_enroll_of_some hm b n, hpar⟩
  · rcases node?_of_enroll hm with ⟨-, rfl⟩ | hm
    · exact hh
    · exact hf.holders x m hx hm
  · obtain ⟨e, he, rfl⟩ := List.mem_map.mp hx
    rcases mem_store?_enroll h hs' he with ⟨s₀, hs₀, he₀⟩ | ⟨rfl, rfl⟩
    · obtain ⟨m, hm, hpar⟩ := hf.own y s₀ e.node hy hs₀ (Store.mem_nodes_of_mem he₀)
      exact ⟨m, node?_enroll_of_some hm b n, hpar⟩
    · exact ⟨n, by rw [Entry.fresh, node?_enroll, if_pos rfl], hp⟩

theorem Fresh.alike (hf : Fresh o d) (ha : Alike d d') : Fresh o d' := by
  have hnode : ∀ x n, d.node? x = some n → ∃ n', d'.node? x = some n' ∧ n'.parent = n.parent := by
    intro x n hn
    obtain ⟨n', hn', he⟩ := ha.symm.node? hn
    exact ⟨n', hn', (congrArg Node.parent he).symm⟩
  refine ⟨?_, fun x n hx hn ↦ ?_, fun y s x hy hs hx ↦ ?_⟩
  · obtain ⟨n, hn, hp⟩ := hf.top
    obtain ⟨n', hn', hp'⟩ := hnode o n hn
    exact ⟨n', hn', hp'.trans hp⟩
  · obtain ⟨n₀, hn₀, he⟩ := ha.node? hn
    exact (congrArg Node.holders he).trans (hf.holders x n₀ hx hn₀)
  · rw [ha.store?] at hs
    obtain ⟨n, hn, hp⟩ := hf.own y s x hy hs hx
    obtain ⟨n', hn', hp'⟩ := hnode x n hn
    exact ⟨n', hn', hp'.trans hp⟩

theorem Fresh.unlent (hf : Fresh o d) (h : Linked d) : Unlent o (Below d o) d where
  node x hx := by
    have hlive : d.isLive x := hx.isLive (by
      obtain ⟨n, hn, -⟩ := hf.top
      exact isLive_iff.mpr ⟨n, hn⟩)
    obtain ⟨n, hn⟩ := isLive_iff.mp hlive
    refine ⟨n, hn, hf.holders x n (hx.le h.older) hn, fun p hp ↦ ?_⟩
    rcases hx.eq_or_parent hn hp with rfl | hb
    · obtain ⟨m, hm, hpar⟩ := hf.top
      rw [hn] at hm
      cases hm
      simp [hp] at hpar
    · exact hb
  below _ hx := hx

theorem Fresh.whole (hf : Fresh o d) (h : Linked d) : Whole (Below d o) d o :=
  ⟨fun _ hx ↦ hx, fun y s x hy hs hx ↦ hf.own y s x (hy.le h.older) hs hx⟩

namespace Linked

theorem not_below_root (h : Linked d) (ho : o ≠ Document.root) : ¬ Below d o Document.root := by
  intro hb
  obtain ⟨n, hn, -, hp, -⟩ := h.root
  refine ho (hb.eq_of_top fun m hm ↦ ?_).symm
  rw [hn] at hm
  cases hm
  exact hp

theorem of_tables (h : Linked d) (hn : d'.nodes = d.nodes) (hs : d'.stores = d.stores)
    (ho : ∀ p ∈ d'.overlaySources, p.2 ≠ Document.root) : Linked d' := by
  obtain ⟨id, nodes, stores, overlays, overlaySources, diagnostics, config⟩ := d'
  simp only at hn hs
  subst hn hs
  refine ⟨h.sizes, h.keyed, h.node, fun b s hs ↦ ?_, h.root, ho⟩
  exact ⟨(h.store b s hs).nodup, (h.store b s hs).links, (h.store b s hs).restored⟩

theorem supersede (h : Linked d) (source : DocumentId) : Linked (d.supersede source).2 := by
  unfold Document.supersede
  split
  · exact h
  · next o ho =>
    obtain ⟨l₁, l₂, hl, -⟩ := List.lookup_eq_some_iff.mp ho
    have hne : o ≠ Document.root := h.sources (source, o) (by simp [hl])
    refine release (d := { d with
      overlaySources := d.overlaySources.filter (·.1 != source)
      overlays := d.overlays.filter (· != o) }) ?_ hne
    exact h.of_tables rfl rfl fun p hp ↦ h.sources p (List.mem_filter.mp hp).1

theorem announce (h : Linked d) (source : DocumentId) (ho : o ≠ Document.root) :
    Linked (d.announce source o) := by
  refine h.of_tables rfl rfl fun p hp ↦ ?_
  rcases List.mem_append.mp hp with hp | hp
  · exact h.sources p hp
  · rw [List.mem_singleton.mp hp]
    exact ho

end Linked

theorem overlayId_ne_root (h : Linked d) (other : Document) : d.overlayId other ≠ root := by
  obtain ⟨n, hn, -⟩ := (h.supersede other.id).root
  exact (Nat.ne_of_lt (lt_nextId hn)).symm

/-- What each copy keeps, the document with the new overlay keeps: `C` while the overlay is copied,
`M` once it is announced. -/
theorem withOverlay_induction {C M : Document → Prop} (h : Linked d) (other : Document)
    (hstart : C ((d.supersede other.id).2.push overlayNode))
    (hcopy : ∀ d' target i n s, Linked d' → Fresh (d.overlayId other) d' → C d' →
      d.overlayId other ≤ target → d'.store? target = some s → other.node? i = some n →
      C (d'.enroll target (copyOf n target)))
    (hrecord : ∀ d', Linked d' → Fresh (d.overlayId other) d' → C d' →
      M ((d'.recordEdges (d.overlayId other)).announce other.id (d.overlayId other))) :
    Linked (d.withOverlay other) ∧ Fresh (d.overlayId other) (d.withOverlay other) ∧
      M (d.withOverlay other) := by
  have hsup := h.supersede other.id
  have hroot := overlayId_ne_root h other
  have hpush : Linked ((d.supersede other.id).2.push overlayNode) :=
    hsup.push (by simp [overlayNode]) rfl rfl
  have htop : (((d.supersede other.id).2.push overlayNode).store? (d.overlayId other)).isSome := by
    rw [hpush.keyed, node?_push, overlayId, if_pos rfl]
    rfl
  obtain ⟨hl, ⟨hf, hq⟩, -⟩ := copyBlock_induction
    (Q := fun d' ↦ Fresh (d.overlayId other) d' ∧ C d') other
    (fun d' target i n s hd hq hle hs hi ↦
      ⟨hq.1.enroll hd rfl rfl, hcopy d' target i n s hd hq.1 hq.2 hle hs hi⟩)
    other.nodes.size root (d.overlayId other)
    { document := (d.supersede other.id).2.push overlayNode } hpush
    ⟨.push hsup, hstart⟩ (Nat.le_refl _) htop
  have hf' := hf.alike (.recordEdges _ (d.overlayId other))
  exact ⟨(hl.alike (.recordEdges _ _)).announce other.id hroot, ⟨hf'.top, hf'.holders, hf'.own⟩,
    hrecord _ hl hf hq⟩

theorem withOverlay_spec (h : Linked d) (other : Document) :
    Linked (d.withOverlay other) ∧ Fresh (d.overlayId other) (d.withOverlay other) := by
  obtain ⟨hl, hf, -⟩ :=
    withOverlay_induction (C := fun _ ↦ True) (M := fun _ ↦ True) h other trivial
    (fun _ _ _ _ _ _ _ _ _ _ _ ↦ trivial) fun _ _ _ _ ↦ trivial
  exact ⟨hl, hf⟩

theorem merge_of_withOverlay {M : Document → Prop} (h : Linked d) (other : Document)
    (hM : Linked (d.withOverlay other) ∧ Fresh (d.overlayId other) (d.withOverlay other) ∧
      M (d.withOverlay other))
    (hlend : LendKeeps (d.overlayId other) M) (henroll : EnrollKeeps M) :
    Linked (d.merge other).2 ∧ M (d.merge other).2 := by
  obtain ⟨hl, hf, hq⟩ := hM
  have hres := mergeBlock_induction hlend henroll (d.withOverlay other).nodes.size root
    (d.overlayId other) { d.overlayCopy other with document := d.withOverlay other }
    (Below (d.withOverlay other) (d.overlayId other)) hl hq (hf.unlent hl)
    (hl.not_below_root (overlayId_ne_root h other)) hl.store_root (hf.whole hl)
  rw [merge_document]
  exact ⟨hres.linked, hres.holds⟩

/-- What the parts of a merge keep, a merge keeps: `C` while the overlay is copied, `M` while it is
folded into the root. -/
theorem merge_induction {C M : Document → Prop} (h : Linked d) (other : Document)
    (hstart : C ((d.supersede other.id).2.push overlayNode))
    (hcopy : ∀ d' target n s, Linked d' → Fresh (d.overlayId other) d' → C d' →
      d.overlayId other ≤ target → d'.store? target = some s →
      C (d'.enroll target (copyOf n target)))
    (hrecord : ∀ d', Linked d' → Fresh (d.overlayId other) d' → C d' →
      M ((d'.recordEdges (d.overlayId other)).announce other.id (d.overlayId other)))
    (hlend : LendKeeps (d.overlayId other) M) (henroll : EnrollKeeps M) :
    Linked (d.merge other).2 ∧ M (d.merge other).2 :=
  merge_of_withOverlay h other
    (withOverlay_induction h other hstart
      (fun d' target _ n s hd hf hC hle hs _ ↦ hcopy d' target n s hd hf hC hle hs) hrecord)
    hlend henroll

theorem Linked.merge (h : Linked d) (other : Document) : Linked (d.merge other).2 :=
  (merge_induction (C := fun _ ↦ True) (M := fun _ ↦ True) h other trivial
    (fun _ _ _ _ _ _ _ _ _ ↦ trivial) (fun _ _ _ _ ↦ trivial)
    (fun _ _ _ _ _ _ _ _ _ _ _ _ _ _ ↦ trivial) fun _ _ _ _ _ _ _ ↦ trivial).1

end BuildScript.Document
