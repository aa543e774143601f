import BuildScript.Proofs.Folding.Block
import BuildScript.Proofs.Folding.Copy

namespace BuildScript

namespace Document

variable {d d₀ d' other : Document} {m₀ m : Merging} {F : NodeId → NodeId → Prop}
  {b c f lo mine o s t x y : NodeId} {name : String} {kind : BlockKind} {e : Option Entry}

theorem filterMap_named {β : Type} {l : List (String × NodeId)} {name : String}
    (hl : (l.map Prod.fst).Nodup) (g : String × NodeId → Option β) :
    l.filterMap (fun q ↦ if q.1 = name then g q else none) =
      ((l.lookup name).bind fun t ↦ g (name, t)).toList := by
  induction l with
  | nil => rfl
  | cons q l ih =>
    obtain ⟨name', t⟩ := q
    obtain ⟨hnot, hrest⟩ := List.nodup_cons.mp hl
    rw [List.filterMap_cons, List.lookup_cons]
    by_cases h : name' = name
    · subst h
      have hnone : l.filterMap (fun q ↦ if q.1 = name' then g q else none) = [] :=
        List.filterMap_eq_nil_iff.mpr fun q hq ↦
          if_neg fun he ↦ hnot (List.mem_map.mpr ⟨q, hq, he⟩)
      cases hg : g (name', t) <;> simp [hg, hnone]
    · have hne : (name == name') = false := by simpa using Ne.symm h
      simp only [if_neg h, hne]
      exact ih hrest

theorem length_filter_range (k n : Nat) : ((List.range n).filter (k ≤ ·)).length = n - k := by
  induction n with
  | zero => simp
  | succ n ih =>
    rw [List.range_succ, List.filter_append, List.length_append, ih]
    by_cases h : k ≤ n
    · simp [h]
      omega
    · simp [h]
      omega

/-- Where `c` had a block of a name, the block `s` of an overlay has one too. -/
structure Meets (d d' : Document) (c s : NodeId) (name : String) (mine t : NodeId) : Prop where
  theirs : d'.propertyNamed? s name = some t
  isBlock : d'.isBlockAt t
  ours : d.propertyNamed? c name = some mine
  wasBlock : d.isBlockAt mine

/-- Where `c` had nothing of a name, the block `s` of an overlay has a block, and the schema knows
what kind of block that is in `c`. -/
structure Wants (d d' : Document) (c s : NodeId) (name : String) (kind : BlockKind) (t : NodeId) :
    Prop where
  theirs : d'.propertyNamed? s name = some t
  isBlock : d'.isBlockAt t
  lacked : d.propertyNamed? c name = none
  known : d.config.kindOf name (d'.enclosing c) = some kind

structure Made (d d' : Document) (c : NodeId) (name : String) (kind : BlockKind) (f : NodeId) :
    Prop where
  new : d.nextId ≤ f
  own : d'.state? c f = some .existing
  node : ∃ n, d'.node? f = some n ∧ n.name.full = name ∧ n.kind = .block kind

/-- The block `s` of the overlay `o` goes into the block `c`. -/
inductive MergedPair (d d' : Document) (o : NodeId) : NodeId → NodeId → Prop
  | top : MergedPair d d' o root o
  | both {c s mine t : NodeId} {name : String} (h : MergedPair d d' o c s)
      (hboth : Meets d d' c s name mine t) : MergedPair d d' o mine t
  | made {c s f t : NodeId} {name : String} {kind : BlockKind} (h : MergedPair d d' o c s)
      (hwants : Wants d d' c s name kind t) (hmade : Made d d' c name kind f) :
      MergedPair d d' o f t

def newBlocks (d d' : Document) (o : NodeId) : List NodeId :=
  (List.range d'.nextId).filter fun x ↦
    d.nextId ≤ x && d'.isBlockAt x && !(d'.lineage x).contains o

/-- What the block `c` answers after a merge that folds the block `s` of an overlay into it. -/
structure LookupLaw (d d' : Document) (c s : NodeId) : Prop where
  kept : ∃ new, d'.entries c = d.entries c ++ new
  own : ∀ name mine, d.propertyNamed? c name = some mine → d.state? c mine ≠ some .applied →
    d'.propertyNamed? c name = some mine
  both : ∀ name mine t, Meets d d' c s name mine t → d'.propertyNamed? c name = some mine
  made : ∀ name kind t, Wants d d' c s name kind t → (∃ f, Made d d' c name kind f) ∧
    ∀ f, Made d d' c name kind f → d'.propertyNamed? c name = some f
  lent : ∀ name t, d'.propertyNamed? s name = some t →
    (∀ mine, d.propertyNamed? c name = some mine → d.state? c mine = some .applied) →
    (∀ mine, ¬ Meets d d' c s name mine t) → (∀ kind, ¬ Wants d d' c s name kind t) →
    d'.propertyNamed? c name = some t ∧ d'.state? c t = some .applied
  rest : ∀ name, d'.propertyNamed? s name = none →
    d'.propertyNamed? c name = d.propertyNamed? c name

theorem Linked.state?_of_mem (hl : Linked d) {e : Entry} (he : e ∈ d.entries b) :
    d.state? b e.node = some e.state := by
  obtain ⟨s, hs, he⟩ := mem_entries.mp he
  rw [state?, hs, Option.bind_some, Store.state?, Store.find?_of_mem (hl.store b s hs).nodup he]
  rfl

theorem mem_of_state? {state : EntryState} (h : d.state? b x = some state) :
    ∃ e ∈ d.entries b, e.node = x ∧ e.state = state := by
  obtain ⟨s, hs, hst⟩ := Option.bind_eq_some_iff.mp h
  obtain ⟨e, he, hstate⟩ := Option.map_eq_some_iff.mp hst
  obtain ⟨hmem, hnode⟩ := Store.mem_of_find? he
  exact ⟨e, entries_eq hs ▸ hmem, hnode, hstate⟩

namespace Fate

theorem of_both (h : Fate F d₀ d' lo c (name, t) e) (hmine : d₀.propertyNamed? c name = some mine)
    (hblock : d₀.isBlockAt mine) (ht : d₀.isBlockAt t) : e = none ∧ F mine t := by
  cases h with
  | both hmine' _ _ hin =>
    rw [hmine] at hmine'
    cases hmine'
    exact ⟨rfl, hin⟩
  | made hnone => simp [hmine] at hnone
  | lent hboth => exact absurd ht (hboth mine hmine hblock)

theorem of_made (h : Fate F d₀ d' lo c (name, t) e) (hnone : d₀.propertyNamed? c name = none)
    (hkind : d₀.config.kindOf name (d'.enclosing c) = some kind) (ht : d₀.isBlockAt t) :
    ∃ f, e = some (.fresh f .existing false) ∧ lo ≤ f ∧
      d'.face? f = some (.parse name, .block kind, some c) ∧ F f t := by
  cases h with
  | both hmine => simp [hnone] at hmine
  | made _ hkind' _ hf hface hin =>
    rw [hkind] at hkind'
    cases hkind'
    exact ⟨_, rfl, hf, hface, hin⟩
  | lent _ hmade => exact absurd ht (hmade kind hnone hkind)

theorem of_lent (h : Fate F d₀ d' lo c (name, t) e)
    (hboth : ∀ mine, d₀.propertyNamed? c name = some mine → d₀.isBlockAt mine → ¬ d₀.isBlockAt t)
    (hmade : ∀ kind, d₀.propertyNamed? c name = none →
      d₀.config.kindOf name (d'.enclosing c) = some kind → ¬ d₀.isBlockAt t) :
    e = some (.fresh t .applied false) := by
  cases h with
  | both hmine hblock ht => exact absurd ht (hboth _ hmine hblock)
  | made hnone hkind ht => exact absurd ht (hmade _ hnone hkind)
  | lent => rfl

end Fate

/-- The first merge of a document: in `m₀` the overlay is there, in `m` it is folded into the
root. -/
structure Joined (d : Document) (m₀ m : Merging) : Prop where
  before : Linked d
  after : Linked m.document
  appended : OverlayAppended d m₀.document
  regular : ∀ x n, d.nextId ≤ x → m₀.document.node? x = some n → n.name.IsRegular
  overlaid : Overlaid d.nextId m₀.document
  grows : Grows (Overlaps m₀.document root d.nextId) m₀ m

/-- The block `s` of the overlay has been folded into `c`. -/
structure FoldedInto (d : Document) (m₀ m : Merging) (c s : NodeId) : Prop where
  receives : Receives m₀.document c
  below : Below m₀.document d.nextId s
  folded : ∃ depth, Folded m₀.document m.document m₀.document.nextId depth c s

/-- The block `c` has got the entries `new` for the declarations of `s`, and answers with what it
had and these. -/
structure Gains (d : Document) (m₀ m : Merging) (c s : NodeId)
    (new : String × NodeId → Option Entry) : Prop where
  entries : m.document.entries c = d.entries c ++ (m₀.document.propertyMap s).filterMap new
  fate : ∀ name t, m₀.document.propertyNamed? s name = some t →
    Fate (FoldedInto d m₀ m) m₀.document m.document m₀.document.nextId c (name, t) (new (name, t))
  declared : ∀ name, (m.document.entries c).filter (m.document.declares name) =
    (d.entries c).filter (d.declares name) ++
      ((m₀.document.propertyNamed? s name).bind fun t ↦ new (name, t)).toList

theorem Gains.property {new : String × NodeId → Option Entry} (g : Gains d m₀ m c s new)
    (name : String) : m.document.propertyNamed? c name =
      (Entry.pick ((d.entries c).filter (d.declares name) ++
        ((m₀.document.propertyNamed? s name).bind fun t ↦ new (name, t)).toList)).map (·.node) := by
  rw [propertyNamed?_eq, g.declared]

theorem Gains.mem {new : String × NodeId → Option Entry} {e : Entry} (g : Gains d m₀ m c s new)
    (ht : m₀.document.propertyNamed? s name = some t) (he : new (name, t) = some e) :
    e ∈ m.document.entries c := by
  rw [g.entries]
  exact List.mem_append_right _ (List.mem_filterMap.mpr ⟨(name, t), mem_propertyMap.mpr ht, he⟩)

namespace Joined

variable (h : Joined d m₀ m)

include h

theorem lt_or_le (hc : Receives m₀.document c) : c < d.nextId ∨ m₀.document.nextId ≤ c := by
  refine Classical.or_iff_not_imp_right.mpr fun hlt ↦ Nat.lt_of_not_le fun hle ↦ ?_
  exact h.overlaid.not_below hc .refl (h.appended.below c hle (Nat.lt_of_not_le hlt))

theorem entries_before (hc : Receives m₀.document c) : m₀.document.entries c = d.entries c := by
  rcases h.lt_or_le hc with hlt | hle
  · exact entries_congr (h.appended.store c hlt)
  · have hle' := Nat.le_trans (Nat.le_of_lt h.appended.next) hle
    rw [entries, entries, h.before.store?_of_node?_eq_none (node?_of_le hle'),
      h.overlaid.rooted.linked.store?_of_node?_eq_none (node?_of_le hle)]

theorem face_before {e : Entry} (he : e ∈ d.entries c) :
    m₀.document.face? e.node = d.face? e.node :=
  h.appended.face e.node (h.before.lt_of_mem_entries he)

theorem property_before (hc : Receives m₀.document c) (name : String) :
    m₀.document.propertyNamed? c name = d.propertyNamed? c name :=
  propertyNamed?_congr (h.entries_before hc) fun _ he ↦ h.face_before he

theorem not_overlaps_overlay (hs : Below m₀.document d.nextId s) :
    ¬ Overlaps m₀.document root d.nextId s :=
  fun hr ↦ h.overlaid.not_below (.inl .refl) hr.reaches hs

theorem property_overlay (hs : Below m₀.document d.nextId s) (name : String) :
    m.document.propertyNamed? s name = m₀.document.propertyNamed? s name :=
  propertyNamed?_congr (h.grows.entries (h.overlaid.lt_of_below hs) (h.not_overlaps_overlay hs))
    fun _ he ↦ h.grows.face _ (h.overlaid.rooted.linked.lt_of_mem_entries he)

theorem isBlockAt_overlay (hx : Below m₀.document d.nextId x) :
    m.document.isBlockAt x = m₀.document.isBlockAt x :=
  isBlockAt_congr (h.grows.face x (h.overlaid.lt_of_below hx))

theorem meets (hc : Receives m₀.document c) (hs : Below m₀.document d.nextId s)
    (hboth : Meets d m.document c s name mine t) : m₀.document.propertyNamed? s name = some t ∧
      m₀.document.propertyNamed? c name = some mine ∧ m₀.document.isBlockAt mine ∧
      m₀.document.isBlockAt t := by
  have htheirs := (h.property_overlay hs name).symm.trans hboth.theirs
  refine ⟨htheirs, (h.property_before hc name).trans hboth.ours, ?_, ?_⟩
  · rw [isBlockAt_congr (h.appended.face mine (lt_of_propertyNamed? hboth.ours))]
    exact hboth.wasBlock
  · rw [← h.isBlockAt_overlay (h.overlaid.parent_of_propertyNamed? hs htheirs).1]
    exact hboth.isBlock

theorem wants (hc : Receives m₀.document c) (hs : Below m₀.document d.nextId s)
    (hwants : Wants d m.document c s name kind t) : m₀.document.propertyNamed? s name = some t ∧
      m₀.document.propertyNamed? c name = none ∧
      m₀.document.config.kindOf name (m.document.enclosing c) = some kind ∧
      m₀.document.isBlockAt t := by
  have htheirs := (h.property_overlay hs name).symm.trans hwants.theirs
  refine ⟨htheirs, (h.property_before hc name).trans hwants.lacked, ?_, ?_⟩
  · rw [h.appended.config]
    exact hwants.known
  · rw [← h.isBlockAt_overlay (h.overlaid.parent_of_propertyNamed? hs htheirs).1]
    exact hwants.isBlock

theorem full_parse (hs : Below m₀.document d.nextId s)
    (ht : m₀.document.propertyNamed? s name = some t) : (Name.parse name).full = name := by
  obtain ⟨-, n, hn, rfl⟩ := contains_of_propertyNamed? ht
  have hb := (h.overlaid.parent_of_propertyNamed? hs ht).1
  exact (h.regular t n (hb.le h.overlaid.rooted.linked.older) hn).full_parse

theorem declares (hs : Below m₀.document d.nextId s) {q : String × NodeId} {e : Entry}
    (hq : m₀.document.propertyNamed? s q.1 = some q.2)
    (hf : Fate F m₀.document m.document lo c q (some e)) :
    m.document.declares name e = decide (q.1 = name) := by
  obtain ⟨e₀, -, hdecl, hnode, -⟩ := pick_of_propertyNamed? hq
  obtain ⟨-, n, hn, hvar, hname⟩ := declares_iff.mp hdecl
  rw [hnode] at hn
  -- it is enough that the new entry is visible and its node a property of that name
  suffices hnew : e.isVisible ∧ ∃ n', m.document.node? e.node = some n' ∧ n'.isVariable = false ∧
      n'.name.full = q.1 by
    obtain ⟨hvis, n', hn', hvar', hname'⟩ := hnew
    rw [Bool.eq_iff_iff, declares_iff, decide_eq_true_iff]
    refine ⟨fun ⟨_, k, hk, _, hkname⟩ ↦ ?_, fun he ↦ ⟨hvis, n', hn', hvar', hname'.trans he⟩⟩
    rw [hn'] at hk
    cases hk
    exact hname'.symm.trans hkname
  cases hf with
  | made _ _ _ _ hface _ =>
    obtain ⟨n', hn', he⟩ := Option.map_eq_some_iff.mp hface
    simp only [Node.face, Prod.mk.injEq] at he
    refine ⟨rfl, n', hn', by rw [Node.isVariable, he.2.1]; rfl, ?_⟩
    rw [he.1]
    exact h.full_parse hs hq
  | lent =>
    obtain ⟨n', hn', hname', hkind', -⟩ := node?_of_face? (h.grows.face _ (lt_nextId hn)) hn
    exact ⟨rfl, n', hn', by rwa [Node.isVariable, hkind'], by rwa [hname']⟩

theorem gains (hb : FoldedInto d m₀ m c s) : ∃ new, Gains d m₀ m c s new := by
  obtain ⟨hc, hs, depth, hfolded⟩ := hb
  cases depth with
  | zero => exact hfolded.elim
  | succ depth =>
    obtain ⟨new, hentries, hfates⟩ := hfolded
    rw [h.entries_before hc] at hentries
    refine ⟨new, hentries, fun name t ht ↦ ?_, fun name ↦ ?_⟩
    · have hbelow := (h.overlaid.parent_of_propertyNamed? hs ht).1
      have hfate := hfates (name, t) (mem_propertyMap.mpr ht)
      generalize new (name, t) = e at hfate ⊢
      cases hfate with
      | both hmine hblock htb hin =>
        have hmine' := hc.property h.overlaid.rooted.linked hmine
        exact .both hmine hblock htb ⟨hmine', hbelow, depth, hin⟩
      | made hnone hkind htb hle hface hin =>
        exact .made hnone hkind htb hle hface ⟨.inr hle, hbelow, depth, hin⟩
      | lent hboth hmade => exact .lent hboth hmade
    · have hold : (d.entries c).filter (m.document.declares name) =
          (d.entries c).filter (d.declares name) := by
        refine List.filter_congr fun e he ↦ declares_congr ?_
        have hlt := h.before.lt_of_mem_entries he
        exact (h.grows.face _ (Nat.lt_trans hlt h.appended.next)).trans (h.face_before he)
      have hnew : ((m₀.document.propertyMap s).filterMap new).filter (m.document.declares name) =
          ((m₀.document.propertyNamed? s name).bind fun t ↦ new (name, t)).toList := by
        have hnames : ((m₀.document.propertyMap s).map Prod.fst).Nodup :=
          (answers_spec m₀.document s _).1
        rw [← lookup_propertyMap, ← filterMap_named hnames, List.filter_filterMap]
        refine List.filterMap_congr fun q hq ↦ ?_
        have hfate := hfates q hq
        cases he : new q with
        | none => simp
        | some e =>
          rw [he] at hfate
          rw [Option.filter_some, h.declares hs (mem_propertyMap.mp hq) hfate]
          simp
      rw [hentries, List.filter_append, hold, hnew]

/-- A new entry that declares a name stands for the overlay's declaration of it. -/
theorem new_of_declares {new : String × NodeId → Option Entry} {e : Entry}
    (g : Gains d m₀ m c s new) (hs : Below m₀.document d.nextId s)
    (he : e ∈ m.document.entries c) (hle : d.nextId ≤ e.node)
    (hdecl : m.document.declares name e) :
    ∃ t, m₀.document.propertyNamed? s name = some t ∧ new (name, t) = some e := by
  rw [g.entries] at he
  rcases List.mem_append.mp he with he | he
  · exact absurd (h.before.lt_of_mem_entries he) (Nat.not_lt.mpr hle)
  · obtain ⟨⟨name', t⟩, hq, hnew⟩ := List.mem_filterMap.mp he
    have ht := mem_propertyMap.mp hq
    have hfate := g.fate name' t ht
    rw [hnew] at hfate
    rw [h.declares hs (q := (name', t)) ht hfate] at hdecl
    obtain rfl : name' = name := of_decide_eq_true hdecl
    exact ⟨t, ht, hnew⟩

/-- The new block of a name is the one that the overlay's block of that name was folded into. -/
theorem made (hb : FoldedInto d m₀ m c s) (hwants : Wants d m.document c s name kind t) :
    ∃ f, Made d m.document c name kind f ∧ (∀ f', Made d m.document c name kind f' → f' = f) ∧
      m.document.propertyNamed? c name = some f ∧ FoldedInto d m₀ m f t := by
  obtain ⟨new, g⟩ := h.gains hb
  obtain ⟨ht, hnone, hkind, htb⟩ := h.wants hb.receives hb.below hwants
  obtain ⟨f, he, hle, hface, hin⟩ := (g.fate name t ht).of_made hnone hkind htb
  refine ⟨f, ⟨?_, h.after.state?_of_mem (g.mem ht he), ?_⟩, fun f' hmade ↦ ?_, ?_, hin⟩
  · exact Nat.le_trans (Nat.le_of_lt h.appended.next) hle
  · obtain ⟨n, hn, hn'⟩ := Option.map_eq_some_iff.mp hface
    simp only [Node.face, Prod.mk.injEq] at hn'
    exact ⟨n, hn, by rw [hn'.1, h.full_parse hb.below ht], hn'.2.1⟩
  · obtain ⟨e, hmem, rfl, hst⟩ := mem_of_state? hmade.own
    obtain ⟨n, hn, hname, hkind'⟩ := hmade.node
    have hdecl : m.document.declares name e := declares_iff.mpr
      ⟨by rw [Entry.isVisible, hst]; rfl, n, hn, by rw [Node.isVariable, hkind']; rfl, hname⟩
    obtain ⟨t', ht', hnew⟩ := h.new_of_declares g hb.below hmem hmade.new hdecl
    rw [ht] at ht'
    cases ht'
    rw [he] at hnew
    cases hnew
    rfl
  · rw [g.property, ht, Option.bind_some, he, Option.toList_some,
      Entry.pick_append_own (by simp [Entry.fresh])]
    rfl

theorem foldedInto (hroot : FoldedInto d m₀ m root d.nextId)
    (hp : MergedPair d m.document d.nextId c s) : FoldedInto d m₀ m c s := by
  induction hp with
  | top => exact hroot
  | both _ hboth ih =>
    obtain ⟨new, g⟩ := h.gains ih
    obtain ⟨ht, hmine, hblock, htb⟩ := h.meets ih.receives ih.below hboth
    exact ((g.fate _ _ ht).of_both hmine hblock htb).2
  | made _ hwants hmade ih =>
    obtain ⟨f, -, hunique, -, hin⟩ := h.made ih hwants
    exact hunique _ hmade ▸ hin

/-- A property of its own stays what a block answers with. -/
theorem own (hb : FoldedInto d m₀ m c s) (hmine : d.propertyNamed? c name = some mine)
    (hown : d.state? c mine ≠ some .applied) : m.document.propertyNamed? c name = some mine := by
  obtain ⟨new, g⟩ := h.gains hb
  obtain ⟨e, he, -, rfl, hpick⟩ := pick_of_propertyNamed? hmine
  have hst : e.state ≠ .applied := fun hst ↦ hown (hst ▸ h.before.state?_of_mem he)
  have hlast : (((d.entries c).filter (d.declares name)).filter
      (·.state != .applied)).getLast? = some e := by
    rw [← Entry.filter_pick, hpick, Option.filter_some, if_pos (by simpa using hst)]
  rw [g.property, Entry.pick_append_of_own (fun e' he' ↦ ?_) hlast]
  · rfl
  · obtain ⟨t, ht, hnew⟩ := Option.bind_eq_some_iff.mp (Option.mem_toList.mp he')
    have hfate := g.fate name t ht
    rw [hnew] at hfate
    cases hfate with
    | made hnone => simp [h.property_before hb.receives, hmine] at hnone
    | lent => rfl

/-- What is not folded is lent, and answers where there is nothing but what is lent. -/
theorem lent (hb : FoldedInto d m₀ m c s) (ht : m.document.propertyNamed? s name = some t)
    (hown : ∀ mine, d.propertyNamed? c name = some mine → d.state? c mine = some .applied)
    (hboth : ∀ mine, ¬ Meets d m.document c s name mine t)
    (hwants : ∀ kind, ¬ Wants d m.document c s name kind t) :
    m.document.propertyNamed? c name = some t ∧ m.document.state? c t = some .applied := by
  obtain ⟨new, g⟩ := h.gains hb
  have ht₀ := (h.property_overlay hb.below name).symm.trans ht
  have hblock := h.isBlockAt_overlay (h.overlaid.parent_of_propertyNamed? hb.below ht₀).1
  have he : new (name, t) = some (.fresh t .applied false) := by
    refine (g.fate name t ht₀).of_lent (fun mine hmine hmb htb ↦ ?_) fun kind hnone hkind htb ↦ ?_
    · rw [h.property_before hb.receives] at hmine
      rw [isBlockAt_congr (h.appended.face mine (lt_of_propertyNamed? hmine))] at hmb
      exact hboth mine ⟨ht, hblock ▸ htb, hmine, hmb⟩
    · rw [h.property_before hb.receives] at hnone
      rw [h.appended.config] at hkind
      exact hwants kind ⟨ht, hblock ▸ htb, hnone, hkind⟩
  have hborrowed : ((Entry.pick ((d.entries c).filter (d.declares name))).filter
      (·.state != .applied)) = none := by
    refine Option.filter_eq_none_iff.mpr fun e hpick ↦ ?_
    have hmine : d.propertyNamed? c name = some e.node := by rw [propertyNamed?_eq, hpick]; rfl
    have hmem := (List.mem_filter.mp (Entry.mem_of_pick hpick)).1
    have hst := (h.before.state?_of_mem hmem).symm.trans (hown e.node hmine)
    simpa using Option.some.inj hst
  refine ⟨?_, h.after.state?_of_mem (g.mem ht₀ he)⟩
  rw [g.property, ht₀, Option.bind_some, he, Option.toList_some,
    Entry.pick_append_applied rfl, ← Entry.filter_pick, hborrowed]
  rfl

theorem lookupLaw (hb : FoldedInto d m₀ m c s) : LookupLaw d m.document c s := by
  obtain ⟨new, g⟩ := h.gains hb
  refine ⟨⟨_, g.entries⟩, fun _ _ ↦ h.own hb, fun name mine t hboth ↦ ?_,
    fun name kind t hwants ↦ ?_, fun _ _ ↦ h.lent hb, fun name hnone ↦ ?_⟩
  · obtain ⟨ht, hmine, hblock, htb⟩ := h.meets hb.receives hb.below hboth
    obtain ⟨he, -⟩ := (g.fate name t ht).of_both hmine hblock htb
    rw [g.property, ht, Option.bind_some, he, Option.toList_none, List.append_nil,
      ← propertyNamed?_eq]
    exact hboth.ours
  · obtain ⟨f, hf, hunique, hfound, -⟩ := h.made hb hwants
    exact ⟨⟨f, hf⟩, fun f' hf' ↦ hunique f' hf' ▸ hfound⟩
  · rw [g.property, ← h.property_overlay hb.below, hnone, Option.bind_none, Option.toList_none,
      List.append_nil, ← propertyNamed?_eq]

theorem below_overlay (hx : d.nextId ≤ x) (hlt : x < m₀.document.nextId) :
    Below m.document d.nextId x :=
  (h.appended.below x hx hlt).mono fun y n hn ↦ by
    obtain ⟨n', hn', -, -, hp⟩ := node?_of_face? (h.grows.face y (lt_nextId hn)) hn
    exact ⟨n', hn', hp⟩

/-- What a merge makes outside of the overlay lies outside of it for good. -/
theorem not_below_overlay (hx : m₀.document.nextId ≤ x) (hlt : x < m.document.nextId) :
    ¬ Below m.document d.nextId x := by
  induction x using Nat.strongRecOn with
  | ind x ih =>
    intro hb
    obtain ⟨n, p, hn, -, hp, hor⟩ := h.grows.made x hx hlt
    rcases hb.eq_or_parent hn hp with rfl | hbp
    · exact absurd h.appended.next (Nat.not_lt.mpr hx)
    · have hpx := h.after.older x n p hn hp
      by_cases hpm : p < m₀.document.nextId
      · have hr := hor.resolve_right (Nat.not_le.mpr hpm)
        refine h.overlaid.not_below (.inl .refl) hr.reaches ?_
        refine below_of_older h.overlaid.rooted.linked.older hpm (fun y k hy hk ↦ ?_) hbp
        obtain ⟨k', hk', -, -, hparent⟩ := node?_of_face? (h.grows.face y hy).symm hk
        exact ⟨k', hk', hparent.symm⟩
      · exact ih p hpx (Nat.not_lt.mp hpm) (Nat.lt_trans hpx hlt) hbp

theorem length_newBlocks :
    (newBlocks d m.document d.nextId).length = m.document.nextId - m₀.document.nextId := by
  rw [newBlocks, List.filter_congr (q := fun x ↦ decide (m₀.document.nextId ≤ x)),
    length_filter_range]
  intro x hx
  have hlt := List.mem_range.mp hx
  have hnext := h.appended.next
  rw [Bool.eq_iff_iff]
  simp only [Bool.and_eq_true, decide_eq_true_iff, Bool.not_eq_true', List.contains_eq_mem,
    decide_eq_false_iff_not, mem_lineage h.after.older]
  constructor
  · rintro ⟨⟨hle, -⟩, hnot⟩
    refine Nat.not_lt.mp fun hltm ↦ hnot ?_
    have hb := h.below_overlay hle hltm
    obtain ⟨n, hn, -⟩ := h.overlaid.fresh.top
    obtain ⟨n', hn', -⟩ := node?_of_face? (h.grows.face _ (lt_nextId hn)) hn
    have hlive := isLive_iff.mpr ⟨n', hn'⟩
    exact ⟨hb.isLive hlive, hlive, hb⟩
  · intro hle
    obtain ⟨n, p, hn, hblock, -⟩ := h.grows.made x hle hlt
    refine ⟨⟨Nat.le_trans (Nat.le_of_lt hnext) hle, ?_⟩, fun hb ↦ ?_⟩
    · rw [isBlockAt, hn]
      exact hblock
    · exact h.not_below_overlay hle hlt hb.2.2

end Joined

theorem overlaid_withOverlay (hd : Rooted d) (other : Document) :
    Overlaid (d.overlayId other) (d.withOverlay other) :=
  ⟨hd.withOverlay other, (withOverlay_spec hd.linked other).2,
    (hd.withOverlay other).linked.not_below_root (overlayId_ne_root hd.linked other)⟩

theorem folds_withOverlay (hd : Rooted d) (other : Document) :
    let m₀ : Merging := { d.overlayCopy other with document := d.withOverlay other }
    let m := mergeBlock (d.withOverlay other).nodes.size root (d.overlayId other) m₀
    Grows (Overlaps m₀.document root (d.overlayId other)) m₀ m ∧
      Folded m₀.document m.document m₀.document.nextId (d.withOverlay other).nodes.size root
        (d.overlayId other) := by
  intro m₀ m
  have hover : Overlaid (d.overlayId other) m₀.document := overlaid_withOverlay hd other
  exact mergeBlock_folds hover (d.withOverlay other).nodes.size root (d.overlayId other) m₀
    (.inl .refl) .refl (Nat.le_add_right _ _)
    ⟨.refl _ _, rfl, (hd.withOverlay other).linked.store_root⟩

theorem joined_withOverlay (hd : Rooted d) (hnew : d.overlaySources.lookup other.id = none)
    (hnames : ∀ i n, other.node? i = some n → n.name.IsRegular) :
    let m₀ : Merging := { d.overlayCopy other with document := d.withOverlay other }
    let m := mergeBlock (d.withOverlay other).nodes.size root d.nextId m₀
    Joined d m₀ m ∧ FoldedInto d m₀ m root d.nextId ∧ m₀.applied = 0 ∧ m₀.synthesized = 0 ∧
      d.merge other = (⟨d.nextId, none, m.applied, m.synthesized, m.skipped⟩, m.document) := by
  intro m₀ m
  have hid := overlayId_eq hnew
  have hover := overlaid_withOverlay hd other
  obtain ⟨hgrows, hfolded⟩ := folds_withOverlay hd other
  rw [hid] at hover hgrows hfolded
  have hcounts := copyBlock_counts other other.nodes.size root (d.overlayId other)
    { document := (d.supersede other.id).2.push overlayNode }
  have hmerge : d.merge other =
      (⟨d.nextId, none, m.applied, m.synthesized, m.skipped⟩, m.document) := by
    simp only [m, m₀]
    rw [← hid, show none = (d.supersede other.id).1 by rw [supersede, hnew]]
    rfl
  have hafter := hd.linked.merge other
  rw [hmerge] at hafter
  have happended := overlayAppended_withOverlay hd.linked other
  rw [show (d.supersede other.id).2 = d by rw [supersede, hnew]] at happended
  exact ⟨⟨hd.linked, hafter, happended,
    fun x n hx ↦ regular_withOverlay hd.linked hnames (hid ▸ hx),
    hover, hgrows⟩, ⟨.inl .refl, .refl, _, hfolded⟩, hcounts.1, hcounts.2, hmerge⟩

theorem joined_merge (hd : Rooted d) (hnew : d.overlaySources.lookup other.id = none)
    (hnames : ∀ i n, other.node? i = some n → n.name.IsRegular) :
    ∃ m₀ m, Joined d m₀ m ∧ FoldedInto d m₀ m root d.nextId ∧
      m₀.applied = 0 ∧ m₀.synthesized = 0 ∧ d.merge other =
        (⟨d.nextId, none, m.applied, m.synthesized, m.skipped⟩, m.document) :=
  ⟨_, _, joined_withOverlay hd hnew hnames⟩

/-- The first merge of a document into another: what each block answers that a part of the overlay
is folded into, and the counts of the report. -/
theorem merge_lookup (hd : d.Reachable) (hnew : d.overlaySources.lookup other.id = none)
    (hnames : ∀ i n, other.node? i = some n → n.name.IsRegular) :
    let report := (d.merge other).1
    let d' := (d.merge other).2
    (∀ c s, MergedPair d d' report.overlay c s → LookupLaw d d' c s) ∧
      d'.appliedCount = d.appliedCount + report.applied ∧
      (newBlocks d d' report.overlay).length = report.synthesized := by
  obtain ⟨m₀, m, hjoined, hroot, happlied, hsynthesized, hmerge⟩ :=
    joined_merge hd.rooted hnew hnames
  simp only [hmerge]
  refine ⟨fun c s hp ↦ hjoined.lookupLaw (hjoined.foldedInto hroot hp), ?_, ?_⟩
  · have hcount := hjoined.grows.applied
    rw [happlied, hjoined.appended.applied] at hcount
    omega
  · have hcount := hjoined.grows.synthesized
    rw [hsynthesized] at hcount
    rw [hjoined.length_newBlocks]
    lia

def fontsDocument : Document := themeDocument "fonts"
  [{ name := ⟨["title"]⟩, kind := .block "font", children := [.literal ⟨["size"]⟩ (.integer 12)] }]

def colouredDocument : Document :=
  ((Document.new ⟨"app"⟩
    { kindOf := fun name _ ↦ if name = "title" then some "font" else none }).merge
      (themeDocument "colours" [.literal ⟨["text"]⟩ (.string "black")])).2

/-- The theme `5` of the fonts goes into the theme that is there, its title `6` into the new block
`8`, and that borrows the size. -/
theorem merge_lookup_fonts :
    let report := (colouredDocument.merge fontsDocument).1
    let d' := (colouredDocument.merge fontsDocument).2
    MergedPair colouredDocument d' report.overlay 8 6 ∧ d'.propertyNamed? 2 "title" = some 8 ∧
      d'.propertyNamed? 8 "size" = some 7 ∧ d'.state? 8 7 = some .applied ∧
      d'.appliedCount = colouredDocument.appliedCount + 1 ∧
      newBlocks colouredDocument d' report.overlay = [8] := by
  intro report d'
  have hregular : ∀ i < fontsDocument.nextId, ∀ n ∈ fontsDocument.node? i, n.name.IsRegular := by
    decide +kernel
  obtain ⟨hlaw, happlied, -⟩ := merge_lookup (d := colouredDocument) (.merge _ (.new _ _))
    (by decide) fun i n hn ↦ hregular i (lt_nextId hn) n hn
  have hboth : Meets colouredDocument d' root report.overlay "theme" 2 5 :=
    ⟨by decide +kernel, by decide +kernel, by decide, by decide⟩
  have htheme : MergedPair colouredDocument d' report.overlay 2 5 := .both .top hboth
  have hwants : Wants colouredDocument d' 2 5 "title" "font" 6 :=
    ⟨by decide +kernel, by decide +kernel, by decide, by decide +kernel⟩
  have hmade : Made colouredDocument d' 2 "title" "font" 8 :=
    ⟨by decide, by decide +kernel, _, rfl, rfl, rfl⟩
  have htitle := htheme.made hwants hmade
  have hnone : colouredDocument.propertyNamed? 8 "size" = none := by decide
  have hunknown : colouredDocument.config.kindOf "size" (d'.enclosing 8) = none := by decide +kernel
  obtain ⟨hsize, hborrowed⟩ := (hlaw 8 6 htitle).lent "size" 7 (by decide +kernel)
    (by simp [hnone]) (fun _ h ↦ by simpa [hnone] using h.ours)
    fun _ h ↦ by simpa using hunknown.symm.trans h.known
  exact ⟨htitle, ((hlaw 2 5 htheme).made _ _ _ hwants).2 8 hmade, hsize, hborrowed, happlied,
    by decide +kernel⟩

end Document

end BuildScript
