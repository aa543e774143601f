import BuildScript.Proofs.Folding.Growth

namespace BuildScript

def Node.gist (n : Node) : Name × Kind := (n.name, n.kind)

def Entry.rename (f : NodeId → NodeId) (e : Entry) : Entry := { e with node := f e.node }

theorem Entry.pick_map (f : NodeId → NodeId) (l : List Entry) :
    Entry.pick (l.map (Entry.rename f)) = (Entry.pick l).map (Entry.rename f) := by
  have hstate : (fun e : Entry ↦ e.state != .applied) ∘ Entry.rename f =
      fun e ↦ e.state != .applied := rfl
  rw [pick, pick, List.filter_map, hstate, List.getLast?_map, List.getLast?_map]
  cases (l.filter (·.state != .applied)).getLast? <;> rfl

namespace Document

variable {A B A' B' d d' other : Document} {b o o' x y : NodeId} {n n' : Node} {name : String}

def gist? (d : Document) (x : NodeId) : Option (Name × Kind) := (d.node? x).map Node.gist

def listing? (d : Document) (x : NodeId) : Option (List Entry) := (d.store? x).map (·.entries)

/-- The node in the place of `x` in an overlay that begins at `o'`, not at `o`. -/
def twin (o o' x : NodeId) : NodeId := x - o + o'

theorem entries_eq_listing? (d : Document) (x : NodeId) : d.entries x = (d.listing? x).getD [] := by
  rw [entries, listing?]
  cases d.store? x <;> rfl

theorem gist?_enroll (d : Document) (b : NodeId) (n : Node) (x : NodeId) :
    (d.enroll b n).gist? x = if x = d.nextId then some n.gist else d.gist? x := by
  rw [gist?, node?_enroll, gist?]
  split <;> rfl

theorem listing?_enroll (hsizes : d.stores.size = d.nodes.size) (hb : b < d.nextId) (n : Node)
    (x : NodeId) : (d.enroll b n).listing? x =
      if x = d.nextId then (if n.isContainer then some [] else none)
      else if x = b then (d.listing? x).map (· ++ [.fresh d.nextId .existing false])
      else d.listing? x := by
  rw [listing?, enroll, store?_modifyStore, store?_push hsizes, listing?]
  by_cases hx : x = d.nextId
  · have hne : b ≠ x := by
      intro he
      lia
    rw [if_neg hne, if_pos hx, if_pos hx]
    cases n.isContainer <;> rfl
  · rw [if_neg hx, if_neg hx]
    by_cases hbx : x = b
    · rw [if_pos hbx.symm, if_pos hbx, Option.map_map, Option.map_map]
      rfl
    · rw [if_neg (Ne.symm hbx), if_neg hbx]

theorem gist?_alike (h : Alike d d') (x : NodeId) : d'.gist? x = d.gist? x := by
  have hbare := congrArg (Option.map Node.gist) (h.bare x)
  rwa [Option.map_map, Option.map_map] at hbare

theorem listing?_alike (h : Alike d d') (x : NodeId) : d'.listing? x = d.listing? x := by
  rw [listing?, h.store?, listing?]

theorem isContainer_of_gist (h : n'.gist = n.gist) : n'.isContainer = n.isContainer :=
  congrArg (fun q : Name × Kind ↦ q.2.isContainer) h

theorem declares_of_gist {e e' : Entry} (hv : e'.isVisible = e.isVisible)
    (hg : B.gist? e'.node = A.gist? e.node) : B.declares name e' = A.declares name e := by
  unfold gist? at hg
  rw [declares, declares, hv]
  congr 1
  generalize B.node? e'.node = i at hg ⊢
  generalize A.node? e.node = j at hg ⊢
  cases i <;> cases j <;> simp_all [Node.gist, Node.isVariable, Node.isCalled]

/-- From `o` on `A` holds what `B` holds from `o'` on. -/
structure Twins (o o' : NodeId) (A B : Document) : Prop where
  sizes : A.stores.size = A.nodes.size
  sizes' : B.stores.size = B.nodes.size
  start : o ≤ A.nextId
  next : B.nextId = twin o o' A.nextId
  gist : ∀ x, o ≤ x → B.gist? (twin o o' x) = A.gist? x
  listing : ∀ x, o ≤ x → B.listing? (twin o o' x) =
    (A.listing? x).map (List.map (Entry.rename (twin o o')))
  own : ∀ x, o ≤ x → ∀ e ∈ A.entries x, o ≤ e.node ∧ e.state = .existing

namespace Twins

theorem enroll (h : Twins o o' A B) (hb : o ≤ b) (hlt : b < A.nextId) (hg : n'.gist = n.gist) :
    Twins o o' (A.enroll b n) (B.enroll (twin o o' b) n') := by
  have hnext := h.next
  have hstart := h.start
  have hlt' : twin o o' b < B.nextId := by
    simp only [twin] at hnext ⊢
    lia
  have hsame : ∀ y, o ≤ y → ∀ x, o ≤ x → (twin o o' x = twin o o' y ↔ x = y) := by
    intro y hy x hx
    simp only [twin]
    lia
  refine ⟨?_, ?_, ?_, ?_, fun x hx ↦ ?_, fun x hx ↦ ?_, fun x hx e he ↦ ?_⟩
  · simpa [Document.enroll, push, modifyStore] using h.sizes
  · simpa [Document.enroll, push, modifyStore] using h.sizes'
  · rw [nextId_enroll]
    lia
  · simp only [nextId_enroll, hnext, twin]
    lia
  · simp only [gist?_enroll, hnext, hsame _ hstart x hx, hg, h.gist x hx]
  · rw [listing?_enroll h.sizes hlt, listing?_enroll h.sizes' hlt', hnext]
    simp only [hsame _ hstart x hx, hsame _ hb x hx, h.listing x hx, isContainer_of_gist hg]
    split
    · split <;> rfl
    · split
      · rw [Option.map_map, Option.map_map]
        congr 1
        funext l
        simp [Entry.rename, Entry.fresh]
      · rfl
  · rw [entries_eq_listing?, listing?_enroll h.sizes hlt] at he
    have hold := h.own x hx
    rw [entries_eq_listing?] at hold
    split at he
    · split at he <;> simp at he
    · split at he
      · cases hl : A.listing? x with
        | none => simp [hl] at he
        | some l =>
          rw [hl] at he hold
          rcases List.mem_append.mp he with he | he
          · exact hold e he
          · rw [List.mem_singleton.mp he]
            exact ⟨hstart, rfl⟩
      · exact hold e he

theorem copyBlock (other : Document) (fuel : Nat) (source target : NodeId) (m m' : Merging)
    (h : Twins o o' m.document m'.document) (hle : o ≤ target)
    (hlt : target < m.document.nextId) :
    Twins o o' (copyBlock other fuel source target m).document
      (copyBlock other fuel source (twin o o' target) m').document ∧
      m.document.nextId ≤ (Document.copyBlock other fuel source target m).document.nextId := by
  induction fuel generalizing source target m m' with
  | zero => exact ⟨h, Nat.le_refl _⟩
  | succ fuel ih =>
    rw [Document.copyBlock, Document.copyBlock]
    generalize other.allElements source = l
    induction l generalizing m m' with
    | nil => exact ⟨h, Nat.le_refl _⟩
    | cons id l ihl =>
      rw [List.foldl_cons, List.foldl_cons]
      cases hid : other.node? id with
      | none => exact ihl m m' h hlt
      | some n =>
        simp only
        split
        · exact ihl { m with skipped := m.skipped ++ [n.name.full] }
            { m' with skipped := m'.skipped ++ [n.name.full] } h hlt
        · have hcopy : Twins o o' (m.document.enroll target (copyOf n target))
              (m'.document.enroll (twin o o' target) (copyOf n (twin o o' target))) :=
            h.enroll hle hlt rfl
          have hnext := nextId_enroll m.document target (copyOf n target)
          split
          · -- the children go below the copy, which stands at the next number on either side
            have hgo := ih id m.document.nextId
              { m with document := m.document.enroll target (copyOf n target) }
              { m' with
                document := m'.document.enroll (twin o o' target) (copyOf n (twin o o' target)) }
              hcopy h.start (by simp only [hnext]; lia)
            rw [← h.next] at hgo
            obtain ⟨hgo, hmono⟩ := hgo
            simp only [hnext] at hmono
            obtain ⟨hrest, hmono'⟩ := ihl _ _ hgo (by lia)
            exact ⟨hrest, Nat.le_trans (Nat.le_of_succ_le hmono) hmono'⟩
          · obtain ⟨hrest, hmono⟩ := ihl
              { m with document := m.document.enroll target (copyOf n target) }
              { m' with
                document := m'.document.enroll (twin o o' target) (copyOf n (twin o o' target)) }
              hcopy (by simp only [hnext]; lia)
            simp only [hnext] at hmono
            exact ⟨hrest, Nat.le_of_succ_le hmono⟩

theorem push (h : d.stores.size = d.nodes.size) (h' : d'.stores.size = d'.nodes.size) :
    Twins d.nextId d'.nextId (d.push overlayNode) (d'.push overlayNode) := by
  have hnode : ∀ (d : Document) x, d.nextId ≤ x →
      (d.push overlayNode).gist? x = if x = d.nextId then some overlayNode.gist else none := by
    intro d x hx
    rw [gist?, node?_push]
    split
    · rfl
    · rw [node?_of_le hx]
      rfl
  have hlist : ∀ (d : Document) x, d.stores.size = d.nodes.size → d.nextId ≤ x →
      (d.push overlayNode).listing? x = if x = d.nextId then some [] else none := by
    intro d x hsizes hx
    rw [listing?, store?_push hsizes]
    split
    · rfl
    · cases hs : d.store? x with
      | none => rfl
      | some s =>
        have hlt := Table.lt_size_of_get? hs
        rw [hsizes] at hlt
        exact absurd hlt (Nat.not_lt.mpr hx)
  have hiff : ∀ x, d.nextId ≤ x → (twin d.nextId d'.nextId x = d'.nextId ↔ x = d.nextId) := by
    intro x hx
    simp only [twin]
    lia
  have hge : ∀ x, d'.nextId ≤ twin d.nextId d'.nextId x := by
    intro x
    simp only [twin]
    lia
  refine ⟨by simpa [Document.push] using h, by simpa [Document.push] using h', by simp, ?_,
    fun x hx ↦ ?_, fun x hx ↦ ?_, fun x hx e he ↦ ?_⟩
  · simp only [nextId_push, twin]
    lia
  · rw [hnode d' _ (hge x), hnode d x hx]
    simp only [hiff x hx]
  · rw [hlist d' _ h' (hge x), hlist d x h hx]
    simp only [hiff x hx]
    split <;> rfl
  · rw [entries_eq_listing?, hlist d x h hx] at he
    split at he <;> simp at he

theorem alike (h : Twins o o' A B) (ha : Alike A A') (hb : Alike B B') : Twins o o' A' B' := by
  refine ⟨?_, ?_, ?_, ?_, fun x hx ↦ ?_, fun x hx ↦ ?_, fun x hx e he ↦ ?_⟩
  · rw [ha.storesSize, ha.size, h.sizes]
  · rw [hb.storesSize, hb.size, h.sizes']
  · rw [ha.nextId]
    exact h.start
  · rw [ha.nextId, hb.nextId]
    exact h.next
  · rw [gist?_alike ha, gist?_alike hb, h.gist x hx]
  · rw [listing?_alike ha, listing?_alike hb, h.listing x hx]
  · rw [entries_eq_listing?, listing?_alike ha, ← entries_eq_listing?] at he
    exact h.own x hx e he

theorem withOverlay (h : Linked d) (h' : Linked d') (other : Document) :
    Twins (d.overlayId other) (d'.overlayId other) (d.withOverlay other)
      (d'.withOverlay other) := by
  have hstart : Twins (d.overlayId other) (d'.overlayId other) _ _ :=
    push (h.supersede other.id).sizes (h'.supersede other.id).sizes
  have hsame : twin (d.overlayId other) (d'.overlayId other) (d.overlayId other) =
      d'.overlayId other := by
    simp [twin]
  have hcopy := (copyBlock other other.nodes.size root (d.overlayId other)
    { document := (d.supersede other.id).2.push overlayNode }
    { document := (d'.supersede other.id).2.push overlayNode } hstart (Nat.le_refl _)
    (by simp [overlayId])).1
  rw [hsame] at hcopy
  have hrecord := hcopy.alike (.recordEdges _ (d.overlayId other))
    (.recordEdges _ (d'.overlayId other))
  exact ⟨hrecord.sizes, hrecord.sizes', hrecord.start, hrecord.next, hrecord.gist,
    hrecord.listing, hrecord.own⟩

theorem entries (h : Twins o o' A B) (hx : o ≤ x) :
    B.entries (twin o o' x) = (A.entries x).map (Entry.rename (twin o o')) := by
  rw [entries_eq_listing?, entries_eq_listing?, h.listing x hx]
  cases A.listing? x <;> rfl

theorem declares (h : Twins o o' A B) {e : Entry} (he : o ≤ e.node) :
    B.declares name (e.rename (twin o o')) = A.declares name e :=
  declares_of_gist rfl (h.gist e.node he)

theorem propertyNamed? (h : Twins o o' A B) (hx : o ≤ x) (name : String) :
    B.propertyNamed? (twin o o' x) name = (A.propertyNamed? x name).map (twin o o') := by
  have hfilter : ((A.entries x).filter (B.declares name ∘ Entry.rename (twin o o'))) =
      (A.entries x).filter (A.declares name) :=
    List.filter_congr fun e he ↦ h.declares (h.own x hx e he).1
  rw [propertyNamed?_eq, propertyNamed?_eq, h.entries hx, List.filter_map, hfilter,
    Entry.pick_map, Option.map_map, Option.map_map]
  rfl

theorem propertyMap_perm (h : Twins o o' A B) (hx : o ≤ x) :
    (B.propertyMap (twin o o' x)).Perm
      ((A.propertyMap x).map fun q ↦ (q.1, twin o o' q.2)) := by
  have hnames : ∀ (d : Document) (x : NodeId), ((d.propertyMap x).map Prod.fst).Nodup :=
    fun d x ↦ (answers_spec d x _).1
  have hmap : ((A.propertyMap x).map fun q ↦ (q.1, twin o o' q.2)).map Prod.fst =
      (A.propertyMap x).map Prod.fst := by
    rw [List.map_map]
    rfl
  refine (List.perm_ext_iff_of_nodup (.of_map _ (hnames B _)) (.of_map Prod.fst ?_)).mpr
    fun ⟨name, t⟩ ↦ ?_
  · rw [hmap]
    exact hnames A x
  · rw [mem_propertyMap, h.propertyNamed? hx, Option.map_eq_some_iff, List.mem_map]
    constructor
    · rintro ⟨t, ht, rfl⟩
      exact ⟨(name, t), mem_propertyMap.mpr ht, rfl⟩
    · rintro ⟨⟨name', t'⟩, ht, he⟩
      cases he
      exact ⟨t', mem_propertyMap.mp ht, rfl⟩

theorem isBlockAt (h : Twins o o' A B) (hx : o ≤ x) :
    B.isBlockAt (twin o o' x) = A.isBlockAt x := by
  have hg := h.gist x hx
  unfold gist? at hg
  unfold Document.isBlockAt
  generalize B.node? (twin o o' x) = i at hg ⊢
  generalize A.node? x = j at hg ⊢
  cases i <;> cases j <;> simp_all [Node.gist, Node.isBlock]

end Twins

end Document

end BuildScript
