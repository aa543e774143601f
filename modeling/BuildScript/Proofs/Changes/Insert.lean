import BuildScript.Proofs.Changes.Graft

namespace BuildScript

theorem Store.mem_realizeOrder {s : Store} {e : Entry} {current target : List NodeId}
    (hs : s.nodes.Nodup) (ht : ∀ x ∈ target, x ∈ s.placeable)
    (he : e ∈ (s.realizeOrder current target).entries) :
    e ∈ s.entries ∨ ∃ e₀ ∈ s.entries, e₀.isPlaceable ∧ e = relocated e₀ := by
  refine (realizeOrder_induction (P := fun s' ↦ s'.nodes.Nodup ∧ ∀ e ∈ s'.entries,
    e ∈ s.entries ∨ ∃ e₀ ∈ s.entries, e₀.isPlaceable ∧ e = relocated e₀) current ?_ ht
    ⟨hs, fun _ ↦ .inl⟩).2 e he
  rintro s' node index ⟨hs', ih⟩ hnode
  refine ⟨(nodes_moveTo index).nodup_iff.mpr hs', fun e he ↦ ?_⟩
  rcases mem_moveTo he with he | ⟨e₀, he₀, rfl, rfl⟩
  · exact ih e he
  · obtain ⟨e₁, he₁, hp, hn⟩ := mem_placeable.mp hnode
    obtain rfl := eq_of_node_eq hs' he₁ he₀ hn
    rcases ih e₁ he₁ with he | ⟨e₂, he₂, hp₂, rfl⟩
    · exact .inr ⟨e₁, he, hp, rfl⟩
    · exact .inr ⟨e₂, he₂, hp₂, relocated_relocated e₂⟩

namespace Document

variable {d d' : Document} {edit : Edit} {b block x : NodeId} {n : Node} {s : Store} {e : Entry}

theorem nodes_placeNew (d : Document) (b x : NodeId) : (d.placeNew b x).nodes = d.nodes := by
  simp only [placeNew]
  split
  · split
    · rfl
    · split <;> rfl
  · rfl

/-- What can be moved has been there before, or it is staged and looks the same. -/
theorem Entered.relocate (h : Entered d edit d' b e) (hp : e.isPlaceable)
    (hins : edit.inserts = true) (hm : d'.Marked b) : Entered d edit d' b (Store.relocated e) := by
  cases h with
  | kept hs he => exact .moved hs he hp hm
  | @withdrawn s e₀ hs he _ _ =>
    have hst := e₀.withdraw_state
    simp [Entry.isPlaceable, hst, EntryState.isPlaceable] at hp
  | hidden => simp [Entry.isPlaceable, EntryState.isPlaceable] at hp
  | moved hs he hp' _ =>
    rw [Store.relocated_relocated]
    exact .moved hs he hp' hm
  | parsed ex hx ho hi => simp [hins] at hi
  | staged ex hx ho hm => exact .staged ex hx ho hm
  | @replacing block old spec n s e₀ he hn hpar hb hs hmem hold hna ho hm =>
    have hrel : Store.relocated (Store.replacement d.nextId e₀) =
        Store.replacement d.nextId e₀ := by
      have hst : Store.replacementState e₀.state = .toBeAdded := by
        revert hp
        cases h : e₀.state <;> simp [Store.replacement, Store.replacementState, Entry.fresh,
          Entry.isPlaceable, EntryState.isPlaceable, h]
      simp [Store.relocated, Store.replacement, Entry.fresh, hst]
    rw [hrel]
    exact .replacing he hn hpar hb hs hmem hold hna ho hm

theorem Alters.placeNew (h : Alters d edit d') (hl : Linked d') (hins : edit.inserts = true)
    (hm : d'.Marked block) (x : NodeId) : Alters d edit (d'.placeNew block x) := by
  have hcases := d'.placeNew_cases block x
  refine h.congr_stores (nodes_placeNew d' block x) (fun b s'' e'' hb he ↦ ?_) fun b hb ↦ ?_
  · rcases hcases with ha | ⟨s, target, hs, ht, heq⟩
    · rw [ha.store?] at hb
      exact h.entry b s'' e'' hb he
    · rw [heq, store?_modifyStore] at hb
      split at hb
      · next hbb =>
        subst hbb
        rw [hs] at hb
        cases hb
        rcases Store.mem_realizeOrder (hl.store block s hs).nodup ht he with he | ⟨e, he₀, hp, rfl⟩
        · exact h.entry block s e'' hs he
        · exact (h.entry block s e hs he₀).relocate hp hins hm
      · exact h.entry b s'' e'' hb he
  · rcases hcases with ha | ⟨s, target, hs, ht, heq⟩
    · exact .inl (hb.congr (ha.store? b))
    · by_cases hbb : block = b
      · exact .inr (hbb ▸ hm)
      · exact .inl (hb.congr (by rw [heq, store?_modifyStore, if_neg hbb]))

theorem alters_add (h : Linked d) (hs : d.store? block = some s) (spec : Spec)
    (hins : edit.inserts = true) : Alters d edit
      ((d.stage block spec fun id s ↦ s.add id .toBeAdded false).placeNew block d.nextId) := by
  obtain ⟨ha, hl, hm⟩ := alters_stage edit h hs spec
    (h.graft_add hs .toBeAdded spec false) (fun e he ↦ by simpa [Store.add] using he) fun _ ↦ rfl
  exact ha.placeNew hl hins hm d.nextId

theorem alters_addAt (h : Linked d) (hs : d.store? block = some s) (spec : Spec) (index : Int) :
    Alters d edit (d.stage block spec fun id s ↦ s.addAt id .toBeAdded false index) :=
  (alters_stage edit h hs spec (h.graft_addAt hs .toBeAdded spec false index)
    (fun _ he ↦ Store.mem_addAt he) fun _ ↦ rfl).1

end Document

end BuildScript
