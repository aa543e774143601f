import BuildScript.Proofs.Changes.Flags

namespace BuildScript

def Edit.inserts : Edit → Bool
  | .add .. | .addAt .. | .addBeforeAllOfKind .. | .setNewLiteral .. | .replace .. => true
  | _ => false

def Edit.withdraws? : Edit → Option (NodeId × NodeId)
  | .remove block node => some (block, node)
  | .replace block old _ => some (block, old)
  | _ => none

def Edit.hides (d : Document) : Edit → NodeId → NodeId → Bool
  | .hideNamed block name, b, x => b = block && d.isNamed name x
  | .addParsedResetting block _ name, b, x => b = block && d.isNamed name x
  | _, _, _ => false

namespace Document

/-- Where an entry of a block comes from after a change. What is staged is marked. -/
inductive Entered (d : Document) (edit : Edit) (d' : Document) (b : NodeId) : Entry → Prop
  | kept {s : Store} {e : Entry} : d.store? b = some s → e ∈ s.entries → Entered d edit d' b e
  | withdrawn {s : Store} {e : Entry} : d.store? b = some s → e ∈ s.entries → d'.Marked b →
      (e.isPlaceable ∨ (d.isOwnedBy e.node b → edit.withdraws? = some (b, e.node))) →
      Entered d edit d' b e.withdraw
  | hidden {s : Store} {e : Entry} : d.store? b = some s → e ∈ s.entries → e.isPlaceable →
      edit.hides d b e.node → Entered d edit d' b { e with state := .hidden }
  | moved {s : Store} {e : Entry} : d.store? b = some s → e ∈ s.entries → e.isPlaceable →
      d'.Marked b → Entered d edit d' b (Store.relocated e)
  | parsed {x : NodeId} (existsInSource : Bool) : d.nextId ≤ x → d'.isOwnedBy x b →
      edit.inserts = false → Entered d edit d' b (.fresh x .existing existsInSource)
  | staged {x : NodeId} (existsInSource : Bool) : d.nextId ≤ x → d'.isOwnedBy x b →
      d'.Marked b → Entered d edit d' b (.fresh x .toBeAdded existsInSource)
  | replacing {block old : NodeId} {spec : Spec} {n : Node} {s : Store} {e : Entry} :
      edit = .replace block old spec → d.node? old = some n → n.parent = some block →
      b ∈ block :: n.holders → d.store? b = some s → e ∈ s.entries → e.node = old →
      (b = block → e.state ≠ .applied) → d'.isOwnedBy d.nextId block → d'.Marked b →
      Entered d edit d' b (Store.replacement d.nextId e)

/-- What a change does to a document: nothing is lost, and all that is staged or moved is marked. -/
structure Alters (d : Document) (edit : Edit) (d' : Document) : Prop where
  next : d.nextId ≤ d'.nextId
  live : ∀ x, d.isLive x → d'.isLive x
  node : ∀ x n', x < d.nextId → d'.node? x = some n' → ∃ n, d.node? x = some n ∧
    n'.parent = n.parent ∧ n'.holders = n.holders ∧
    (n.modified = true → n'.modified = true) ∧
    (n'.modified = true → n.modified = true ∨ d'.Marked x) ∧
    (n'.pending = n.pending ∨ d'.Marked x)
  fresh : ∀ x n', d.nextId ≤ x → d'.node? x = some n' → n'.pending = none ∧
    (n'.modified = true → d'.Marked x) ∧
    (n'.holders ≠ [] → ∃ old n, d.node? old = some n ∧ n'.parent = n.parent ∧
      n'.holders = n.holders)
  entry : ∀ b s' e', d'.store? b = some s' → e' ∈ s'.entries → Entered d edit d' b e'
  unmoved : ∀ b, d.Unmoved b → d'.Unmoved b ∨ d'.Marked b

variable {d d₁ d' d'' : Document} {edit : Edit} {a b block new x y : NodeId}
  {l : List NodeId} {n n' : Node} {s : Store} {e : Entry} {state : EntryState}

theorem Marked.congr (h : d.Marked x) (hn : d'.nodes = d.nodes) : d'.Marked x := by
  have hnode : ∀ y, d'.node? y = d.node? y := fun y ↦ by simp only [node?, hn]
  intro a n ha hna
  refine h a n (ha.mono fun y m hm ↦ ⟨m, hnode y ▸ hm, rfl⟩) (hnode a ▸ hna)

theorem Entered.congr (h : Entered d edit d' b e) (hn : d''.nodes = d'.nodes) :
    Entered d edit d'' b e := by
  have hown : ∀ x c, d'.isOwnedBy x c → d''.isOwnedBy x c := fun x c hx ↦ by
    simpa only [isOwnedBy, node?, hn] using hx
  cases h with
  | kept hs he => exact .kept hs he
  | withdrawn hs he hm hw => exact .withdrawn hs he (hm.congr hn) hw
  | hidden hs he hp hh => exact .hidden hs he hp hh
  | moved hs he hp hm => exact .moved hs he hp (hm.congr hn)
  | parsed ex hx ho hi => exact .parsed ex hx (hown _ _ ho) hi
  | staged ex hx ho hm => exact .staged ex hx (hown _ _ ho) (hm.congr hn)
  | replacing he hn' hp hb hs hmem hold hna ho hm =>
    exact .replacing he hn' hp hb hs hmem hold hna (hown _ _ ho) (hm.congr hn)

namespace Alters

theorem refl (d : Document) (edit : Edit) : Alters d edit d where
  next := Nat.le_refl _
  live _ hx := hx
  node _ n' _ hn' := ⟨n', hn', rfl, rfl, fun h ↦ h, .inl, .inl rfl⟩
  fresh _ _ hx hn' := absurd (lt_nextId hn') (Nat.not_lt.mpr hx)
  entry _ _ _ hs he := .kept hs he
  unmoved _ hb := .inl hb

theorem congr_stores (h : Alters d edit d') (hn : d''.nodes = d'.nodes)
    (hs : ∀ b s'' e'', d''.store? b = some s'' → e'' ∈ s''.entries → Entered d edit d' b e'')
    (hu : ∀ b, d'.Unmoved b → d''.Unmoved b ∨ d'.Marked b) : Alters d edit d'' := by
  have hnode : ∀ y, d''.node? y = d'.node? y := fun y ↦ by simp only [node?, hn]
  refine ⟨?_, fun x hx ↦ ?_, fun x n' hx hn' ↦ ?_, fun x n' hx hn' ↦ ?_, fun b s'' e'' hb he ↦ ?_,
    fun b hb ↦ ?_⟩
  · simpa only [nextId, hn] using h.next
  · simpa only [isLive, hnode] using h.live x hx
  · obtain ⟨n, hn₀, hp, hh, hm, hm', hpend⟩ := h.node x n' hx (hnode x ▸ hn')
    exact ⟨n, hn₀, hp, hh, hm, fun h ↦ (hm' h).imp_right (·.congr hn),
      hpend.imp_right (·.congr hn)⟩
  · obtain ⟨hpend, hm, hh⟩ := h.fresh x n' hx (hnode x ▸ hn')
    exact ⟨hpend, fun h ↦ (hm h).congr hn, hh⟩
  · exact (hs b s'' e'' hb he).congr hn
  · rcases h.unmoved b hb with hb | hm
    · exact (hu b hb).imp_right (·.congr hn)
    · exact .inr (hm.congr hn)

theorem flags (hn : d₁.nodes = d.nodes) (hf : Flags l d₁ d')
    (hs : ∀ b s' e', d'.store? b = some s' → e' ∈ s'.entries → Entered d edit d' b e')
    (hu : ∀ b, d.Unmoved b → d'.Unmoved b ∨ d'.Marked b) : Alters d edit d' := by
  have hnode : ∀ y, d₁.node? y = d.node? y := fun y ↦ by simp only [node?, hn]
  have hnext : d'.nextId = d.nextId := by
    rw [hf.nextId, nextId, nextId, hn]
  refine ⟨Nat.le_of_eq hnext.symm, fun x hx ↦ ?_, fun x n' hx hn' ↦ ?_, fun x n' hx hn' ↦ ?_, hs,
    hu⟩
  · rw [hf.isLive, isLive, hnode]
    exact hx
  · obtain ⟨n, hn₁, hp, hh, hpending, hup, hdown⟩ := hf.node hn'
    exact ⟨n, hnode x ▸ hn₁, hp, hh, hup, hdown, .inl hpending⟩
  · exact absurd (lt_nextId hn') (Nat.not_lt.mpr (hnext ▸ hx))

theorem modifyStore {f : Store → Store} (hf : Flags l (d.modifyStore block f) d')
    (hs : ∀ s e', d.store? block = some s → e' ∈ (f s).entries → Entered d edit d' block e')
    (hu : d'.Marked block ∨ ∀ s, (f s).baseline = s.baseline) : Alters d edit d' := by
  have hn : (d.modifyStore block f).nodes = d.nodes := rfl
  refine flags hn hf (fun b s' e' hb he ↦ ?_) fun b hb ↦ ?_
  · rw [hf.store?, store?_modifyStore] at hb
    split at hb
    · next hbb =>
      subst hbb
      obtain ⟨s, hs₀, rfl⟩ := Option.map_eq_some_iff.mp hb
      exact hs s e' hs₀ he
    · exact .kept hb he
  · by_cases hbb : block = b
    · subst hbb
      refine hu.symm.imp_left fun hu ↦ ?_
      exact (hb.modifyStore fun s _ hs ↦ (hu s).trans hs).congr (hf.store? block)
    · refine .inl (hb.congr ?_)
      rw [hf.store?, store?_modifyStore, if_neg hbb]

end Alters

theorem Linked.isLive_of_store? (h : Linked d) (hs : d.store? b = some s) : d.isLive b := by
  obtain ⟨n, hn, -⟩ := h.isContainer_of_store? hs
  exact isLive_iff.mpr ⟨n, hn⟩

end Document

end BuildScript
