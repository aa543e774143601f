import BuildScript.Proofs.Document.Lineage

namespace BuildScript

def Store.without (l : List NodeId) (s : Store) : Store :=
  { s with entries := s.entries.filter (!l.contains ·.node) }

theorem Store.mem_without {l : List NodeId} {s : Store} {e : Entry} :
    e ∈ (s.without l).entries ↔ e ∈ s.entries ∧ e.node ∉ l := by
  simp [Store.without]

theorem Store.without_of_forall_not_mem {l : List NodeId} {s : Store}
    (h : ∀ e ∈ s.entries, e.node ∉ l) : s.without l = s := by
  have hall : s.entries.filter (!l.contains ·.node) = s.entries :=
    List.filter_eq_self.mpr fun e he ↦ by simpa using h e he
  simp only [Store.without, hall]

theorem Store.without_singleton {s : Store} (h : s.nodes.Nodup) (id : NodeId) :
    s.without [id] = s.purge id := by
  simp only [Store.without, Store.purge, Store.eraseP_eq_filter h]
  congr 1
  refine List.filter_congr fun e _ ↦ ?_
  rw [Bool.eq_iff_iff]
  simp

theorem Store.without_without (s : Store) (id : NodeId) (l : List NodeId) :
    (s.without [id]).without l = s.without (id :: l) := by
  simp [Store.without, List.filter_filter, Bool.and_comm]

theorem Store.without_nodes_sublist (l : List NodeId) (s : Store) :
    (s.without l).nodes.Sublist s.nodes := List.filter_sublist.map _

namespace Document

variable {d : Document} {id x y : NodeId} {n : Node}

def purgeFrom (d : Document) (id : NodeId) (holders : List NodeId) : Document :=
  holders.foldl (fun d holder ↦ d.modifyStore holder (·.purge id)) d

theorem purgeFrom_fields (d : Document) (id : NodeId) (holders : List NodeId) :
    (d.purgeFrom id holders).nodes = d.nodes ∧
    (d.purgeFrom id holders).stores.size = d.stores.size ∧
    (d.purgeFrom id holders).overlays = d.overlays ∧
    (d.purgeFrom id holders).overlaySources = d.overlaySources :=
  foldl_modifyStore_fields holders (·.purge id) d

theorem store?_purgeFrom {holders : List NodeId} (hh : holders.Nodup) (d : Document)
    (id y : NodeId) :
    (d.purgeFrom id holders).store? y =
      if y ∈ holders then (d.store? y).map (·.purge id) else d.store? y :=
  store?_foldl_modifyStore hh (·.purge id) d y

theorem evict_of_none (h : d.node? id = none) : d.evict id = d := by
  simp only [evict, h]

theorem evict_of_some (h : d.node? id = some n) :
    d.evict id = { d.purgeFrom id n.holders with
      nodes := d.nodes.erase id, stores := (d.purgeFrom id n.holders).stores.erase id } := by
  have hn := (d.purgeFrom_fields id n.holders).1
  simp only [purgeFrom] at hn
  simp only [evict, h, purgeFrom, hn]

@[simp]
theorem node?_evict (d : Document) (id x : NodeId) :
    (d.evict id).node? x = if x = id then none else d.node? x := by
  cases h : d.node? id with
  | none =>
    rw [evict_of_none h]
    split
    · next hx => rw [hx, h]
    · rfl
  | some n =>
    rw [evict_of_some h]
    simp only [node?, Table.get?_erase, eq_comm]

theorem node?_of_evict (h : (d.evict id).node? x = some n) : d.node? x = some n := by
  rw [node?_evict] at h
  split at h
  · simp at h
  · exact h

theorem evict_fields (d : Document) (id : NodeId) :
    (d.evict id).nextId = d.nextId ∧ (d.evict id).stores.size = d.stores.size ∧
    (d.evict id).overlays = d.overlays ∧ (d.evict id).overlaySources = d.overlaySources := by
  cases h : d.node? id with
  | none => rw [evict_of_none h]; exact ⟨rfl, rfl, rfl, rfl⟩
  | some n =>
    obtain ⟨h₁, h₂, h₃, h₄⟩ := d.purgeFrom_fields id n.holders
    rw [evict_of_some h]
    exact ⟨d.nodes.size_erase id, (Table.size_erase _ id).trans h₂, h₃, h₄⟩

theorem store?_evict_self (h : d.node? id = some n) : (d.evict id).store? id = none := by
  rw [evict_of_some h]
  simp [store?]

theorem store?_evict_of_ne (h : d.node? id = some n) (hh : n.holders.Nodup) (hy : y ≠ id) :
    (d.evict id).store? y =
      if y ∈ n.holders then (d.store? y).map (·.purge id) else d.store? y := by
  rw [evict_of_some h, ← store?_purgeFrom hh d id y]
  simp [store?, Ne.symm hy]

theorem node?_foldl_evict (l : List NodeId) (d : Document) (x : NodeId) :
    (l.foldl evict d).node? x = if x ∈ l then none else d.node? x := by
  induction l generalizing d with
  | nil => rfl
  | cons id l ih =>
    rw [List.foldl_cons, ih, node?_evict]
    by_cases hx : x = id
    · simp [hx]
    · simp [hx]

theorem node?_of_foldl_evict {l : List NodeId} {d : Document} {x : NodeId} {n : Node}
    (h : (l.foldl evict d).node? x = some n) : x ∉ l ∧ d.node? x = some n := by
  rw [node?_foldl_evict] at h
  split at h
  · simp at h
  · next hx => exact ⟨hx, h⟩

theorem node?_of_release (h : (d.release id).node? x = some n) : d.node? x = some n :=
  (node?_of_foldl_evict h).2

theorem node?_release_self (d : Document) (id : NodeId) : (d.release id).node? id = none := by
  cases hn : (d.release id).node? id with
  | none => rfl
  | some n =>
    obtain ⟨hnot, hn⟩ := node?_of_foldl_evict hn
    exact absurd (self_mem_ownedSubtree (isLive_iff.mpr ⟨n, hn⟩)) hnot

theorem foldl_evict_fields (l : List NodeId) (d : Document) :
    (l.foldl evict d).nextId = d.nextId ∧ (l.foldl evict d).stores.size = d.stores.size ∧
    (l.foldl evict d).overlays = d.overlays ∧
    (l.foldl evict d).overlaySources = d.overlaySources := by
  induction l generalizing d with
  | nil => exact ⟨rfl, rfl, rfl, rfl⟩
  | cons id l ih =>
    obtain ⟨h₁, h₂, h₃, h₄⟩ := ih (d.evict id)
    obtain ⟨g₁, g₂, g₃, g₄⟩ := d.evict_fields id
    exact ⟨h₁.trans g₁, h₂.trans g₂, h₃.trans g₃, h₄.trans g₄⟩

theorem store?_foldl_evict_sublist {s' : Store} {l : List NodeId}
    (hh : ∀ x n, d.node? x = some n → n.holders.Nodup)
    (hs : (l.foldl evict d).store? y = some s') : ∃ s, d.store? y = some s ∧
      s'.baseline = s.baseline ∧ s'.entries.Sublist s.entries := by
  induction l generalizing d with
  | nil => exact ⟨s', hs, rfl, .refl _⟩
  | cons id l ih =>
    obtain ⟨s₁, hs₁, hb₁, hsub₁⟩ := ih (fun x n hn ↦ hh x n (node?_of_evict hn)) hs
    cases hn : d.node? id with
    | none =>
      rw [evict_of_none hn] at hs₁
      exact ⟨s₁, hs₁, hb₁, hsub₁⟩
    | some n =>
      by_cases hy : y = id
      · rw [hy, store?_evict_self hn] at hs₁
        simp at hs₁
      · rw [store?_evict_of_ne hn (hh id n hn) hy] at hs₁
        split at hs₁
        · obtain ⟨s, hs, rfl⟩ := Option.map_eq_some_iff.mp hs₁
          exact ⟨s, hs, hb₁, hsub₁.trans List.eraseP_sublist⟩
        · exact ⟨s₁, hs₁, hb₁, hsub₁⟩

theorem store?_evict_eq_without (hne : y ≠ id)
    (hh : ∀ x n, d.node? x = some n → n.holders.Nodup)
    (hs : ∀ s, d.store? y = some s → s.nodes.Nodup ∧
      (id ∈ s.nodes → ∃ n, d.node? id = some n ∧ y ∈ n.holders)) :
    (d.evict id).store? y = (d.store? y).map (·.without [id]) := by
  cases hds : d.store? y with
  | none =>
    cases hn : d.node? id with
    | none => rw [evict_of_none hn, hds]; rfl
    | some n => rw [store?_evict_of_ne hn (hh id n hn) hne, hds]; simp
  | some s =>
    obtain ⟨hnodup, hheld⟩ := hs s hds
    by_cases hid : id ∈ s.nodes
    · obtain ⟨n, hn, hyn⟩ := hheld hid
      rw [store?_evict_of_ne hn (hh _ n hn) hne, if_pos hyn, hds, Option.map_some,
        Option.map_some, Store.without_singleton hnodup]
    · have hkeep := Store.purge_of_not_mem hid
      rw [Option.map_some, Store.without_singleton hnodup, hkeep]
      cases hn : d.node? id with
      | none => rw [evict_of_none hn, hds]
      | some n =>
        rw [store?_evict_of_ne hn (hh id n hn) hne, hds]
        simp [hkeep]

theorem store?_foldl_evict {l : List NodeId} (hy : y ∉ l)
    (hh : ∀ x n, d.node? x = some n → n.holders.Nodup)
    (hs : ∀ s, d.store? y = some s → s.nodes.Nodup ∧ ∀ e ∈ s.entries, e.node ∈ l →
      ∃ n, d.node? e.node = some n ∧ y ∈ n.holders) :
    (l.foldl evict d).store? y = (d.store? y).map (·.without l) := by
  induction l generalizing d with
  | nil =>
    have hid : ∀ s : Store, s.without [] = s := fun s ↦ by simp [Store.without]
    simp [hid]
  | cons id l ih =>
    obtain ⟨hne, hyl⟩ : y ≠ id ∧ y ∉ l := by simpa using hy
    have hstep := store?_evict_eq_without hne hh fun s hds ↦ ⟨(hs s hds).1, fun hid ↦ by
      obtain ⟨e, he, rfl⟩ := List.mem_map.mp hid
      exact (hs s hds).2 e he List.mem_cons_self⟩
    rw [List.foldl_cons, ih hyl]
    · rw [hstep, Option.map_map]
      congr 1
      funext s
      exact s.without_without id l
    · exact fun x n hn ↦ hh x n (node?_of_evict hn)
    · intro s hds
      rw [hstep] at hds
      obtain ⟨s₀, hds₀, rfl⟩ := Option.map_eq_some_iff.mp hds
      obtain ⟨hnodup, hmem⟩ := hs s₀ hds₀
      refine ⟨hnodup.sublist (Store.without_nodes_sublist _ _), fun e he hel ↦ ?_⟩
      obtain ⟨he, hid⟩ := Store.mem_without.mp he
      obtain ⟨n, hn, hyn⟩ := hmem e he (List.mem_cons_of_mem _ hel)
      refine ⟨n, ?_, hyn⟩
      rw [node?_evict, if_neg (by simpa using hid)]
      exact hn

end Document

end BuildScript
