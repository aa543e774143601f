import BuildScript.Proofs.Placement.Increasing

namespace BuildScript.Placement

variable {value : Nat → Nat} {piles piles' : Piles} {count index last : Nat}
  {values picks path before after : List Nat} {start : Option Nat}

namespace Piles

theorem Walk.mono (h : ∀ (i : Nat) next, piles.links[i]? = some next → piles'.links[i]? = some next)
    (hw : piles.Walk start path) : piles'.Walk start path := by
  induction hw with
  | done => exact .done
  | step hlink _ ih => exact .step (h _ _ hlink) ih

theorem exists_parts (h : piles.tails.toList.Pairwise fun s t ↦ value s < value t) (index : Nat) :
    ∃ before after, piles.Parts value index before after := by
  let isShort (t : Nat) : Bool := value t < value index
  have hshort : ∀ t ∈ piles.tails.toList.takeWhile isShort, value t < value index := fun t ht ↦ by
    simpa [isShort] using List.all_eq_true.mp List.all_takeWhile t ht
  have hlong : ∀ t ∈ piles.tails.toList.dropWhile isShort, value index ≤ value t := by
    have hdrop := h.sublist (List.dropWhile_sublist isShort)
    cases hcases : piles.tails.toList.dropWhile isShort with
    | nil => simp
    | cons first rest =>
      have hfirst : value index ≤ value first := by
        have hnot := List.head?_dropWhile_not isShort piles.tails.toList
        simpa [hcases, isShort] using hnot
      rw [hcases] at hdrop
      intro t ht
      rcases List.mem_cons.mp ht with rfl | ht
      · exact hfirst
      · exact Nat.le_trans hfirst (Nat.le_of_lt ((List.pairwise_cons.mp hdrop).1 t ht))
  exact ⟨_, _, List.takeWhile_append_dropWhile.symm, hshort, hlong⟩

theorem getElem?_put (before after : List Nat) (index k : Nat) :
    (before ++ index :: after.tail)[k]? =
      if k = before.length then some index else (before ++ after)[k]? := by
  induction before generalizing k with
  | nil =>
    cases k with
    | zero => rfl
    | succ k => simp
  | cons t before ih =>
    cases k with
    | zero => simp
    | succ k => simpa using ih k

/-- The piles after the values at the first `count` indices: from each tail the links lead along a
sequence of growing values, and no other such sequence of that length has a smaller end. -/
structure Dealt (value : Nat → Nat) (piles : Piles) (count : Nat) : Prop where
  linked : piles.links.size = count
  bound : piles.tails.toList.length ≤ count
  rising : piles.tails.toList.Pairwise fun s t ↦ value s < value t
  walks : ∀ (k t : Nat), piles.tails.toList[k]? = some t → t < count ∧ ∃ path,
    piles.Walk (some t) (t :: path) ∧ path.length = k ∧
      (t :: path).IsChain fun i j ↦ j < i ∧ value j < value i
  best : ∀ (picks : List Nat) (last : Nat), (picks ++ [last]).Sublist (List.range count) →
    ((picks ++ [last]).Pairwise fun i j ↦ value i < value j) →
    ∃ t, piles.tails.toList[picks.length]? = some t ∧ value t ≤ value last

theorem dealt_empty (value : Nat → Nat) : Dealt value {} 0 where
  linked := rfl
  bound := Nat.le_refl 0
  rising := .nil
  walks k t h := by simp at h
  best picks last hp _ := by simp at hp

namespace Dealt

theorem rising_put (h : Dealt value piles count) (hp : piles.Parts value count before after) :
    (before ++ count :: after.tail).Pairwise fun s t ↦ value s < value t := by
  have hrising := h.rising
  rw [hp.tails, List.pairwise_append] at hrising
  obtain ⟨hbefore, hafter, hacross⟩ := hrising
  have htail : ∀ t ∈ after.tail, value count < value t := by
    cases after with
    | nil => simp
    | cons first rest =>
      intro t ht
      exact Nat.lt_of_le_of_lt (hp.long first List.mem_cons_self)
        ((List.pairwise_cons.mp hafter).1 t ht)
  refine List.pairwise_append.mpr ⟨hbefore, List.pairwise_cons.mpr ⟨htail,
    hafter.sublist (List.tail_sublist after)⟩, fun s hs t ht ↦ ?_⟩
  rcases List.mem_cons.mp ht with rfl | ht
  · exact hp.short s hs
  · exact hacross s hs t (List.mem_of_mem_tail ht)

theorem walk_put (h : Dealt value piles count) (hp : piles.Parts value count before after) :
    ∃ path, (piles.deal value count).Walk (some count) (count :: path) ∧
      path.length = before.length ∧
      (count :: path).IsChain fun i j ↦ j < i ∧ value j < value i := by
  have hlink : (piles.deal value count).links[count]? = some before.getLast? := by
    rw [hp.deal.2, Array.getElem?_push, if_pos h.linked.symm]
  rcases List.eq_nil_or_concat' before with rfl | ⟨front, t, rfl⟩
  · exact ⟨[], .step hlink .done, rfl, .singleton _⟩
  · have ht : piles.tails.toList[front.length]? = some t := by
      rw [hp.tails]
      simp
    obtain ⟨hlt, path, hwalk, hlength, hchain⟩ := h.walks _ _ ht
    rw [List.getLast?_append, List.getLast?_singleton, Option.some_or] at hlink
    exact ⟨t :: path, .step hlink (hwalk.mono fun _ _ ↦ hp.links_kept), by simp [hlength],
      .cons_cons ⟨hlt, hp.short t (by simp)⟩ hchain⟩

/-- A sequence that ends with the value has at most as many others before as there are tails that
fall short of the value. -/
theorem length_le_of_short (h : Dealt value piles count) (hp : piles.Parts value count before after)
    (hpicks : picks.Sublist (List.range count)) (hrise : picks.Pairwise fun i j ↦ value i < value j)
    (hshort : ∀ i ∈ picks, value i < value count) : picks.length ≤ before.length := by
  rcases List.eq_nil_or_concat' picks with rfl | ⟨front, last, rfl⟩
  · exact Nat.zero_le _
  · obtain ⟨t, ht, hle⟩ := h.best front last hpicks hrise
    rw [hp.tails] at ht
    rw [List.length_append, List.length_singleton]
    by_contra hlong
    rw [List.getElem?_append_right (by omega)] at ht
    have hge := hp.long t (List.mem_of_getElem? ht)
    have hlt := hshort last (by simp)
    omega

theorem deal (h : Dealt value piles count) : Dealt value (piles.deal value count) (count + 1) := by
  obtain ⟨before, after, hp⟩ := exists_parts h.rising count
  obtain ⟨htails, hlinks⟩ := hp.deal
  have hget : ∀ k : Nat, (piles.deal value count).tails.toList[k]? =
      if k = before.length then some count else piles.tails.toList[k]? := fun k ↦ by
    rw [htails, getElem?_put, hp.tails]
  refine ⟨?_, ?_, ?_, fun k t hk ↦ ?_, fun picks last hpicks hrise ↦ ?_⟩
  · rw [hlinks, Array.size_push, h.linked]
  · have hbound := h.bound
    rw [hp.tails, List.length_append] at hbound
    rw [htails, List.length_append, List.length_cons, List.length_tail]
    omega
  · rw [htails]
    exact h.rising_put hp
  · rw [hget] at hk
    split at hk
    · next heq =>
      obtain rfl : count = t := Option.some.inj hk
      obtain ⟨path, hwalk, hlength, hchain⟩ := h.walk_put hp
      exact ⟨Nat.lt_succ_self _, path, hwalk, hlength.trans heq.symm, hchain⟩
    · obtain ⟨hlt, path, hwalk, hlength, hchain⟩ := h.walks k t hk
      exact ⟨Nat.lt_succ_of_lt hlt, path, hwalk.mono fun _ _ ↦ hp.links_kept, hlength, hchain⟩
  · -- Either the sequence ends with the new value, or it was there before.
    rw [List.range_succ] at hpicks
    obtain ⟨front, back, heq, hfront, hback⟩ := List.sublist_append_iff.mp hpicks
    rw [hget]
    rcases List.sublist_singleton.mp hback with rfl | rfl
    · rw [List.append_nil] at heq
      obtain ⟨t, ht, hle⟩ := h.best picks last (heq ▸ hfront) hrise
      split
      · next hlength =>
        rw [hlength, hp.tails, List.getElem?_append_right (Nat.le_refl _)] at ht
        exact ⟨count, rfl, Nat.le_trans (hp.long t (List.mem_of_getElem? ht)) hle⟩
      · exact ⟨t, ht, hle⟩
    · obtain ⟨rfl, hlast⟩ := List.append_inj' heq rfl
      obtain rfl : last = count := List.singleton_inj.mp hlast
      obtain ⟨hrise, -, hshort⟩ := List.pairwise_append.mp hrise
      have hle := h.length_le_of_short hp hfront hrise fun i hi ↦ hshort i hi last (by simp)
      split
      · exact ⟨last, rfl, Nat.le_refl _⟩
      · have hlt : picks.length < before.length := by omega
        rw [hp.tails, List.getElem?_append_left hlt, List.getElem?_eq_getElem hlt]
        exact ⟨_, rfl, Nat.le_of_lt (hp.short _ (List.getElem_mem hlt))⟩

theorem walk_back (h : Dealt value piles count) : ∃ path, piles.Walk piles.tails.back? path ∧
    path.length = piles.tails.toList.length ∧ (∀ i ∈ path, i < count) ∧
      path.Pairwise fun i j ↦ j < i ∧ value j < value i := by
  have hback : piles.tails.back? = piles.tails.toList.getLast? := by
    rw [Array.getLast?_toList]
  rw [hback]
  rcases List.eq_nil_or_concat' piles.tails.toList with hnil | ⟨front, t, hconcat⟩
  · exact ⟨[], by rw [hnil]; exact .done, by rw [hnil], by simp, .nil⟩
  · have ht : piles.tails.toList[front.length]? = some t := by simp [hconcat]
    obtain ⟨hlt, path, hwalk, hlength, hchain⟩ := h.walks _ _ ht
    have hpairwise : (t :: path).Pairwise fun i j ↦ j < i ∧ value j < value i := by
      have : Trans (fun i j : Nat ↦ j < i ∧ value j < value i)
          (fun i j ↦ j < i ∧ value j < value i) fun i j ↦ j < i ∧ value j < value i :=
        ⟨fun h₁ h₂ ↦ ⟨Nat.lt_trans h₂.1 h₁.1, Nat.lt_trans h₂.2 h₁.2⟩⟩
      exact hchain.pairwise
    refine ⟨t :: path, by simpa [hconcat] using hwalk, by simp [hconcat, hlength], ?_, hpairwise⟩
    intro i hi
    rcases List.mem_cons.mp hi with rfl | hi
    · exact hlt
    · exact Nat.lt_trans ((List.pairwise_cons.mp hpairwise).1 i hi).1 hlt

theorem length_le (h : Dealt value piles count) (hpicks : picks.Sublist (List.range count))
    (hrise : picks.Pairwise fun i j ↦ value i < value j) :
    picks.length ≤ piles.tails.toList.length := by
  rcases List.eq_nil_or_concat' picks with rfl | ⟨front, last, rfl⟩
  · exact Nat.zero_le _
  · obtain ⟨t, ht, -⟩ := h.best front last hpicks hrise
    have hlt := (List.getElem?_eq_some_iff.mp ht).1
    rw [List.length_append, List.length_singleton]
    omega

end Dealt

end Piles

def dealt (values : List Nat) (count : Nat) : Piles :=
  (List.range count).foldl (Piles.deal (values.getD · 0)) {}

theorem dealt_spec (values : List Nat) (count : Nat) :
    Piles.Dealt (values.getD · 0) (dealt values count) count := by
  induction count with
  | zero => exact Piles.dealt_empty _
  | succ count ih =>
    rw [dealt, List.range_succ, List.foldl_append]
    exact ih.deal

/-- The walk back from the last tail ends before the fuel does, and gives the indices. -/
theorem exists_walk (values : List Nat) : ∃ path,
    (dealt values values.length).Walk (dealt values values.length).tails.back? path ∧
      longestIncreasing values = path.reverse ∧
      path.length = (dealt values values.length).tails.toList.length ∧
      (∀ i ∈ path, i < values.length) ∧
      path.Pairwise fun i j ↦ j < i ∧ values.getD j 0 < values.getD i 0 := by
  have hdealt := dealt_spec values values.length
  obtain ⟨path, hwalk, hlength, hrange, hpairwise⟩ := hdealt.walk_back
  have hfuel : path.length ≤ values.length := hlength ▸ hdealt.bound
  exact ⟨path, hwalk, congrArg List.reverse (hwalk.trace_eq hfuel), hlength, hrange, hpairwise⟩

structure PicksLongest (values indices : List Nat) : Prop where
  increasing : indices.Pairwise (· < ·)
  inRange : ∀ i ∈ indices, i < values.length
  rising : (indices.map (values.getD · 0)).Pairwise (· < ·)
  longest : ∀ sub : List Nat, sub.Sublist values → sub.Pairwise (· < ·) →
    sub.length ≤ indices.length

theorem map_getD_range (values : List Nat) :
    (List.range values.length).map (values.getD · 0) = values := by
  refine List.ext_getElem (by simp) fun i _ hi ↦ ?_
  simp [hi]

theorem picksLongest (values : List Nat) : PicksLongest values (longestIncreasing values) := by
  obtain ⟨path, -, heq, hlength, hrange, hpairwise⟩ := exists_walk values
  rw [heq]
  refine ⟨?_, ?_, ?_, fun sub hsub hrise ↦ ?_⟩
  · exact List.pairwise_reverse.mpr (hpairwise.imp And.left)
  · simpa using hrange
  · rw [List.map_reverse, List.pairwise_reverse, List.pairwise_map]
    exact hpairwise.imp And.right
  · rw [← map_getD_range values] at hsub
    obtain ⟨picks, hpicks, rfl⟩ := List.sublist_map_iff.mp hsub
    rw [List.length_map, List.length_reverse, hlength]
    exact (dealt_spec values values.length).length_le hpicks (List.pairwise_map.mp hrise)

/-- Of any sequence of numbers a longest strictly increasing part is picked. At each of its values
the search has the tails that fall short of it in front of the others and finds where those begin,
and the links come to an end. -/
theorem longestIncreasing_is_longest (values : List Nat) :
    PicksLongest values (longestIncreasing values) ∧
    (∀ index < values.length, ∃ before after,
      (dealt values index).Parts (values.getD · 0) index before after ∧
        (dealt values index).search (values.getD · 0) index = before.length) ∧
    (dealt values values.length).Walk (dealt values values.length).tails.back?
      (longestIncreasing values).reverse := by
  refine ⟨picksLongest values, fun index _ ↦ ?_, ?_⟩
  · obtain ⟨before, after, hparts⟩ := Piles.exists_parts (dealt_spec values index).rising index
    exact ⟨before, after, hparts, hparts.search_eq⟩
  · obtain ⟨path, hwalk, heq, -⟩ := exists_walk values
    rwa [heq, List.reverse_reverse]

/-- A tail that is replaced by a smaller one stays in the sequences that lead over it. -/
example : longestIncreasing [3, 1, 2, 0] = [1, 2] := by cbv

end BuildScript.Placement
