import Mathlib.Data.List.Basic
import BuildScript.Placement.Increasing

namespace BuildScript.Placement

variable {value : Nat → Nat} {piles : Piles} {index : Nat} {tails path before after : List Nat}
  {start : Option Nat}

theorem bisect_eq {p : Nat → Bool} {low high m : Nat} (hl : low ≤ m) (hh : m ≤ high)
    (hp : ∀ k, low ≤ k → k < m → p k = true) (hn : ∀ k, m ≤ k → k < high → p k = false) :
    bisect p low high = m := by
  fun_induction bisect p low high with
  | case1 low high hlt middle hm ih =>
    have hmiddle : middle < m := by
      by_contra h
      have hfalse := hn middle (by omega) (by omega)
      simp [hm] at hfalse
    exact ih (by omega) hh (fun k hk ↦ hp k (by omega)) hn
  | case2 low high hlt middle hm ih =>
    have hmiddle : m ≤ middle := by
      by_contra h
      exact hm (hp middle (by omega) (by omega))
    exact ih hl hmiddle hp fun k hk hlt' ↦ hn k hk (by omega)
  | case3 low high hlt => omega

namespace Piles

inductive Walk (piles : Piles) : Option Nat → List Nat → Prop
  | done : piles.Walk none []
  | step {index : Nat} {next : Option Nat} {path : List Nat} :
      piles.links[index]? = some next → piles.Walk next path →
        piles.Walk (some index) (index :: path)

theorem Walk.trace_eq (h : piles.Walk start path) {fuel : Nat} (hf : path.length ≤ fuel) :
    piles.trace fuel start = path := by
  induction h generalizing fuel with
  | done => cases fuel <;> rfl
  | @step index next path hlink _ ih =>
    obtain ⟨fuel, rfl⟩ : ∃ k, fuel = k + 1 := ⟨fuel - 1, by rw [List.length_cons] at hf; omega⟩
    rw [trace, hlink, Option.join_some, ih (by simpa using hf)]

def search (value : Nat → Nat) (piles : Piles) (index : Nat) : Nat :=
  bisect (fun k ↦ value (piles.tails.getD k 0) < value index) 0 piles.tails.size

/-- The tails that fall short of the value at an index stand in front of the others. -/
structure Parts (value : Nat → Nat) (piles : Piles) (index : Nat) (before after : List Nat) :
    Prop where
  tails : piles.tails.toList = before ++ after
  short : ∀ t ∈ before, value t < value index
  long : ∀ t ∈ after, value index ≤ value t

theorem Parts.search_eq (h : piles.Parts value index before after) :
    piles.search value index = before.length := by
  have hsize : piles.tails.size = before.length + after.length := by
    rw [← Array.length_toList, h.tails, List.length_append]
  have hget : ∀ k, piles.tails.getD k 0 = (before ++ after).getD k 0 := fun k ↦ by
    rw [← h.tails, Array.getD_eq_getD_getElem?, List.getD_eq_getElem?_getD, Array.getElem?_toList]
  refine bisect_eq (Nat.zero_le _) (by omega) (fun k _ hk ↦ ?_) fun k hk hlt ↦ ?_
  · rw [hget]
    simpa [List.getElem?_append_left hk, hk] using h.short before[k] (List.getElem_mem hk)
  · have hlt' : k - before.length < after.length := by omega
    rw [hget]
    simpa [List.getElem?_append_right hk, hlt'] using h.long _ (List.getElem_mem hlt')

/-- The value takes the place of the first tail that does not fall short of it, and is linked to
the tail before. -/
theorem Parts.deal (h : piles.Parts value index before after) :
    (piles.deal value index).tails.toList = before ++ index :: after.tail ∧
      (piles.deal value index).links = piles.links.push before.getLast? := by
  have hfound : bisect (fun k ↦ value (piles.tails.getD k 0) < value index) 0 piles.tails.size =
      before.length := h.search_eq
  have htails : piles.tails = (before ++ after).toArray := by rw [← h.tails, Array.toArray_toList]
  simp only [Piles.deal, hfound]
  rw [htails]
  constructor
  · cases after with
    | nil => simp
    | cons t after => simp
  · rcases List.eq_nil_or_concat' before with rfl | ⟨front, t, rfl⟩
    · rfl
    · simp

theorem Parts.links_kept (h : piles.Parts value index before after) {i : Nat} {next : Option Nat}
    (hi : piles.links[i]? = some next) : (piles.deal value index).links[i]? = some next := by
  obtain ⟨hlt, -⟩ := Array.getElem?_eq_some_iff.mp hi
  rw [h.deal.2, Array.getElem?_push, if_neg (Nat.ne_of_lt hlt), hi]

/-- The indices below `index` are dealt, and the links lead from each tail to the tail before it. -/
structure Chained (piles : Piles) (index : Nat) (tails : List Nat) : Prop where
  ends : piles.tails = tails.toArray
  dealt : piles.links.size = index
  linked : ∀ j t, tails[j]? = some t →
    piles.links[t]? = some (if j = 0 then none else tails[j - 1]?)

theorem Chained.put {back : List Nat} (value : Nat → Nat)
    (h : piles.Chained index (tails ++ back)) (hb : back.length ≤ 1)
    (hv : ∀ t ∈ tails, value t < value index)
    (hl : ∀ t ∈ back, value index ≤ value t) :
    (piles.deal value index).Chained (index + 1) (tails ++ [index]) := by
  have hparts : piles.Parts value index tails back := ⟨by rw [h.ends], hv, hl⟩
  obtain ⟨htails, hlinks⟩ := hparts.deal
  have hback : back.tail = [] := List.length_eq_zero_iff.mp (by rw [List.length_tail]; omega)
  rw [hback] at htails
  refine ⟨by rw [← htails, Array.toArray_toList], by simp [hlinks, h.dealt], fun j t hj ↦ ?_⟩
  by_cases hlt : j < tails.length
  · rw [List.getElem?_append_left hlt] at hj
    rw [List.getElem?_append_left (by omega : j - 1 < tails.length)]
    have hold := h.linked j t (by rw [List.getElem?_append_left hlt, hj])
    rw [List.getElem?_append_left (by omega : j - 1 < tails.length)] at hold
    exact hparts.links_kept hold
  · obtain rfl : j = tails.length := by
      have hj' := (List.getElem?_eq_some_iff.mp hj).1
      simp only [List.length_append, List.length_singleton] at hj'
      omega
    obtain rfl : index = t := by simpa using hj
    rw [hlinks, Array.getElem?_push, if_pos h.dealt.symm, List.getLast?_eq_getElem?]
    split
    · next hnil => simp [List.length_eq_zero_iff.mp hnil]
    · rw [List.getElem?_append_left (by omega)]

theorem Chained.push (h : piles.Chained index tails) (hv : ∀ t ∈ tails, value t < value index) :
    (piles.deal value index).Chained (index + 1) (tails ++ [index]) := by
  have h' : piles.Chained index (tails ++ []) := by simpa using h
  exact h'.put value (by simp) hv (by simp)

theorem Chained.run (value : Nat → Nat) (h : piles.Chained index tails) (count : Nat)
    (hv : ∀ t ∈ tails, ∀ i, index ≤ i → i < index + count → value t < value i)
    (hrun : ∀ i j, index ≤ i → i < j → j < index + count → value i < value j) :
    ((List.range' index count).foldl (deal value) piles).Chained (index + count)
      (tails ++ List.range' index count) := by
  induction count generalizing piles index tails with
  | zero => simpa using h
  | succ count ih =>
    have hstep := ih (h.push fun t ht ↦ hv t ht index (Nat.le_refl _) (by omega))
      (fun t ht i hi hlt ↦ ?_) fun i j hi hij hj ↦ hrun i j (by omega) hij (by omega)
    · rw [List.append_assoc, Nat.add_assoc, Nat.add_comm 1] at hstep
      exact hstep
    · rcases List.mem_append.mp ht with ht | ht
      · exact hv t ht i (by omega) (by omega)
      · rw [List.mem_singleton.mp ht]
        exact hrun index i (Nat.le_refl _) (by omega) (by omega)

theorem Chained.walk (h : piles.Chained index tails) {count : Nat} (hc : count ≤ tails.length) :
    piles.Walk (if count = 0 then none else tails[count - 1]?) (tails.take count).reverse := by
  induction count with
  | zero => exact .done
  | succ count ih =>
    have hget : tails[count]? = some tails[count] := List.getElem?_eq_getElem hc
    rw [if_neg (Nat.succ_ne_zero count), Nat.add_sub_cancel, hget,
      List.take_succ_eq_append_getElem hc, List.reverse_append]
    exact .step (h.linked count _ hget) (ih (Nat.le_of_lt hc))

theorem Chained.trace_back (h : piles.Chained index tails) {fuel : Nat}
    (hf : tails.length ≤ fuel) : (piles.trace fuel piles.tails.back?).reverse = tails := by
  have hback : piles.tails.back? = if tails.length = 0 then none else tails[tails.length - 1]? := by
    rw [h.ends, List.back?_toArray, List.getLast?_eq_getElem?]
    cases tails with
    | nil => rfl
    | cons t tails => rfl
  have hwalk := h.walk (Nat.le_refl _)
  rw [List.take_length] at hwalk
  rw [hback, hwalk.trace_eq (by rwa [List.length_reverse]), List.reverse_reverse]

end Piles

def forward (before after : Nat) : List Nat :=
  List.range before ++ (before + after + 1) :: List.range' before (after + 1)

section forward

variable {before after : Nat}

theorem length_forward : (forward before after).length = before + 1 + (1 + after) := by
  simp [forward]
  omega

theorem forward_of_lt {i : Nat} (h : i < before) : (forward before after).getD i 0 = i := by
  have h' : i < (List.range before).length := by simpa using h
  rw [forward, List.getD_eq_getElem?_getD, List.getElem?_append_left h']
  simp [h]

theorem forward_self : (forward before after).getD before 0 = before + after + 1 := by
  simp [forward]

theorem forward_of_le {k : Nat} (h : k ≤ after) :
    (forward before after).getD (before + 1 + k) 0 = before + k := by
  have h' : (List.range before).length ≤ before + 1 + k := by simp; omega
  rw [forward, List.getD_eq_getElem?_getD, List.getElem?_append_right h', List.length_range,
    show before + 1 + k - before = k + 1 by omega, List.getElem?_cons_succ,
    List.getElem?_range' (by omega)]
  simp

theorem chained_front (before after : Nat) :
    ((List.range' 0 before ++ [before]).foldl
      (Piles.deal fun i ↦ (forward before after).getD i 0) {}).Chained (before + 1)
        (List.range' 0 before ++ [before]) := by
  have hstart : ({} : Piles).Chained 0 [] := ⟨rfl, rfl, by simp⟩
  have hrun := hstart.run (fun i ↦ (forward before after).getD i 0) (before + 1) (by simp)
    fun i j _ hij hj ↦ by
      by_cases hj' : j < before
      · rwa [forward_of_lt (by omega), forward_of_lt hj']
      · obtain rfl : j = before := by omega
        rw [forward_of_lt hij, forward_self]
        omega
  have hfront : List.range' 0 (before + 1) = List.range' 0 before ++ [before] := by
    rw [List.range'_concat, Nat.zero_add, Nat.one_mul]
  rwa [List.nil_append, Nat.zero_add, hfront] at hrun

theorem chained_next (before after : Nat) :
    ((List.range' 0 before ++ [before] ++ [before + 1]).foldl
      (Piles.deal fun i ↦ (forward before after).getD i 0) {}).Chained (before + 2)
        (List.range' 0 before ++ [before + 1]) := by
  have hnext : (forward before after).getD (before + 1) 0 = before :=
    forward_of_le (k := 0) (Nat.zero_le _)
  rw [List.foldl_append, List.foldl_cons, List.foldl_nil]
  refine (chained_front before after).put (fun i ↦ (forward before after).getD i 0) (Nat.le_refl 1)
    (fun t ht ↦ ?_) fun t ht ↦ ?_
  · have ht' : t < before := by simpa using ht
    rwa [hnext, forward_of_lt ht']
  · obtain rfl : t = before := by simpa using ht
    rw [hnext, forward_self]
    omega

/-- From there on the values grow again. -/
theorem chained_forward (before after : Nat) :
    ((List.range' 0 before ++ [before] ++ [before + 1] ++ List.range' (before + 2) after).foldl
      (Piles.deal fun i ↦ (forward before after).getD i 0) {}).Chained (before + 2 + after)
        (List.range' 0 before ++ [before + 1] ++ List.range' (before + 2) after) := by
  rw [List.foldl_append]
  refine (chained_next before after).run (fun i ↦ (forward before after).getD i 0) after
    (fun t ht i hi hlt ↦ ?_) fun i j hi hij hj ↦ ?_
  · obtain ⟨k, rfl⟩ : ∃ k, i = before + 1 + k := ⟨i - (before + 1), by omega⟩
    rw [forward_of_le (show k ≤ after by omega)]
    rcases List.mem_append.mp ht with ht | ht
    · have ht' : t < before := by simpa using ht
      rw [forward_of_lt ht']
      omega
    · rw [List.mem_singleton.mp ht, forward_of_le (k := 0) (Nat.zero_le _)]
      omega
  · obtain ⟨k, rfl⟩ : ∃ k, i = before + 1 + k := ⟨i - (before + 1), by omega⟩
    obtain ⟨l, rfl⟩ : ∃ l, j = before + 1 + l := ⟨j - (before + 1), by omega⟩
    rw [forward_of_le (show k ≤ after by omega), forward_of_le (show l ≤ after by omega)]
    omega

/-- All values but the one brought forward stay. -/
theorem longestIncreasing_forward (before after : Nat) :
    longestIncreasing (forward before after) =
      List.range before ++ List.range' (before + 1) (after + 1) := by
  have hdeal : List.range (forward before after).length =
      List.range' 0 before ++ [before] ++ [before + 1] ++ List.range' (before + 2) after := by
    rw [length_forward, List.range_eq_range', ← List.range'_append_1, List.range'_concat,
      Nat.zero_add, Nat.one_mul, Nat.add_comm 1, List.range'_succ]
    simp
  have htails : List.range' 0 before ++ [before + 1] ++ List.range' (before + 2) after =
      List.range before ++ List.range' (before + 1) (after + 1) := by
    rw [List.range_eq_range', List.range'_succ, List.append_assoc, List.singleton_append]
  simp only [longestIncreasing]
  rw [hdeal, ← htails]
  refine (chained_forward before after).trace_back ?_
  simp [length_forward]
  omega

end forward

end BuildScript.Placement
