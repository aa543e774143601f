import Mathlib.Data.List.Basic
import BuildScript.Name

namespace BuildScript.Name

variable {name : Name} {text segment : String}

/-- A text that a name can have between two dots: it is not empty and has no dot in it. -/
def IsSegment (text : String) : Prop := text ≠ "" ∧ '.' ∉ text.toList

theorem free_of_mem_splitOnP {α : Type} {p : α → Bool} {l piece : List α}
    (h : piece ∈ l.splitOnP p) : ∀ a ∈ piece, p a = false := by
  induction l generalizing piece with
  | nil =>
    obtain rfl : piece = [] := by simpa using h
    simp
  | cons x l ih =>
    rw [List.splitOnP_cons_eq_if_modifyHead] at h
    split at h
    · rcases List.mem_cons.mp h with rfl | h
      · simp
      · exact ih h
    · next hx =>
      obtain ⟨first, rest, hrest⟩ := List.exists_cons_of_ne_nil (List.splitOnP_ne_nil p l)
      rw [hrest] at h ih
      rcases List.mem_cons.mp h with rfl | h
      · exact List.forall_mem_cons.mpr ⟨by simpa using hx, ih List.mem_cons_self⟩
      · exact ih (List.mem_cons_of_mem _ h)

theorem isSegment_of_mem_parse (h : segment ∈ (parse text).parts) : IsSegment segment := by
  obtain ⟨piece, hpiece, rfl⟩ := List.mem_map.mp h
  obtain ⟨hpiece, hne⟩ := List.mem_filter.mp hpiece
  refine ⟨fun hempty ↦ ?_, fun hdot ↦ ?_⟩
  · have hnil := congrArg String.toList hempty
    rw [String.toList_ofList] at hnil
    simp [hnil] at hne
  · rw [String.toList_ofList] at hdot
    simpa using free_of_mem_splitOnP hpiece '.' hdot

theorem parse_full_of_isSegment (h : ∀ segment ∈ name.parts, IsSegment segment) :
    parse name.full = name := by
  obtain ⟨parts⟩ := name
  cases parts with
  | nil => rfl
  | cons first rest =>
    have hdots : ∀ piece ∈ (first :: rest).map String.toList, '.' ∉ piece :=
      List.forall_mem_map.mpr fun segment hs ↦ (h segment hs).2
    have hnonempty : ∀ piece ∈ (first :: rest).map String.toList, (!piece.isEmpty) = true :=
      List.forall_mem_map.mpr fun segment hs ↦ by
        simpa using (h segment hs).1
    have hsplit : (full ⟨first :: rest⟩).toList.splitOnP (· == '.') =
        (first :: rest).map String.toList := by
      rw [full, String.toList_intercalate]
      exact List.splitOn_intercalate '.' hdots (by simp)
    rw [parse, hsplit, List.filter_eq_self.mpr hnonempty, List.map_map]
    simp [Function.comp_def]

theorem parse_full_parse (text : String) : parse (parse text).full = parse text :=
  parse_full_of_isSegment fun _ ↦ isSegment_of_mem_parse

/-- Where dotted names and their texts determine each other. Segments come back from their joined
text if and only if none of them is empty or has a dot in it. A name that has been read from a text
always comes back, so that its full text tells it from all other names that have been read. -/
theorem dotted_roundtrip :
    (∀ parts : List String, (parse (full ⟨parts⟩)).parts = parts ↔
      ∀ segment ∈ parts, segment ≠ "" ∧ '.' ∉ segment.toList) ∧
    (∀ text, parse (parse text).full = parse text) ∧
    ∀ text text', parse text = parse text' ↔ (parse text).full = (parse text').full := by
  refine ⟨fun parts ↦ ⟨fun h segment hs ↦ ?_, fun h ↦ ?_⟩, parse_full_parse,
    fun text text' ↦ ⟨congrArg full, fun h ↦ ?_⟩⟩
  · rw [← h] at hs
    exact isSegment_of_mem_parse hs
  · have hname : parse (full ⟨parts⟩) = ⟨parts⟩ := parse_full_of_isSegment h
    exact congrArg Name.parts hname
  · rw [← parse_full_parse text, h, parse_full_parse text']

/-- Leading, trailing and repeated dots are lost, and so are empty segments. -/
example : (parse "..a.b..c.").full = "a.b.c" ∧ (parse (full ⟨["", "a.b", "c"]⟩)).parts =
    ["a", "b", "c"] := by
  decide +kernel

end BuildScript.Name
