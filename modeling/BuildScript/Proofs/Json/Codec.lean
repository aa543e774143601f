import BuildScript.Policy
import BuildScript.Proofs.Json.Roundtrip
import BuildScript.Proofs.Number.Nearest

namespace BuildScript

namespace Json

variable {α β : Type} {tag : String} {content : Json} {fields : List (String × Json)}

theorem isStripped_record : (record fields).IsStripped ↔ ∀ field ∈ fields, field.2.IsStripped := by
  rw [record, IsStripped, areFieldsStripped_iff, List.forall_mem_map]

theorem isStripped_array_map {f : α → Json} {l : List α} (h : ∀ a ∈ l, (f a).IsStripped) :
    (array (l.map f)).IsStripped := by
  simpa [IsStripped, areStripped_iff] using h

theorem isStripped_tagged : (tagged tag content).IsStripped ↔ content.IsStripped := by
  simp [tagged, isStripped_record, text, IsStripped]

/-- A value with its tag in front is taken apart again, however it is read. -/
theorem tagged?_tagged (reading : Reading) (tags : List String) (tag : String) (content : Json) :
    (tagged tag content).tagged? reading tags = some ⟨tag, content, reading⟩ := by
  simp [tagged, record, tagged?, fieldTag?, text]

theorem mapM_map_eq_some {f : α → β} {g : β → Option α} {l : List α}
    (h : ∀ a ∈ l, g (f a) = some a) : (l.map f).mapM g = some l := by
  induction l with
  | nil => rfl
  | cons a l ih =>
    have hhead := h a List.mem_cons_self
    have htail := ih fun b hb ↦ h b (List.mem_cons_of_mem _ hb)
    simp [hhead, htail]

theorem texts?_texts (l : List String) : (texts l).texts? = some l :=
  mapM_map_eq_some fun _ _ ↦ rfl

end Json

namespace TemplatePart

theorem isStripped_toJson (p : TemplatePart) : p.toJson.IsStripped := by
  cases p <;> exact Json.isStripped_tagged.mpr trivial

theorem ofJson?_toJson (reading : Json.Reading) (p : TemplatePart) :
    ofJson? reading p.toJson = some p := by
  cases p <;> simp [toJson, ofJson?, Json.tagged?_tagged, Json.text, Json.text?]

end TemplatePart

namespace Value

def IsFinite : Value → Prop
  | decimal x => x.isFinite
  | _ => True

instance (v : Value) : Decidable v.IsFinite := by
  cases v <;> unfold IsFinite <;> infer_instance

theorem isStripped_decimalToJson (x : Binary64) : (decimalToJson x).IsStripped := by
  unfold decimalToJson Numeral.ofBinary64?
  split
  · next heq =>
    split at heq
    · cases heq
      exact Binary64.strip_shorten x _ _
    · cases heq
  · trivial

theorem isStripped_toJson (v : Value) : v.toJson.IsStripped := by
  cases v with
  | decimal x => exact Json.isStripped_tagged.mpr (isStripped_decimalToJson x)
  | template parts =>
    exact Json.isStripped_tagged.mpr
      (Json.isStripped_array_map fun p _ ↦ TemplatePart.isStripped_toJson p)
  | string | integer | boolean | reference => exact Json.isStripped_tagged.mpr trivial

variable {read : Numeral → Option Binary64}

theorem binary64?_decimalToJson (hread : Numeral.RoundsToNearest read) {x : Binary64}
    (h : x.isFinite) : (decimalToJson x).binary64? read = some x := by
  simp only [decimalToJson, Numeral.ofBinary64?, h, if_true, Json.binary64?]
  exact hread.read_shortest h

theorem int64?_number (n : Int64) : int64? (.number (.integer n.toInt)) = some n := by
  have hrange := And.intro (Int64.minValue_le_toInt n) (Int64.toInt_le n)
  simp only [int64?, Json.integer?, Option.bind_eq_bind, Option.bind_some, if_pos hrange,
    Int64.ofInt_toInt]

theorem ofJsonWith?_toJson (hread : Numeral.RoundsToNearest read) {v : Value} (h : v.IsFinite) :
    ofJsonWith? read v.toJson = some v := by
  cases v with
  | string s => simp [toJson, ofJsonWith?, Json.tagged?_tagged, Json.text, Json.text?]
  | integer n => simp [toJson, ofJsonWith?, Json.tagged?_tagged, int64?_number]
  | decimal x => simp [toJson, ofJsonWith?, Json.tagged?_tagged, binary64?_decimalToJson hread h]
  | boolean b => simp [toJson, ofJsonWith?, Json.tagged?_tagged, Json.bool?]
  | reference name => simp [toJson, ofJsonWith?, Json.tagged?_tagged, Json.text, Json.text?]
  | template parts =>
    have hparts := Json.mapM_map_eq_some (l := parts) fun p _ ↦
      TemplatePart.ofJson?_toJson .inPlace p
    simp [toJson, ofJsonWith?, Json.tagged?_tagged, Json.items?, hparts]

theorem ofTextWith?_toText (hread : Numeral.RoundsToNearest read) {v : Value} (h : v.IsFinite) :
    ofTextWith? read v.toText = some v := by
  rw [ofTextWith?, toText, Json.parse?_render (isStripped_toJson v)]
  exact ofJsonWith?_toJson hread h

end Value

namespace Dictionary

variable {α : Type} {f : α → Json} {g : Json → Option α}

theorem put_of_notMem {key : String} {l : List (String × α)} (a : α) (h : key ∉ l.map Prod.fst) :
    put key a l = l ++ [(key, a)] := by
  induction l with
  | nil => rfl
  | cons e l ih =>
    simp only [List.map_cons, List.mem_cons, not_or] at h
    simp [put, Ne.symm h.1, ih h.2]

theorem entries_foldl_insert {l : List (String × α)} {d : Dictionary α}
    (h : ((d.entries ++ l).map Prod.fst).Nodup) :
    (l.foldl (fun d e ↦ d.insert e.1 e.2) d).entries = d.entries ++ l := by
  induction l generalizing d with
  | nil => simp
  | cons e l ih =>
    have hnew : e.1 ∉ d.entries.map Prod.fst := by
      rw [List.map_append, List.map_cons] at h
      exact fun hmem ↦ List.disjoint_of_nodup_append h hmem List.mem_cons_self
    have hentries : (d.insert e.1 e.2).entries = d.entries ++ [e] := put_of_notMem e.2 hnew
    rw [List.foldl_cons, ih, hentries, List.append_assoc, List.singleton_append]
    rwa [hentries, List.append_assoc, List.singleton_append]

theorem ofList_entries (d : Dictionary α) : ofList d.entries = d := by
  have hentries : (ofList d.entries).entries = d.entries := entries_foldl_insert d.nodup
  cases d
  cases h : ofList _
  simp_all

theorem isStripped_toJson (h : ∀ a, (f a).IsStripped) (d : Dictionary α) :
    (d.toJson f).IsStripped := by
  refine Json.isStripped_record.mpr fun field hfield ↦ ?_
  obtain ⟨e, -, rfl⟩ := List.mem_map.mp hfield
  exact h e.2

theorem ofJson?_toJson (h : ∀ a, g (f a) = some a) (d : Dictionary α) :
    ofJson? g (d.toJson f) = some d := by
  have hfields : d.toJson f = .object (d.entries.map fun e ↦ (some e.1, f e.2)) := by
    simp [toJson, Json.record, Function.comp_def]
  have hentries : ((d.entries.map fun e ↦ (some e.1, f e.2)).mapM fun field ↦ do
      some ((← field.1 : String), ← g field.2)) = some d.entries :=
    Json.mapM_map_eq_some fun e _ ↦ by simp [h]
  have hread : ofJson? g (d.toJson f) = (some d.entries).map ofList := by
    rw [hfields, ← hentries]
    exact Option.map_eq_bind.symm
  rw [hread, Option.map_some, ofList_entries]

end Dictionary

namespace PolicyTable

theorem isStripped_toJson (t : PolicyTable) : t.toJson.IsStripped := by
  have hgroups (groups : List (List String)) : (Json.array (groups.map Json.texts)).IsStripped :=
    Json.isStripped_array_map fun _ _ ↦ Json.isStripped_array_map fun _ _ ↦ trivial
  have hkinds (kinds : Dictionary BlockKind) : (kinds.toJson Json.text).IsStripped :=
    Dictionary.isStripped_toJson (f := Json.text) (fun _ ↦ trivial) kinds
  refine Json.isStripped_record.mpr fun field hfield ↦ ?_
  rcases List.mem_pair.mp hfield with rfl | rfl
  · exact t.canonicalOrder.isStripped_toJson hgroups
  · exact t.blockKinds.isStripped_toJson hkinds

theorem ofJson?_toJson (t : PolicyTable) : ofJson? t.toJson = some t := by
  have horder : orderOfJson? (orderToJson t.canonicalOrder) = some t.canonicalOrder :=
    Dictionary.ofJson?_toJson (fun _ ↦ Json.mapM_map_eq_some fun l _ ↦ Json.texts?_texts l) _
  have hkinds : kindsOfJson? (kindsToJson t.blockKinds) = some t.blockKinds :=
    Dictionary.ofJson?_toJson (f := Dictionary.toJson Json.text)
      (Dictionary.ofJson?_toJson fun _ ↦ rfl) _
  simp [toJson, Json.record, ofJson?, field?, horder, hkinds]

theorem ofText?_toText (t : PolicyTable) : ofText? t.toText = some t := by
  rw [ofText?, toText, Json.parse?_render (isStripped_toJson t)]
  exact ofJson?_toJson t

end PolicyTable

/-- A value whose decimals are finite is read back from its text by a reader that rounds to the
nearest number, and so is every table. A reader that rounds twice may come to a neighbour. -/
theorem written_reads_back :
    (∀ read : Numeral → Option Binary64, Numeral.RoundsToNearest read →
      ∀ v : Value, v.IsFinite → Value.ofTextWith? read v.toText = some v) ∧
      ∀ t : PolicyTable, PolicyTable.ofText? t.toText = some t :=
  ⟨fun _ hread _ ↦ Value.ofTextWith?_toText hread, PolicyTable.ofText?_toText⟩

/-- One tenth, of which the number holds only an approximation; an empty group, an empty kind, and
names that have to be escaped. -/
theorem written_reads_back_tenth :
    let tenth : Value := .decimal ⟨0x3FB999999999999A⟩
    let table :=
      (PolicyTable.withOrder {} "android" [["namespace"], []]).withBlockKind "" "\x00" "\""
    tenth.IsFinite ∧ Value.ofText? tenth.toText = some tenth ∧
      PolicyTable.ofText? table.toText = some table :=
  ⟨by decide, written_reads_back.1 _ Numeral.roundsToNearest_toBinary64? _ (by decide),
    written_reads_back.2 _⟩

end BuildScript
