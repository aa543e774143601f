import BuildScript.Document.Edit
import BuildScript.Document.Snapshot
import BuildScript.Proofs.Json.Codec

namespace BuildScript

theorem Value.ofJson?_toJson {v : Value} (h : v.IsFinite) : ofJson? v.toJson = some v :=
  ofJsonWith?_toJson Numeral.roundsToNearest_toBinary64? h

theorem Value.eq_of_toJson_eq {v w : Value} (hv : v.IsFinite) (hw : w.IsFinite)
    (h : v.toJson = w.toJson) : v = w := by
  have hread := ofJson?_toJson hv
  rw [h, ofJson?_toJson hw] at hread
  exact (Option.some.inj hread).symm

theorem Value.eq_of_map_toJson_eq {l l' : List Value} (hl : ∀ v ∈ l, v.IsFinite)
    (hl' : ∀ v ∈ l', v.IsFinite) (h : l.map toJson = l'.map toJson) : l = l' := by
  have hread := Json.mapM_map_eq_some fun v hv ↦ ofJson?_toJson (hl v hv)
  rw [h, Json.mapM_map_eq_some fun v hv ↦ ofJson?_toJson (hl' v hv)] at hread
  exact (Option.some.inj hread).symm

theorem Value.eq_of_option_map_toJson_eq {o o' : Option Value} (ho : ∀ v ∈ o, v.IsFinite)
    (ho' : ∀ v ∈ o', v.IsFinite) (h : o.map toJson = o'.map toJson) : o = o' := by
  cases o <;> cases o' <;> simp only [Option.map_none, Option.map_some, reduceCtorEq] at h
  · rfl
  · rw [eq_of_toJson_eq (ho _ rfl) (ho' _ rfl) (Option.some.inj h)]

theorem Tag.label_injective : Function.Injective label := by
  intro tag tag' h
  cases tag <;> cases tag' <;> first | rfl | exact absurd h (by decide)

theorem Json.text_injective : Function.Injective text := fun _ _ h ↦
  Option.some.inj (string.inj h)

namespace Snapshot

variable {name : String} {content : Option Json} {items items' : List Json}
  {f : String × Json} {l l' : List (String × Option Json)}

def listContent (items : List Json) : Option Json :=
  if items.isEmpty then none else some (.array items)

theorem eq_of_listContent_eq (h : listContent items = listContent items') : items = items' := by
  cases items <;> cases items' <;> simp_all [listContent]

def present (l : List (String × Option Json)) : List (String × Json) :=
  l.flatMap fun e ↦ field e.1 e.2

theorem mem_present : f ∈ present l ↔ (f.1, some f.2) ∈ l := by
  simp only [present, field, List.mem_flatMap, List.mem_map, Option.mem_toList]
  constructor
  · rintro ⟨e, he, j, hj, rfl⟩
    rw [← hj]
    exact he
  · exact fun h ↦ ⟨_, h, f.2, rfl, rfl⟩

theorem eq_of_present_eq (hnames : l.map Prod.fst = l'.map Prod.fst)
    (hnodup : (l.map Prod.fst).Nodup) (h : present l = present l') : l = l' := by
  induction l generalizing l' with
  | nil => exact (List.map_eq_nil_iff.mp hnames.symm).symm
  | cons e l ih =>
    obtain ⟨key, content⟩ := e
    obtain ⟨⟨key', content'⟩, l', rfl, rfl, htail⟩ := List.map_eq_cons_iff.mp hnames.symm
    simp only [List.map_cons, List.nodup_cons] at hnodup
    have hfresh {k : List (String × Option Json)} {j : Json} (hk : k.map Prod.fst = l.map Prod.fst)
        (hmem : (key', j) ∈ present k) : False :=
      hnodup.1 (hk ▸ List.mem_map_of_mem (mem_present.mp hmem))
    match content, content' with
    | none, none => rw [ih htail.symm hnodup.2 h]
    | some j, some j' =>
      obtain ⟨hhead, hrest⟩ := List.cons.inj h
      rw [ih htail.symm hnodup.2 hrest, (Prod.mk.inj hhead).2]
    | some j, none =>
      have hrest : (key', j) :: present l = present l' := h
      exact (hfresh htail (hrest ▸ List.mem_cons_self)).elim
    | none, some j' =>
      have hrest : present l = (key', j') :: present l' := h
      exact (hfresh rfl (hrest ▸ List.mem_cons_self)).elim

def contents (s : Snapshot) : List (String × Option Json) :=
  [("name", some (.text s.name)), ("tag", some (.text s.tag.label)),
    ("block_kind", s.blockKind.map .text), ("value", s.value.map Value.toJson),
    ("items", listContent (s.items.map Value.toJson)), ("method", s.method.map .text),
    ("target", s.target.map .text), ("children", listContent (allToJson s.children))]

theorem toJson_eq (s : Snapshot) : s.toJson = .record (present s.contents) := by
  cases s
  simp [toJson, contents, present, field, listField, listContent]

theorem contents_eq_of_toJson_eq {s t : Snapshot} (h : s.toJson = t.toJson) :
    s.contents = t.contents := by
  rw [toJson_eq, toJson_eq] at h
  refine eq_of_present_eq rfl (by simp [contents])
    (List.map_injective_iff.mpr ?_ (Json.object.inj h))
  rintro ⟨key, j⟩ ⟨key', j'⟩ heq
  simpa using heq

theorem isStripped_of_listContent (h : ∀ j ∈ items, j.IsStripped) :
    ∀ j ∈ listContent items, j.IsStripped := by
  intro j hj
  simp only [listContent] at hj
  split at hj <;> cases hj
  exact Json.areStripped_iff.mpr h

mutual

theorem isStripped_toJson : ∀ s : Snapshot, s.toJson.IsStripped
  | ⟨name, tag, blockKind, value, items, method, target, children⟩ => by
    have htext (o : Option String) : ∀ j ∈ o.map Json.text, j.IsStripped := by
      simp [Json.text, Json.IsStripped]
    have hitems : ∀ j ∈ listContent (items.map Value.toJson), j.IsStripped :=
      isStripped_of_listContent (by simp [Value.isStripped_toJson])
    have hchildren := isStripped_of_listContent (isStripped_allToJson children)
    have hcontents : ∀ e ∈ contents ⟨name, tag, blockKind, value, items, method, target, children⟩,
        ∀ j ∈ e.2, j.IsStripped := by
      simp only [contents, List.forall_mem_cons, List.not_mem_nil]
      exact ⟨htext (some name), htext (some tag.label), htext blockKind,
        by simp [Value.isStripped_toJson], hitems, htext method, htext target, hchildren, by simp⟩
    rw [toJson_eq, Json.isStripped_record]
    exact fun f hf ↦ hcontents _ (mem_present.mp hf) _ rfl

theorem isStripped_allToJson : ∀ l : List Snapshot, ∀ j ∈ allToJson l, j.IsStripped
  | [] => by simp [allToJson]
  | s :: rest => by
    simp only [allToJson, List.forall_mem_cons]
    exact ⟨isStripped_toJson s, isStripped_allToJson rest⟩

end

mutual

def IsFinite : Snapshot → Prop
  | ⟨_, _, _, value, items, _, _, children⟩ =>
    (∀ v ∈ value, v.IsFinite) ∧ (∀ v ∈ items, v.IsFinite) ∧ AreFinite children

def AreFinite : List Snapshot → Prop
  | [] => True
  | s :: rest => s.IsFinite ∧ AreFinite rest

end

mutual

def decideIsFinite : (s : Snapshot) → Decidable s.IsFinite
  | ⟨_, _, _, value, items, _, _, children⟩ =>
    have := decideAreFinite children
    inferInstanceAs <| Decidable
      ((∀ v ∈ value, v.IsFinite) ∧ (∀ v ∈ items, v.IsFinite) ∧ AreFinite children)

def decideAreFinite : (l : List Snapshot) → Decidable (AreFinite l)
  | [] => .isTrue trivial
  | s :: rest =>
    have := decideIsFinite s
    have := decideAreFinite rest
    inferInstanceAs (Decidable (s.IsFinite ∧ AreFinite rest))

end

instance : DecidablePred IsFinite := decideIsFinite

mutual

theorem eq_of_toJson_eq : ∀ {s t : Snapshot}, s.IsFinite → t.IsFinite → s.toJson = t.toJson → s = t
  | ⟨name, tag, blockKind, value, items, method, target, children⟩,
    ⟨name', tag', blockKind', value', items', method', target', children'⟩, hs, ht, h => by
    have hcontents := contents_eq_of_toJson_eq h
    simp only [contents, List.cons.injEq, Prod.mk.injEq, true_and, and_true,
      Option.some.injEq] at hcontents
    obtain ⟨hname, htag, hkind, hvalue, hitems, hmethod, htarget, hchildren⟩ := hcontents
    obtain rfl := Json.text_injective hname
    obtain rfl := Tag.label_injective (Json.text_injective htag)
    obtain rfl := Option.map_injective Json.text_injective hkind
    obtain rfl := Value.eq_of_option_map_toJson_eq hs.1 ht.1 hvalue
    obtain rfl := Value.eq_of_map_toJson_eq hs.2.1 ht.2.1 (eq_of_listContent_eq hitems)
    obtain rfl := Option.map_injective Json.text_injective hmethod
    obtain rfl := Option.map_injective Json.text_injective htarget
    rw [eq_of_allToJson_eq hs.2.2 ht.2.2 (eq_of_listContent_eq hchildren)]

theorem eq_of_allToJson_eq : ∀ {l l' : List Snapshot}, AreFinite l → AreFinite l' →
    allToJson l = allToJson l' → l = l'
  | [], [], _, _, _ => rfl
  | [], _ :: _, _, _, h => nomatch h
  | _ :: _, [], _, _, h => nomatch h
  | s :: l, t :: l', hl, hl', h => by
    have heq := List.cons.inj h
    rw [eq_of_toJson_eq hl.1 hl'.1 heq.1, eq_of_allToJson_eq hl.2 hl'.2 heq.2]

end

theorem eq_of_toText_eq {s t : Snapshot} (hs : s.IsFinite) (ht : t.IsFinite)
    (h : s.toText = t.toText) : s = t :=
  eq_of_toJson_eq hs ht (Json.eq_of_render_eq (isStripped_toJson s) (isStripped_toJson t) h)

end Snapshot

theorem toList_loop (bytes : ByteArray) (i : Nat) (acc : List UInt8) :
    ByteArray.toList.loop bytes i acc = acc.reverse ++ bytes.data.toList.drop i := by
  fun_induction ByteArray.toList.loop bytes i acc with
  | case1 i acc hlt ih =>
    have hget : bytes.get! i = bytes.data.toList[i] := getElem!_pos bytes.data i hlt
    rw [ih, List.drop_eq_getElem_cons hlt, hget]
    simp
  | case2 i acc hge =>
    rw [List.drop_eq_nil_of_le (Nat.le_of_not_lt hge), List.append_nil]

theorem eq_of_bytes_eq {text text' : String}
    (h : text.toUTF8.toList = text'.toUTF8.toList) : text = text' := by
  have hdata (b : ByteArray) : b.toList = b.data.toList := toList_loop b 0 []
  rw [hdata, hdata, Array.toList_inj] at h
  exact String.toByteArray_inj.mp (ByteArray.ext h)

/-- Equal texts are texts of equal trees, and documents that read differently are not digested from
the same bytes. -/
theorem canonicalText_unambiguous :
    (∀ s t : Snapshot, s.IsFinite → t.IsFinite → s.toText = t.toText → s = t) ∧
    ∀ d d' : Document, d.snapshot.IsFinite → d'.snapshot.IsFinite → d.snapshot ≠ d'.snapshot →
      d.snapshot.toText.toUTF8.toList ≠ d'.snapshot.toText.toUTF8.toList :=
  ⟨fun _ _ ↦ Snapshot.eq_of_toText_eq, fun _ _ hd hd' hne hbytes ↦
    hne (Snapshot.eq_of_toText_eq hd hd' (eq_of_bytes_eq hbytes))⟩

def listing (texts : List String) : Document :=
  let items := .decimal ⟨0x3FE0000000000000⟩ :: texts.map Value.string
  ((Edit.add Document.root { name := ⟨["x"]⟩, kind := .list items }).run (.new ⟨"app"⟩ {})).2

/-- One text with quotes and a comma in it is not taken for two texts. -/
theorem canonicalText_unambiguous_listing :
    (listing ["a\",\"b"]).snapshot.IsFinite ∧ (listing ["a", "b"]).snapshot.IsFinite ∧
      (listing ["a\",\"b"]).snapshot.toText.toUTF8.toList ≠
        (listing ["a", "b"]).snapshot.toText.toUTF8.toList := by
  have hquoted : (listing ["a\",\"b"]).snapshot.IsFinite := by decide
  have hplain : (listing ["a", "b"]).snapshot.IsFinite := by decide
  have hne : (listing ["a\",\"b"]).snapshot ≠ (listing ["a", "b"]).snapshot := by
    intro h
    have hitems := congrArg (fun s ↦ s.children.map (·.items)) h
    exact absurd hitems (by decide)
  exact ⟨hquoted, hplain, canonicalText_unambiguous.2 _ _ hquoted hplain hne⟩

end BuildScript
