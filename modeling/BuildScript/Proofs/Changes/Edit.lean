import BuildScript.Proofs.Changes.Insert
import BuildScript.Proofs.Changes.Replace

namespace BuildScript

namespace Document

variable {d d' : Document} {edit : Edit} {block x : NodeId} {n : Node} {s : Store} {e : Entry}

theorem alters_stageValue (h : Linked d) (hn : d.node? x = some n) (value : Value) :
    Alters d edit (d.stageValue x value) := by
  have hnode : ∀ y n₁, (d.modifyNode x fun n ↦ { n with pending := some value }).node? y =
      some n₁ → ∃ n, d.node? y = some n ∧ n₁.parent = n.parent ∧ n₁.holders = n.holders ∧
        n₁.modified = n.modified ∧ (n₁.pending = n.pending ∨ y = x) := by
    intro y n₁ hy
    rcases node?_of_modifyNode hy with ⟨hxy, n, hn, rfl⟩ | ⟨-, hy⟩
    · exact ⟨n, hn, rfl, rfl, rfl, .inr hxy.symm⟩
    · exact ⟨n₁, hy, rfl, rfl, rfl, .inl rfl⟩
  have holder : (d.modifyNode x fun n ↦ { n with pending := some value }).Older := by
    intro y n₁ p hy hp
    obtain ⟨n, hn, hpar, -⟩ := hnode y n₁ hy
    exact h.older y n p hn (hpar.symm.trans hp)
  have hf : Flags [x] (d.modifyNode x fun n ↦ { n with pending := some value })
      (d.stageValue x value) :=
    (Flags.recordEdges _ x).trans
      (.markModified (fun y m p hm hp ↦ by
        obtain ⟨m₀, hm₀, he⟩ := (Alike.recordEdges _ x).node? hm
        exact holder y m₀ p hm₀ ((Node.fields_of_bare he).1.symm.trans hp)) x)
  have hm : (d.stageValue x value).Marked x :=
    hf.marked List.mem_cons_self (by simp [isLive, hn])
  have hnext : (d.stageValue x value).nextId = d.nextId := hf.nextId.trans (nextId_modifyNode ..)
  refine ⟨Nat.le_of_eq hnext.symm, fun y hy ↦ ?_, fun y n' _ hn' ↦ ?_, fun y n' hy hn' ↦ ?_,
    fun b s' e' hb he ↦ ?_, fun b hb ↦ .inl (hb.congr (hf.store? b))⟩
  · rw [hf.isLive, Document.isLive, node?_modifyNode]
    split <;> simpa [Document.isLive] using hy
  · obtain ⟨n₁, hn₁, hp', hh', hpend', hup, hdown⟩ := hf.node hn'
    obtain ⟨n, hn, hp, hh, hmod, hpend⟩ := hnode y n₁ hn₁
    rw [hmod] at hup hdown
    refine ⟨n, hn, hp'.trans hp, hh'.trans hh, hup, hdown, hpend.imp (hpend'.trans ·) fun hy ↦ ?_⟩
    rw [hy]
    exact hm
  · exact absurd (lt_nextId hn') (Nat.not_lt.mpr (hnext ▸ hy))
  · rw [hf.store?, store?_modifyNode] at hb
    exact .kept hb he

theorem entered_hideNamed (h : d.store? block = some s) {name : String} (d' : Document)
    (hide : ∀ x, d.isNamed name x → edit.hides d block x)
    (he : e ∈ (s.hideAll (d.isNamed name)).entries) : Entered d edit d' block e := by
  rcases Store.mem_mapPicked he with he | ⟨e₀, he₀, hp, hnamed, rfl⟩
  · exact .kept h he
  · exact .hidden h he₀ hp (hide _ hnamed)

theorem alters_addParsedResetting (h : Linked d) (hs : d.store? block = some s) (spec : Spec)
    (name : String) : Alters d (.addParsedResetting block spec name)
      ((d.hideNamed block name).graft block .existing spec fun id s ↦
        s.add id .existing spec.isBacked) := by
  have hhide : (d.hideNamed block name).store? block = some (s.hideAll (d.isNamed name)) := by
    simp [Document.hideNamed, hs]
  refine alters_parse (d := d) (h.hideNamed block name) rfl hhide spec rfl
    (fun e he ↦ by simpa [Store.add] using he) (fun _ ↦ rfl) (fun b s' e hb he ↦ ?_)
    fun b hb ↦ hb.modifyStore fun _ _ hs ↦ hs
  by_cases hbb : block = b
  · subst hbb
    rw [hhide] at hb
    cases hb
    exact entered_hideNamed hs _ (fun x hx ↦ by simpa [Edit.hides] using hx) he
  · rw [Document.hideNamed, store?_modifyStore, if_neg hbb] at hb
    exact .kept hb he

theorem alters_remove (h : Linked d) (hs : d.store? block = some s) (node : NodeId) :
    Alters d (.remove block node)
      (((d.modifyStore block (·.remove node)).dropEdges node).markModified block) := by
  have hl : Linked (d.modifyStore block (·.remove node)) :=
    h.modifyStore fun s hs ↦ (h.store block s hs).remove node
  have hf := (Flags.dropEdges (d.modifyStore block (·.remove node)) node).trans
    (.markModified (hl.alike (.dropEdges _ _)).older block)
  have hm := hf.marked List.mem_cons_self (h.isLive_of_store? hs)
  refine .modifyStore hf (fun s' e' hs' he' ↦ ?_) (.inl hm)
  rcases Store.mem_modifyFirst he' with he' | ⟨e₀, he₀, hnode, rfl⟩
  · exact .kept hs' he'
  · exact .withdrawn hs' he₀ hm (.inr fun _ ↦ by rw [hnode]; rfl)

theorem alters_removeNamed (h : Linked d) (hs : d.store? block = some s) (name : String) :
    Alters d (.removeNamed block name) (((s.picks (d.isNamed name)).foldl Document.dropEdges
      (d.modifyStore block (·.removeAll (d.isNamed name)))).markModified block) := by
  have hl : Linked (d.modifyStore block (·.removeAll (d.isNamed name))) :=
    h.modifyStore fun s hs ↦ (h.store block s hs).removeAll _
  have hf := (Flags.foldl_dropEdges (s.picks (d.isNamed name))
    (d.modifyStore block (·.removeAll (d.isNamed name)))).trans
    (.markModified (hl.alike (.foldl_dropEdges _ _)).older block)
  have hm := hf.marked List.mem_cons_self (h.isLive_of_store? hs)
  refine .modifyStore hf (fun s' e' hs' he' ↦ ?_) (.inl hm)
  rcases Store.mem_mapPicked he' with he' | ⟨e₀, he₀, hplace, -, rfl⟩
  · exact .kept hs' he'
  · exact .withdrawn hs' he₀ hm (.inl hplace)

theorem alters_moveTo (h : Linked d) (hs : d.store? block = some s) {node : NodeId}
    (he : s.find? node = some e) (hp : e.isPlaceable) (index : Int) :
    Alters d (.moveTo block node index)
      ((d.modifyStore block (·.moveTo node index)).markModified block) := by
  have hl : Linked (d.modifyStore block (·.moveTo node index)) :=
    h.modifyStore fun s hs ↦ (h.store block s hs).moveTo node index
  have hf := Flags.markModified hl.older block
  have hm := hf.marked List.mem_cons_self (h.isLive_of_store? hs)
  refine .modifyStore hf (fun s' e' hs' he' ↦ ?_) (.inl hm)
  rcases Store.mem_moveTo he' with he' | ⟨e₀, he₀, hnode, rfl⟩
  · exact .kept hs' he'
  · rw [hs] at hs'
    cases hs'
    obtain rfl := Store.eq_of_find? (h.store block s hs).nodup he he₀ hnode
    exact .moved hs he₀ hp hm

/-- Every change alters a document in the way described. -/
theorem alters (h : Linked d) (edit : Edit) : Alters d edit (edit.run d).2 := by
  have hedited := edit.edited d
  generalize (edit.run d).2 = d' at hedited
  cases hedited with
  | unchanged => exact .refl d _
  | addParsed spec hs =>
    exact alters_parse h rfl hs spec rfl (fun e he ↦ by simpa [Store.add] using he) (fun _ ↦ rfl)
      (fun b s e hs he ↦ .kept hs he) fun _ hb ↦ hb
  | addParsedAtFront spec hs =>
    exact alters_parse h rfl hs spec rfl (fun _ he ↦ Store.mem_addAt he) (fun _ ↦ rfl)
      (fun b s e hs he ↦ .kept hs he) fun _ hb ↦ hb
  | addParsedResetting spec name hs => exact alters_addParsedResetting h hs spec name
  | add spec hs => exact alters_add h hs spec rfl
  | addAt spec index hs => exact alters_addAt h hs spec index
  | addBeforeAllOfKind spec tag index hs => exact alters_addAt h hs spec index
  | @remove _ node _ _ hs => exact alters_remove h hs node
  | removeNamed name hs => exact alters_removeNamed h hs name
  | hideNamed name hs =>
    refine .modifyStore (.refl _) (fun s' e' hs' he' ↦ ?_) (.inr fun _ ↦ rfl)
    exact entered_hideNamed hs' _ (fun x hx ↦ by simpa [Edit.hides] using hx) he'
  | replace spec hs he hna hn hp => exact alters_stageReplacement h hs he hna hn hp spec
  | moveTo index hs he hp => exact alters_moveTo h hs he hp index
  | setValue value hn hset => exact alters_stageValue h hn value
  | setLiteral block name value hn hset => exact alters_stageValue h hn value
  | addLiteral name value hs => exact alters_add h hs _ rfl

end Document

end BuildScript
