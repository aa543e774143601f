import BuildScript.Proofs.Document.Tables

namespace BuildScript

namespace EditM

variable {α β γ : Type} {d d' : Document} {e : ModelError}

def exec (m : EditM α) (d : Document) : Except ModelError α × Document := m.run.run d

-- In parentheses, `rfl` makes a proof to rewrite with: otherwise each use is checked by running
-- both sides.
theorem exec_get_bind (f : Document → EditM β) (d : Document) :
    (get >>= f : EditM β).exec d = (f d).exec d := (rfl)

theorem exec_set_bind (f : PUnit → EditM β) (d d' : Document) :
    (set d' >>= f : EditM β).exec d = (f ⟨⟩).exec d' := (rfl)

theorem exec_modify_bind (g : Document → Document) (f : PUnit → EditM β) (d : Document) :
    (modify g >>= f : EditM β).exec d = (f ⟨⟩).exec (g d) := (rfl)

theorem exec_lift_bind (x : Except ModelError α) (f : α → EditM β) (d : Document) :
    (liftM x >>= f : EditM β).exec d =
      match x with
      | .ok a => (f a).exec d
      | .error e => (.error e, d) := by
  cases x <;> rfl

theorem exec_pure (a : α) (d : Document) : (pure a : EditM α).exec d = (.ok a, d) := (rfl)

theorem exec_set (d d' : Document) : (set d' : EditM PUnit).exec d = (.ok ⟨⟩, d') := (rfl)

theorem exec_modify (g : Document → Document) (d : Document) :
    (modify g : EditM PUnit).exec d = (.ok ⟨⟩, g d) := (rfl)

theorem exec_bind_of_ok {m : EditM α} {a : α} (h : m.exec d = (.ok a, d')) (f : α → EditM β) :
    (m >>= f).exec d = (f a).exec d' := by
  simp only [exec, ExceptT.run_bind, StateT.run_bind] at h ⊢
  rw [h]
  rfl

theorem exec_bind_of_error {m : EditM α} (h : m.exec d = (.error e, d')) (f : α → EditM β) :
    (m >>= f).exec d = (.error e, d') := by
  simp only [exec, ExceptT.run_bind, StateT.run_bind] at h ⊢
  rw [h]
  rfl

theorem exec_map (g : α → β) (m : EditM α) (d : Document) :
    (g <$> m).exec d = ((m.exec d).1.map g, (m.exec d).2) := by
  simp only [exec]
  rw [ExceptT.run_map, StateT.run_map]
  rfl

/-- An operation follows a check: if the check fails, so does the operation, and the document is as
it was. If the check passes, the operation ends well, and `post` holds of the document. -/
inductive Follows (m : EditM α) (d : Document) (post : Document → Prop) :
    Except ModelError β → Prop
  | refused {e : ModelError} : m.exec d = (.error e, d) → Follows m d post (.error e)
  | done {b : β} {a : α} {d' : Document} : m.exec d = (.ok a, d') → post d' →
      Follows m d post (.ok b)

theorem Follows.map {m : EditM α} {post : Document → Prop} {check : Except ModelError β}
    (h : m.Follows d post check) (g : α → γ) : (g <$> m).Follows d post check := by
  cases h with
  | refused h => exact .refused (by rw [exec_map, h]; rfl)
  | done h hpost => exact .done (by rw [exec_map, h]; rfl) hpost

theorem Follows.post_exec {m : EditM α} {post : Document → Prop} {check : Except ModelError β}
    (h : m.Follows d post check) (hd : post d) : post (m.exec d).2 := by
  cases h with
  | refused h => rwa [h]
  | done h hpost => rwa [h]

end EditM

namespace Document

variable {d : Document} {block node : NodeId} {s : Store}

theorem container_ok (h : d.container block = .ok s) : d.store? block = some s := by
  simp only [container] at h
  split at h <;> simp_all

theorem container_eq_ok {n : Node} (hn : d.node? block = some n) (hs : d.store? block = some s) :
    d.container block = .ok s := by
  simp only [container, hn, hs]

theorem container_live (h : d.container block = .ok s) : ∃ n, d.node? block = some n := by
  simp only [container] at h
  split at h <;> simp_all

theorem bind_ok {α β : Type} {x : Except ModelError α} {f : α → Except ModelError β} {b : β}
    (h : (x >>= f) = .ok b) : ∃ a, x = .ok a ∧ f a = .ok b := by
  cases x with
  | error e => simp [bind, Except.bind] at h
  | ok a => exact ⟨a, rfl, h⟩

theorem checkRemove_ok {state : EntryState} (h : d.checkRemove block node = .ok state) :
    ∃ s e, d.container block = .ok s ∧ s.find? node = some e ∧ e.state = state ∧
      state ≠ .applied := by
  obtain ⟨state', hstate, h⟩ := bind_ok h
  obtain ⟨s, hc, hs⟩ := bind_ok hstate
  cases hf : s.find? node with
  | none => simp [Store.state?, hf] at hs
  | some e =>
    obtain rfl : e.state = state' := by simpa [Store.state?, hf] using hs
    split at h
    · simp at h
    · next hne =>
      obtain rfl : e.state = state := by simpa using h
      exact ⟨s, e, hc, hf, rfl, hne⟩

theorem checkReplace_ok {state : EntryState} (h : d.checkReplace block node = .ok state) :
    ∃ s e n, d.container block = .ok s ∧ s.find? node = some e ∧ e.state ≠ .applied ∧
      d.node? node = some n ∧ n.parent = some block := by
  obtain ⟨state', hc, h⟩ := bind_ok h
  split at h
  · next ho =>
    obtain ⟨s, e, hs, he, rfl, hne⟩ := checkRemove_ok hc
    obtain ⟨n, hn, hp⟩ := isOwnedBy_iff.mp ho
    exact ⟨s, e, n, hs, he, hne, hn, hp⟩
  · simp at h

theorem checkReplace_eq_ok {e : Entry} (hc : d.container block = .ok s)
    (he : s.find? node = some e) (hne : e.state ≠ .applied) (hown : d.isOwnedBy node block) :
    d.checkReplace block node = .ok e.state := by
  simp only [checkReplace, checkRemove, stateIn, hc, Store.state?, he, Option.map_some, bind,
    Except.bind, hne, if_false, hown, if_true]

theorem checkMove_ok {u : Unit} (h : d.checkMove block node = .ok u) :
    ∃ s e n, d.container block = .ok s ∧ s.find? node = some e ∧ e.isPlaceable ∧
      d.node? node = some n ∧ n.parent = some block := by
  obtain ⟨s, hc, h⟩ := bind_ok h
  split at h
  · simp at h
  · split at h
    · simp at h
    · next ho =>
      obtain ⟨n, hn, hp⟩ := isOwnedBy_iff.mp (by simpa using ho)
      cases hf : s.find? node with
      | none => simp [Store.state?, hf] at h
      | some e =>
        simp only [Store.state?, hf, Option.map_some] at h
        split at h
        · next hplace => exact ⟨s, e, n, hc, hf, hplace, hn, hp⟩
        · simp at h

theorem checkSet_ok {u : Unit} (h : d.checkSet node = .ok u) :
    ∃ n, d.node? node = some n ∧ n.isSettable := by
  simp only [checkSet] at h
  split at h
  · simp at h
  · next n hn =>
    split at h
    · next hs => exact ⟨n, hn, hs⟩
    · simp at h

def graft (d : Document) (block : NodeId) (state : EntryState) (spec : Spec)
    (list : NodeId → Store → Store) : Document :=
  ((d.alloc block state spec).modifyStore block (list d.nextId)).recordEdges d.nextId

def stage (d : Document) (block : NodeId) (spec : Spec) (list : NodeId → Store → Store) :
    Document :=
  (d.graft block .toBeAdded spec list).markModified block

def stageReplacement (d : Document) (block old : NodeId) (spec : Spec) : Document :=
  (d.alloc block .toBeAdded spec).putInPlace block old d.nextId

structure Widens (d d' : Document) : Prop where
  next : d.nextId ≤ d'.nextId
  node : ∀ i n, d.node? i = some n → d'.node? i = some n
  store : ∀ i s, i < d.nextId → d.store? i = some s → d'.store? i = some s

namespace Widens

variable {d' : Document} {parent : NodeId}

theorem push (h : Widens d d') (n : Node) : Widens d (d'.push n) where
  next := by rw [nextId_push]; exact Nat.le_succ_of_le h.next
  node i m hm := by
    rw [node?_push, if_neg (Nat.ne_of_lt (lt_nextId (h.node i m hm))), h.node i m hm]
  store i s hi hs := by
    have hs' : d'.stores.get? i = some s := h.store i s hi hs
    rw [store?, Document.push, Table.get?_push,
      if_neg (Nat.ne_of_lt (Table.lt_size_of_get? hs')), hs']

theorem modifyStore (h : Widens d d') (hp : d.nextId ≤ parent) (f : Store → Store) :
    Widens d (d'.modifyStore parent f) where
  next := h.next
  node := h.node
  store i s hi hs := by
    rw [store?_modifyStore, if_neg (Nat.ne_of_gt (Nat.lt_of_lt_of_le hi hp)), h.store i s hi hs]

theorem alloc (h : Widens d d') (parent : NodeId) (state : EntryState) (spec : Spec) :
    Widens d (d'.alloc parent state spec) := by
  refine (alloc_induction state (M := fun d' _ _ d'' ↦ Widens d d' → Widens d d'')
    (N := fun d' parent _ d'' ↦ d.nextId ≤ parent → Widens d d' → Widens d d'')
    (fun d' parent spec d'' ih h ↦ ih h.next (h.push _)) (fun _ _ _ h ↦ h)
    fun _ _ _ _ _ _ ih ih' hp h ↦ ih' hp ((ih h).modifyStore hp _)).1 d' parent spec h

end Widens

/-- New nodes do not get in the way of the container they are numbered below. -/
theorem container_alloc (h : d.container block = .ok s) (state : EntryState) (spec : Spec) :
    (d.alloc block state spec).container block = .ok s := by
  obtain ⟨n, hn⟩ := container_live h
  have hkept :=
    Widens.alloc (d := d) ⟨Nat.le_refl _, fun _ _ h ↦ h, fun _ _ _ h ↦ h⟩ block state spec
  exact container_eq_ok (hkept.node block n hn)
    (hkept.store block s (lt_nextId hn) (container_ok h))

theorem stateIn_eq (h : d.container block = .ok s) {e : Entry} (he : s.find? node = some e) :
    d.stateIn block node = .ok e.state := by
  simp only [stateIn, h, bind, Except.bind, Store.state?, he, Option.map_some]

inductive Edited (d : Document) : Edit → Document → Prop
  | unchanged (edit : Edit) : Edited d edit d
  | addParsed {block : NodeId} {s : Store} (spec : Spec) : d.store? block = some s →
      Edited d (.addParsed block spec)
        (d.graft block .existing spec fun id s ↦ s.add id .existing spec.isBacked)
  | addParsedAtFront {block : NodeId} {s : Store} (spec : Spec) : d.store? block = some s →
      Edited d (.addParsedAtFront block spec)
        (d.graft block .existing spec fun id s ↦ s.addAt id .existing spec.isBacked 0)
  | addParsedResetting {block : NodeId} {s : Store} (spec : Spec) (name : String) :
      d.store? block = some s →
      Edited d (.addParsedResetting block spec name)
        ((d.hideNamed block name).graft block .existing spec fun id s ↦
          s.add id .existing spec.isBacked)
  | add {block : NodeId} {s : Store} (spec : Spec) : d.store? block = some s →
      Edited d (.add block spec)
        ((d.stage block spec fun id s ↦ s.add id .toBeAdded false).placeNew block d.nextId)
  | addAt {block : NodeId} {s : Store} (spec : Spec) (index : Int) : d.store? block = some s →
      Edited d (.addAt block spec index)
        (d.stage block spec fun id s ↦ s.addAt id .toBeAdded false index)
  | addBeforeAllOfKind {block : NodeId} {s : Store} (spec : Spec) (tag : Tag) (index : Int) :
      d.store? block = some s →
      Edited d (.addBeforeAllOfKind block spec tag)
        (d.stage block spec fun id s ↦ s.addAt id .toBeAdded false index)
  | remove {block node : NodeId} {s : Store} {e : Entry} : d.store? block = some s →
      s.find? node = some e → e.state ≠ .applied →
      Edited d (.remove block node)
        (((d.modifyStore block (·.remove node)).dropEdges node).markModified block)
  | removeNamed {block : NodeId} {s : Store} (name : String) : d.store? block = some s →
      Edited d (.removeNamed block name)
        (((s.picks (d.isNamed name)).foldl dropEdges
          (d.modifyStore block (·.removeAll (d.isNamed name)))).markModified block)
  | hideNamed {block : NodeId} {s : Store} (name : String) : d.store? block = some s →
      Edited d (.hideNamed block name) (d.hideNamed block name)
  | replace {block old : NodeId} {s : Store} {e : Entry} {n : Node} (spec : Spec) :
      d.store? block = some s → s.find? old = some e → e.state ≠ .applied →
      d.node? old = some n → n.parent = some block →
      Edited d (.replace block old spec) (d.stageReplacement block old spec)
  | moveTo {block node : NodeId} {s : Store} {e : Entry} {n : Node} (index : Int) :
      d.store? block = some s → s.find? node = some e → e.isPlaceable →
      d.node? node = some n → n.parent = some block →
      Edited d (.moveTo block node index)
        ((d.modifyStore block (·.moveTo node index)).markModified block)
  | setValue {node : NodeId} {n : Node} (value : Value) :
      d.node? node = some n → n.isSettable →
      Edited d (.setValue node value) (d.stageValue node value)
  | setLiteral {node : NodeId} {n : Node} (block : NodeId) (name : String) (value : Value) :
      d.node? node = some n → n.isSettable →
      Edited d (.setNewLiteral block name value) (d.stageValue node value)
  | addLiteral {block : NodeId} {s : Store} (name : String) (value : Value) :
      d.store? block = some s →
      Edited d (.setNewLiteral block name value)
        ((d.stage block (.literal (.parse name) value) fun id s ↦
          s.add id .toBeAdded false).placeNew block d.nextId)

end Document

open Document EditM

namespace EditM

variable {d : Document} {block : NodeId} {s : Store} {e : ModelError}

theorem exec_modifyContainer (h : d.container block = .ok s) (f : Store → Store) :
    (modifyContainer block f).exec d = (.ok ⟨⟩, d.modifyStore block f) := by
  simp only [modifyContainer, exec_get_bind, exec_lift_bind, exec_modify, h]

theorem exec_alloc (d : Document) (block : NodeId) (state : EntryState) (spec : Spec) :
    (alloc block state spec).exec d = (.ok d.nextId, d.alloc block state spec) := (rfl)

theorem exec_graft (h : d.container block = .ok s) (state : EntryState) (spec : Spec)
    (list : NodeId → Store → Store) :
    (graft block state spec list).exec d = (.ok d.nextId, d.graft block state spec list) := by
  have hlist := exec_modifyContainer (container_alloc h state spec) (list d.nextId)
  simp only [graft, exec_get_bind, exec_lift_bind, h, exec_bind_of_ok (exec_alloc ..),
    exec_bind_of_ok hlist, exec_modify_bind, exec_pure, Document.graft]

theorem exec_graft_error (h : d.container block = .error e) (state : EntryState) (spec : Spec)
    (list : NodeId → Store → Store) : (graft block state spec list).exec d = (.error e, d) := by
  simp only [graft, exec_get_bind, exec_lift_bind, h]

theorem exec_add (h : d.container block = .ok s) (spec : Spec) :
    (add block spec).exec d = (.ok d.nextId,
      (d.stage block spec fun id s ↦ s.add id .toBeAdded false).placeNew block d.nextId) := by
  rw [add, exec_bind_of_ok (exec_graft h _ _ _), exec_modify_bind, exec_pure, stage]

theorem exec_addAt (h : d.container block = .ok s) (spec : Spec) (index : Int) :
    (addAt block spec index).exec d = (.ok d.nextId,
      d.stage block spec fun id s ↦ s.addAt id .toBeAdded false index) := by
  rw [addAt, exec_bind_of_ok (exec_graft h _ _ _), exec_modify_bind, exec_pure, stage]

theorem exec_replace {old : NodeId} {state : EntryState} (h : d.container block = .ok s)
    (hcheck : d.checkReplace block old = .ok state) {entry : Entry} (he : s.find? old = some entry)
    (spec : Spec) : (replace block old spec).exec d =
      (.ok (d.nextId, entry.state), d.stageReplacement block old spec) := by
  have hstate := stateIn_eq (container_alloc h .toBeAdded spec) he
  simp only [replace, exec_get_bind, exec_lift_bind, hcheck, exec_bind_of_ok (exec_alloc ..),
    hstate, exec_modify_bind, exec_pure, stageReplacement]

theorem exec_setValue {node : NodeId} (h : d.checkSet node = .ok ⟨⟩) (value : Value) :
    (setValue node value).exec d = (.ok ⟨⟩, d.stageValue node value) := by
  simp only [setValue, exec_get_bind, exec_lift_bind, h, exec_set]

end EditM

theorem literal?_settable {d : Document} {s : Store} {name : String} {x : NodeId}
    (h : d.literal? s name = some x) : ∃ n, d.node? x = some n ∧ n.isSettable := by
  obtain ⟨-, hx⟩ := List.mem_filter.mp (List.mem_of_getLast? h)
  obtain ⟨n, hn, hlit⟩ := (Option.any_eq_true _ _).mp hx
  have htag : n.kind.tag = .literal := of_decide_eq_true (Bool.and_eq_true_iff.mp hlit).1
  refine ⟨n, hn, ?_⟩
  cases hk : n.kind <;> simp_all [Kind.tag, Node.isSettable, Kind.value?]

section

variable (d : Document) (block node : NodeId) (spec : Spec) (name : String)

theorem follows_addParsed : (EditM.addParsed block spec).Follows d
    (Edited d (.addParsed block spec)) (discard (d.container block)) := by
  cases h : d.container block with
  | error e => exact .refused (exec_graft_error h _ _ _)
  | ok s => exact .done (exec_graft h _ _ _) (.addParsed spec (container_ok h))

theorem follows_addParsedAtFront : (EditM.addParsedAtFront block spec).Follows d
    (Edited d (.addParsedAtFront block spec)) (discard (d.container block)) := by
  cases h : d.container block with
  | error e => exact .refused (exec_graft_error h _ _ _)
  | ok s => exact .done (exec_graft h _ _ _) (.addParsedAtFront spec (container_ok h))

theorem follows_addParsedResetting : (EditM.addParsedResetting block spec name).Follows d
    (Edited d (.addParsedResetting block spec name)) (discard (d.container block)) := by
  cases h : d.container block with
  | error e =>
    exact .refused (by simp only [EditM.addParsedResetting, exec_get_bind, exec_lift_bind, h])
  | ok s =>
    obtain ⟨n, hn⟩ := container_live h
    have hs : (d.hideNamed block name).store? block = some (s.hideAll (d.isNamed name)) := by
      simp [Document.hideNamed, container_ok h]
    have hc := container_eq_ok (d := d.hideNamed block name) hn hs
    refine .done (a := d.nextId) ?_ (.addParsedResetting spec name (container_ok h))
    simp only [EditM.addParsedResetting, exec_get_bind, exec_lift_bind, h, exec_modify_bind]
    exact exec_graft hc _ _ _

theorem follows_add : (EditM.add block spec).Follows d (Edited d (.add block spec))
    (discard (d.container block)) := by
  cases h : d.container block with
  | error e => exact .refused (exec_bind_of_error (exec_graft_error h _ _ _) _)
  | ok s => exact .done (exec_add h spec) (.add spec (container_ok h))

theorem follows_addAt (index : Int) : (EditM.addAt block spec index).Follows d
    (Edited d (.addAt block spec index)) (discard (d.container block)) := by
  cases h : d.container block with
  | error e => exact .refused (exec_bind_of_error (exec_graft_error h _ _ _) _)
  | ok s => exact .done (exec_addAt h spec index) (.addAt spec index (container_ok h))

theorem follows_addBeforeAllOfKind (tag : Tag) : (EditM.addBeforeAllOfKind block spec tag).Follows d
    (Edited d (.addBeforeAllOfKind block spec tag)) (discard (d.container block)) := by
  cases h : d.container block with
  | error e =>
    exact .refused (by simp only [EditM.addBeforeAllOfKind, exec_get_bind, exec_lift_bind, h])
  | ok s =>
    let index : Int := (s.placeable.findIdx fun id ↦ (d.node? id).any (·.tag = tag) : Nat)
    refine .done (a := d.nextId) ?_ (.addBeforeAllOfKind spec tag index (container_ok h))
    simp only [EditM.addBeforeAllOfKind, exec_get_bind, exec_lift_bind, h]
    exact exec_addAt h spec index

theorem follows_remove : (EditM.remove block node).Follows d (Edited d (.remove block node))
    (discard (d.checkRemove block node)) := by
  cases h : d.checkRemove block node with
  | error e => exact .refused (by simp only [EditM.remove, exec_get_bind, exec_lift_bind, h])
  | ok state =>
    obtain ⟨s, e, hc, he, rfl, hne⟩ := checkRemove_ok h
    have hstate := stateIn_eq hc he
    by_cases hr : e.state = .toBeRemoved
    · refine .done (a := e.state) ?_ (.unchanged _)
      simp only [EditM.remove, exec_get_bind, exec_lift_bind, h, hstate, hr, ne_eq, not_true,
        if_false, exec_pure]
    · refine .done (a := e.state) ?_ (.remove (container_ok hc) he hne)
      simp only [EditM.remove, exec_get_bind, exec_lift_bind, h, hstate, ne_eq, hr, not_false_iff,
        if_true, exec_modify_bind, exec_pure]

theorem follows_removeNamed : (EditM.removeNamed block name).Follows d
    (Edited d (.removeNamed block name)) (discard (d.container block)) := by
  cases h : d.container block with
  | error e => exact .refused (by simp only [EditM.removeNamed, exec_get_bind, exec_lift_bind, h])
  | ok s =>
    cases hp : s.picks (d.isNamed name) with
    | nil =>
      refine .done (a := []) ?_ (.unchanged _)
      simp only [EditM.removeNamed, exec_get_bind, exec_lift_bind, h, hp, List.isEmpty_nil,
        Bool.not_true, Bool.false_eq_true, if_false, exec_pure]
    | cons x xs =>
      have hremove := exec_modifyContainer h (·.removeAll (d.isNamed name))
      refine .done (a := x :: xs) ?_ (.removeNamed name (container_ok h))
      simp only [EditM.removeNamed, exec_get_bind, exec_lift_bind, h, hp, List.isEmpty_cons,
        Bool.not_false, if_true, exec_bind_of_ok hremove, exec_modify_bind, exec_pure]

theorem follows_hideNamed : (EditM.hideNamed block name).Follows d
    (Edited d (.hideNamed block name)) (discard (d.container block)) := by
  cases h : d.container block with
  | error e => exact .refused (by simp only [EditM.hideNamed, exec_get_bind, exec_lift_bind, h])
  | ok s =>
    refine .done (a := s.picks (d.isNamed name)) ?_ (.hideNamed name (container_ok h))
    simp only [EditM.hideNamed, exec_get_bind, exec_lift_bind, exec_set_bind, exec_pure, h]

theorem follows_replace : (EditM.replace block node spec).Follows d
    (Edited d (.replace block node spec)) (discard (d.checkReplace block node)) := by
  cases h : d.checkReplace block node with
  | error e => exact .refused (by simp only [EditM.replace, exec_get_bind, exec_lift_bind, h])
  | ok state =>
    obtain ⟨s, e, n, hc, he, hne, hn, hp⟩ := checkReplace_ok h
    exact .done (exec_replace hc h he spec) (.replace spec (container_ok hc) he hne hn hp)

theorem follows_moveTo (index : Int) : (EditM.moveTo block node index).Follows d
    (Edited d (.moveTo block node index)) (d.checkMove block node) := by
  cases h : d.checkMove block node with
  | error e => exact .refused (by simp only [EditM.moveTo, exec_get_bind, exec_lift_bind, h])
  | ok u =>
    obtain ⟨s, e, n, hc, he, hplace, hn, hp⟩ := checkMove_ok h
    refine .done (a := ⟨⟩) ?_ (.moveTo index (container_ok hc) he hplace hn hp)
    simp only [EditM.moveTo, exec_get_bind, exec_lift_bind, h, stateIn_eq hc he, exec_modify]

theorem follows_setValue (value : Value) : (EditM.setValue node value).Follows d
    (Edited d (.setValue node value)) (d.checkSet node) := by
  cases h : d.checkSet node with
  | error e => exact .refused (by simp only [EditM.setValue, exec_get_bind, exec_lift_bind, h])
  | ok u =>
    obtain ⟨n, hn, hset⟩ := checkSet_ok h
    exact .done (exec_setValue h value) (.setValue value hn hset)

theorem follows_setNewLiteral (value : Value) : (EditM.setNewLiteral block name value).Follows d
    (Edited d (.setNewLiteral block name value)) (discard (d.container block)) := by
  cases h : d.container block with
  | error e => exact .refused (by simp only [EditM.setNewLiteral, exec_get_bind, exec_lift_bind, h])
  | ok s =>
    cases hlit : d.literal? s name with
    | none =>
      refine .done (a := d.nextId) ?_ (.addLiteral name value (container_ok h))
      simp only [EditM.setNewLiteral, exec_get_bind, exec_lift_bind, h, hlit]
      exact exec_add h _
    | some x =>
      obtain ⟨n, hn, hset⟩ := literal?_settable hlit
      have hcheck : d.checkSet x = .ok ⟨⟩ := by simp only [checkSet, hn, hset, if_true]
      refine .done (a := x) ?_ (.setLiteral block name value hn hset)
      simp only [EditM.setNewLiteral, exec_get_bind, exec_lift_bind, h, hlit,
        exec_bind_of_ok (exec_setValue hcheck value), exec_pure]

end

/-- What a change asks of the document, looked at before anything is done. -/
def Edit.check : Edit → Document → Except ModelError Unit
  | addParsed block _, d | addParsedAtFront block _, d | addParsedResetting block _ _, d
  | add block _, d | addAt block _ _, d | addBeforeAllOfKind block _ _, d
  | removeNamed block _, d | hideNamed block _, d | setNewLiteral block _ _, d =>
    discard (d.container block)
  | remove block node, d => discard (d.checkRemove block node)
  | replace block old _, d => discard (d.checkReplace block old)
  | moveTo block node _, d => d.checkMove block node
  | setValue node _, d => d.checkSet node

theorem Edit.follows (edit : Edit) (d : Document) :
    edit.perform.Follows d (Edited d edit) (edit.check d) := by
  cases edit with
  | addParsed block spec => exact (follows_addParsed d block spec).map _
  | addParsedAtFront block spec => exact (follows_addParsedAtFront d block spec).map _
  | addParsedResetting block spec name => exact (follows_addParsedResetting d block spec name).map _
  | add block spec => exact (follows_add d block spec).map _
  | addAt block spec index => exact (follows_addAt d block spec index).map _
  | addBeforeAllOfKind block spec tag => exact (follows_addBeforeAllOfKind d block spec tag).map _
  | remove block node => exact (follows_remove d block node).map _
  | removeNamed block name => exact (follows_removeNamed d block name).map _
  | hideNamed block name => exact (follows_hideNamed d block name).map _
  | replace block old spec => exact (follows_replace d block old spec).map _
  | moveTo block node index => exact (follows_moveTo d block node index).map _
  | setValue node value => exact (follows_setValue d node value).map _
  | setNewLiteral block name value => exact (follows_setNewLiteral d block name value).map _

/-- Every change that is asked of a document is one of the listed ones. -/
theorem Edit.edited (edit : Edit) (d : Document) : Edited d edit (edit.run d).2 :=
  (edit.follows d).post_exec (.unchanged edit)

end BuildScript
