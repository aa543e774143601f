import BuildScript.Document.Snapshot
import BuildScript.Proofs.Apply.Frame
import BuildScript.Proofs.Ownership

namespace BuildScript

namespace Node

def look (n : Node) : Snapshot := .ofNode n []

theorem ofNode_eq_of_look {n n' : Node} (h : n.look = n'.look) (children : List Snapshot) :
    Snapshot.ofNode n children = Snapshot.ofNode n' children := by
  have hwith : ∀ n : Node, Snapshot.ofNode n children = { n.look with children } := by
    intro n
    obtain ⟨name, kind, parent, source, modified, holders, edges, pending⟩ := n
    cases kind <;> rfl
  rw [hwith, hwith, h]

/-- A pending value is seen already, so its commit shows nothing new. -/
theorem look_commit {x : NodeId} {n : Node} (h : n.Fits x) : n.commit.look = n.look := by
  have hset := h.settable
  obtain ⟨name, kind, parent, source, modified, holders, edges, pending⟩ := n
  cases pending with
  | none => rfl
  | some v => cases kind <;> simp_all [isSettable, Kind.value?] <;> rfl

theorem look_createdAt {x : NodeId} {n : Node} (h : n.Fits x) (range : SourceRange) :
    (n.createdAt range).look = n.look := by
  simp only [createdAt]
  split
  · rfl
  · have hfits : Node.Fits x { n with source := some range } :=
      ⟨h.older, h.distinct, h.foreign, h.settable⟩
    exact look_commit hfits

end Node

namespace Store

def shown (s : Store) : List NodeId := (s.entries.filter (·.isVisible)).map (·.node)

theorem mem_shown {s : Store} {x : NodeId} :
    x ∈ s.shown ↔ ∃ e ∈ s.entries, e.isVisible ∧ e.node = x := by
  simp [shown, and_assoc]

theorem shown_purge {s : Store} (hs : s.nodes.Nodup) (id : NodeId) :
    (s.purge id).shown = s.shown.filter (· != id) := by
  rw [shown, shown, purge_entries hs, List.filter_map, List.filter_filter, List.filter_filter]
  exact congrArg _ (List.filter_congr fun e _ ↦ Bool.and_comm _ _)

theorem shown_map {s s' : Store} {g : Entry → Entry} (hs : s'.entries = s.entries.map g)
    (hg : ∀ e, (g e).node = e.node ∧ (g e).isVisible = e.isVisible) : s'.shown = s.shown := by
  have hnode : ((·.node) ∘ g : Entry → NodeId) = (·.node) := funext fun e ↦ (hg e).1
  have hvis : ((·.isVisible) ∘ g : Entry → Bool) = (·.isVisible) := funext fun e ↦ (hg e).2
  rw [shown, shown, hs, List.filter_map, List.map_map, hnode, hvis]

theorem shown_modifyEntry {s : Store} {id : NodeId} {f : Entry → Entry}
    (hf : ∀ e, (f e).node = e.node)
    (hv : ∀ e ∈ s.entries, e.node = id → (f e).isVisible = e.isVisible) :
    (s.modifyEntry id f).shown = s.shown := filter_nodes_modifyEntry hf hv

theorem shown_settle (s : Store) : s.settle.shown = s.shown := by
  refine shown_map s.settle_entries fun e ↦ ⟨settled_node e, ?_⟩
  unfold settled
  split <;> rfl

theorem shown_settleAll (s : Store) : s.settleAll.shown = s.shown := by
  refine shown_map s.settleAll_entries fun e ↦ ⟨rfl, ?_⟩
  obtain ⟨node, state, existsInSource, staged, restore⟩ := e
  cases state <;> rfl

end Store

namespace Document

variable {ov gone gone' : List NodeId} {d d' d'' : Document} {b i id o x y : NodeId} {n : Node}
  {s : Store}

def shown (d : Document) (x : NodeId) : List NodeId := ((d.store? x).map Store.shown).getD []

theorem shown_eq (d : Document) (x : NodeId) :
    d.shown x = ((d.entries x).filter (·.isVisible)).map (·.node) := by
  unfold shown entries
  cases d.store? x <;> rfl

def prunedWithin (d : Document) (gone : List NodeId) : Nat → NodeId → Option Snapshot
  | 0, _ => none
  | fuel + 1, id => (d.node? id).map fun n ↦
    .ofNode n (((d.shown id).filter (· ∉ gone)).filterMap (d.prunedWithin gone fuel))

def snapshotWithout (d : Document) (gone : List NodeId) : Snapshot :=
  (d.prunedWithin gone d.nodes.size root).getD
    { name := "", tag := .block, blockKind := some rootKind }

theorem snapshotWithin_succ (d : Document) (fuel : Nat) (id : NodeId) :
    d.snapshotWithin (fuel + 1) id = (d.node? id).map fun n ↦
      .ofNode n ((d.shown id).filterMap (d.snapshotWithin fuel)) := by
  simp only [snapshotWithin, shown_eq, List.filterMap_map]
  rfl

theorem prunedWithin_nil (d : Document) (fuel : Nat) (id : NodeId) :
    d.prunedWithin [] fuel id = d.snapshotWithin fuel id := by
  induction fuel generalizing id with
  | zero => rfl
  | succ fuel ih => simp [prunedWithin, snapshotWithin_succ, funext ih]

theorem snapshotWithout_nil (d : Document) : d.snapshotWithout [] = d.snapshot := by
  rw [snapshotWithout, prunedWithin_nil]
  rfl

/-- The nodes that a reader comes to from the root, with those in `gone` left aside. -/
inductive Seen (d : Document) (gone : List NodeId) : NodeId → Prop
  | root : Seen d gone root
  | entry {y x : NodeId} : Seen d gone y → x ∈ d.shown y → x ∉ gone → Seen d gone x

/-- From `d` to `d'` a reader loses the subtrees of the nodes in `gone` and nothing else. What no
reader comes to may change freely. -/
structure Keeps (gone : List NodeId) (d d' : Document) : Prop where
  look : ∀ x, Seen d gone x → (d'.node? x).map Node.look = (d.node? x).map Node.look
  shown : ∀ x, Seen d gone x → d'.shown x = (d.shown x).filter (· ∉ gone)

namespace Keeps

theorem refl (d : Document) : Keeps [] d d := ⟨fun _ _ ↦ rfl, fun _ _ ↦ by simp⟩

theorem seen (h : Keeps gone d d') (hx : Seen d (gone ++ gone') x) :
    Seen d gone x ∧ Seen d' gone' x := by
  induction hx with
  | root => exact ⟨.root, .root⟩
  | @entry y x _ hmem hnot ih =>
    rw [List.mem_append, not_or] at hnot
    have hmem' : x ∈ d'.shown y := by
      rw [h.shown _ ih.1]
      exact List.mem_filter.mpr ⟨hmem, by simpa using hnot.1⟩
    exact ⟨.entry ih.1 hmem hnot.1, .entry ih.2 hmem' hnot.2⟩

theorem trans (h : Keeps gone d d') (h' : Keeps gone' d' d'') : Keeps (gone ++ gone') d d'' where
  look x hx := by
    obtain ⟨h₁, h₂⟩ := h.seen hx
    exact (h'.look x h₂).trans (h.look x h₁)
  shown x hx := by
    obtain ⟨h₁, h₂⟩ := h.seen hx
    rw [h'.shown x h₂, h.shown x h₁, List.filter_filter]
    refine List.filter_congr fun y _ ↦ ?_
    simp [not_or, Bool.and_comm]

theorem snapshotWithin_eq (h : Keeps gone d d') (fuel : Nat) (hx : Seen d gone x) :
    d'.snapshotWithin fuel x = d.prunedWithin gone fuel x := by
  induction fuel generalizing x with
  | zero => rfl
  | succ fuel ih =>
    have hlook := h.look x hx
    rw [snapshotWithin_succ, prunedWithin, h.shown x hx]
    cases hn : d.node? x with
    | none =>
      rw [hn] at hlook
      have hn' : d'.node? x = none := by simpa using hlook
      rw [hn']
      rfl
    | some n =>
      rw [hn] at hlook
      obtain ⟨n', hn', he⟩ := Option.map_eq_some_iff.mp hlook
      rw [hn', Option.map_some, Option.map_some, Node.ofNode_eq_of_look he]
      refine congrArg (fun c ↦ some (Snapshot.ofNode n c)) (List.filterMap_congr fun y hy ↦ ?_)
      obtain ⟨hmem, hnot⟩ := List.mem_filter.mp hy
      exact ih (.entry hx hmem (by simpa using hnot))

theorem snapshot (h : Keeps gone d d') (hi : Inherits d d') :
    d'.snapshot = d.snapshotWithout gone := by
  have hsize : d'.nodes.size = d.nodes.size := hi.nextId
  rw [Document.snapshot, snapshotOf, snapshotWithout, h.snapshotWithin_eq _ .root, hsize]

theorem modifyNode {f : Node → Node} (hf : ∀ n, d.node? i = some n → (f n).look = n.look) :
    Keeps [] d (d.modifyNode i f) where
  look x _ := map_node?_modifyNode hf x
  shown x _ := by simp [Document.shown]

theorem modifyStore {f : Store → Store} (hf : ∀ s, d.store? b = some s → (f s).shown = s.shown) :
    Keeps [] d (d.modifyStore b f) where
  look _ _ := rfl
  shown x _ := by
    have hlist : (d.modifyStore b f).shown x = d.shown x := by
      rw [Document.shown, store?_modifyStore]
      split
      · next hb =>
        subst hb
        cases hs : d.store? b with
        | none => simp [Document.shown, hs]
        | some s => simpa [Document.shown, hs] using hf s hs
      · rfl
    simp [hlist]

end Keeps

theorem mem_shown : x ∈ d.shown b ↔
    ∃ s, d.store? b = some s ∧ ∃ e ∈ s.entries, e.isVisible ∧ e.node = x := by
  unfold shown
  cases hs : d.store? b with
  | none => simp
  | some s => simp [Store.mem_shown]

namespace Writable

theorem parent_eq_of_listed (h : Writable ov d x) (hs : d.store? y = some s) (hx : x ∈ s.nodes)
    (hn : d.node? x = some n) : n.parent = some y := by
  have hnone := h.owned.holders_eq_nil hn (h.owned.not_below_of_main h.main)
  rcases ((h.owned.linked.store y s hs).links x hx).2 n hn with hp | hhold
  · exact hp
  · simp [hnone] at hhold

/-- A reader comes to nothing below a child that the block does not show. -/
theorem not_below_of_seen (h : Writable ov d b) (hn : d.node? id = some n)
    (hp : n.parent = some b) (hgone : id ∈ d.shown b → id ∈ gone) (hx : Seen d gone x) :
    ¬ Below d id x := by
  induction hx with
  | root => exact h.owned.linked.not_below_root (h.owned.linked.ne_root_of_parent hn hp)
  | @entry y x _ hmem hnot ih =>
    intro hb
    obtain ⟨s, hs, e, he, -, rfl⟩ := mem_shown.mp hmem
    obtain ⟨m, hm, -⟩ := (h.owned.entry y s e hs he).owner
    have hmain : Writable ov d e.node := ⟨h.owned, (h.main.step hn hp).trans hb⟩
    have hpar := hmain.parent_eq_of_listed hs (Store.mem_nodes_of_mem he) hm
    rcases hb.eq_or_parent hm hpar with rfl | hb
    · rw [hn] at hm
      cases hm
      rw [hp] at hpar
      cases hpar
      exact hnot (hgone hmem)
    · exact ih hb

/-- With a dropped child a reader loses its subtree, if the child was visible at all. -/
theorem keeps_drop (h : Writable ov d b) (hn : d.node? id = some n) (hp : n.parent = some b)
    (hgone : id ∈ d.shown b → id ∈ gone) (hsub : ∀ x ∈ gone, x = id) :
    Keeps gone d ((d.purge b id).release id) where
  look x hx := by
    have hb := h.not_below_of_seen hn hp hgone hx
    rw [(h.drop hn hp).nodes x (by simpa using hb)]
  shown x hx := by
    have hb := h.not_below_of_seen hn hp hgone hx
    have hchild : Writable ov d id := ⟨h.owned, h.main.step hn hp⟩
    by_cases hxb : x = b
    · subst hxb
      rw [Document.shown, h.store?_drop_parent hn hp]
      cases hs : d.store? x with
      | none => simp [Document.shown, hs]
      | some s =>
        have hshown : d.shown x = s.shown := by simp [Document.shown, hs]
        rw [hshown] at hgone ⊢
        refine (Store.shown_purge (h.owned.linked.store x s hs).nodup id).trans
          (List.filter_congr fun y hy ↦ ?_)
        by_cases hyid : y = id
        · subst hyid
          simp [hgone hy]
        · have hnot : y ∉ gone := fun hmem ↦ hyid (hsub y hmem)
          simp [hyid, hnot]
    · rw [Document.shown, (h.drop hn hp).stores x (by simpa using hb) hxb]
      refine (List.filter_eq_self.mpr fun y hy ↦ ?_).symm
      have hy : y ∉ gone := by
        intro hmem
        rw [hsub y hmem] at hy
        obtain ⟨s, hs, e, he, -, rfl⟩ := mem_shown.mp hy
        have hpar := hchild.parent_eq_of_listed hs (Store.mem_nodes_of_mem he) hn
        rw [hp] at hpar
        exact hxb (Option.some.inj hpar).symm
      simpa using hy

end Writable

end Document

def Report.refusedCreations (r : Report) : List NodeId :=
  (r.failures.filter (·.step = .create)).map (·.node)

namespace Run

variable {σ : Type} {w : Writer σ} {ov : List NodeId} {d : Document} {b id : NodeId}
  {r r' r'' : Run σ}

open Document

def Shows (r r' : Run σ) : Prop :=
  ∃ gone, r'.report.refusedCreations = r.report.refusedCreations ++ gone ∧
    Keeps gone r.document r'.document

theorem Shows.trans (h : Shows r r') (h' : Shows r' r'') : Shows r r'' := by
  obtain ⟨gone, hr, hk⟩ := h
  obtain ⟨gone', hr', hk'⟩ := h'
  exact ⟨gone ++ gone', by rw [hr', hr, List.append_assoc], hk.trans hk'⟩

theorem Shows.of_keeps (hr : r'.report.refusedCreations = r.report.refusedCreations)
    (hk : Keeps [] r.document r'.document) : Shows r r' := ⟨[], by simp [hr], hk⟩

theorem refusedCreations_fail (w : Writer σ) (r : Run σ) (call : Call) (message : String) :
    (r.fail w call message).report.refusedCreations =
      r.report.refusedCreations ++ if call.step = .create then [call.target.id] else [] := by
  simp only [fail, Report.refusedCreations, List.filter_append, List.map_append]
  split <;> simp_all

theorem not_shown (h : Writable ov d b) (hid : id ∈ d.inState b .toBeRemoved) : id ∉ d.shown b := by
  intro hmem
  obtain ⟨s, hs, e, he, hv, hn⟩ := mem_shown.mp hmem
  have hst := h.owned.linked.state_of_mem_inState hid hs he hn
  simp [Entry.isVisible, hst, EntryState.isVisible] at hv

theorem Shows.delete (h : Writable ov r.document b)
    (hid : id ∈ r.document.inState b .toBeRemoved) : Shows r (r.delete w b id) := by
  have hgone : id ∈ r.document.shown b → id ∈ [] := fun hmem ↦ absurd hmem (not_shown h hid)
  have hstep := Run.deletion w b id r
  generalize r.delete w b id = r' at hstep
  cases hstep with
  | foreign hforeign =>
    obtain ⟨n, hn, hp⟩ := isOwnedBy_iff.mp (h.isOwnedBy_of_inState (by simp) hid)
    exact absurd hp (hforeign n hn)
  | unwritten hn hp => exact .of_keeps rfl (h.keeps_drop hn hp hgone (by simp))
  | refused =>
    exact .of_keeps ((refusedCreations_fail w r _ _).trans (by simp [request])) (.refl _)
  | deleted hn hp => exact .of_keeps rfl (h.keeps_drop hn hp hgone (by simp))

theorem Shows.create (h : Writable ov r.document b)
    (hid : id ∈ r.document.inState b .toBeAdded) : Shows r (r.create w b id) := by
  have hown := h.isOwnedBy_of_inState (by simp) hid
  have hstep := Run.creation w b id r
  generalize r.create w b id = r' at hstep
  cases hstep with
  | dead => exact .of_keeps rfl (.refl _)
  | @refused n _ hn =>
    obtain ⟨m, hm, hp⟩ := isOwnedBy_iff.mp hown
    refine ⟨[id], (refusedCreations_fail w r _ _).trans ?_,
      h.keeps_drop hm hp (fun _ ↦ List.mem_cons_self) (by simp)⟩
    simp [request, target]
  | @created n range hn =>
    have hlook : Keeps [] r.document (r.document.modifyNode id (·.createdAt range)) :=
      .modifyNode fun n hn ↦ Node.look_createdAt (h.owned.linked.node id n hn) range
    refine .of_keeps rfl (hlook.trans (.modifyStore fun s hs ↦ ?_))
    refine Store.shown_modifyEntry (fun _ ↦ rfl) fun e he hn ↦ ?_
    have hst := h.owned.linked.state_of_mem_inState hid hs he hn
    simp [Entry.createdAt, Entry.isVisible, hst, EntryState.isVisible]

theorem Shows.relocate (h : Writable ov r.document b)
    (hid : id ∈ r.document.inState b .moved) : Shows r (r.relocate w b id) := by
  have hstep := Run.relocating w b id r
  generalize r.relocate w b id = r' at hstep
  cases hstep with
  | dead => exact .of_keeps rfl (.refl _)
  | refused =>
    exact .of_keeps ((refusedCreations_fail w r _ _).trans (by simp [relocation, request]))
      (.refl _)
  | relocated =>
    refine .of_keeps rfl (.modifyStore fun s hs ↦ ?_)
    refine Store.shown_modifyEntry (fun _ ↦ rfl) fun e he hn ↦ ?_
    have hst := h.owned.linked.state_of_mem_inState hid hs he hn
    simp [Entry.relocated, Entry.isVisible, hst, EntryState.isVisible]

theorem Shows.flush {inner : NodeId → Run σ → Run σ} (h : Writable ov r.document b)
    (hinner : Shows r (inner id { r with clean := true })) : Shows r (r.flush w inner b id) := by
  have hstep := Run.flushing w inner b id r
  generalize r.flush w inner b id = r' at hstep
  cases hstep with
  | idle => exact .of_keeps rfl (.refl _)
  | inside => exact hinner
  | settled => exact hinner.trans (.of_keeps rfl (.modifyNode fun _ _ ↦ rfl))
  | refused =>
    exact .of_keeps ((refusedCreations_fail w r _ _).trans (by simp [request])) (.refl _)
  | flushed =>
    exact .of_keeps rfl (.modifyNode fun n hn ↦ Node.look_commit (h.owned.linked.node id n hn))

theorem Shows.foldl {A : Document → NodeId → Prop} {f : Run σ → NodeId → Run σ} {l : List NodeId}
    (h : Advances ov b A f)
    (hf : ∀ r id, Writable ov r.document b → A r.document id → Shows r (f r id)) (hl : l.Nodup)
    (hw : Writable ov r.document b) (ha : ∀ id ∈ l, A r.document id) :
    Writable ov (l.foldl f r).document b ∧ Shows r (l.foldl f r) := by
  obtain ⟨hw', -, hq⟩ := h.foldl (Q := fun r _ r' ↦ Shows r r') (fun r ↦ .of_keeps rfl (.refl _))
    (fun r id _ _ hw hid _ _ _ _ hq ↦ (hf r id hw hid).trans hq) hl hw ha
  exact ⟨hw', hq⟩

theorem Shows.block (w : Writer σ) (fuel : Nat) (b : NodeId) (r : Run σ)
    (h : Writable ov r.document b) : Shows r (r.block w fuel b) := by
  induction fuel generalizing b r with
  | zero => exact .of_keeps rfl (.refl _)
  | succ fuel ih =>
    obtain ⟨h₁, s₁⟩ := Shows.foldl (advances_delete w ov b) (fun _ _ hw hid ↦ .delete hw hid)
      (h.inState_nodup _) h fun _ hid ↦ hid
    obtain ⟨h₂, s₂⟩ := Shows.foldl (advances_create w ov b) (fun _ _ hw hid ↦ .create hw hid)
      (h₁.inState_nodup _) h₁ fun _ hid ↦ hid
    obtain ⟨h₃, s₃⟩ := Shows.foldl (advances_flush w (block_confined w fuel) b)
      (fun r id hw hid ↦ .flush hw (ih id { r with clean := true }
        (hw.child (hw.isOwnedBy_of_placeable hid))))
      h₂.placeable_nodup h₂ fun _ hid ↦ hid
    obtain ⟨-, s₄⟩ := Shows.foldl (advances_relocate w ov b) (fun _ _ hw hid ↦ .relocate hw hid)
      (h₃.inState_nodup _) h₃ fun _ hid ↦ hid
    have hphases : Shows r (r.phases w fuel b) := ((s₁.trans s₂).trans s₃).trans s₄
    rw [block_succ]
    exact hphases.trans ⟨[], by simp, .modifyStore fun s _ ↦ s.shown_settle⟩

end Run

namespace Document

variable {σ : Type} {ov : List NodeId} {d d' d'' : Document} {b o : NodeId}

/-- From `d` to `d'` nothing has moved or gone that a reader could notice, and nothing at all has
changed beside the overlays. -/
structure Settles (ov : List NodeId) (d d' : Document) : Prop where
  owned : Owned False ov (fun _ ↦ False) d'
  posts : ∀ i, (d'.node? i).map post = (d.node? i).map post
  keeps : Keeps [] d d'
  beside : ∀ y, (∀ o ∈ ov, ¬ Below d o y) → d'.node? y = d.node? y ∧ d'.store? y = d.store? y

theorem Settles.refl (h : Owned False ov (fun _ ↦ False) d) : Settles ov d d :=
  ⟨h, fun _ ↦ rfl, .refl d, fun _ _ ↦ ⟨rfl, rfl⟩⟩

theorem Settles.trans (h : Settles ov d d') (h' : Settles ov d' d'') : Settles ov d d'' where
  owned := h'.owned
  posts i := (h'.posts i).trans (h.posts i)
  keeps := h.keeps.trans h'.keeps
  beside y hy := by
    obtain ⟨hn, hs⟩ := h.beside y hy
    obtain ⟨hn', hs'⟩ := h'.beside y fun o ho hb ↦ hy o ho ((Below.congr h.posts).mp hb)
    exact ⟨hn'.trans hn, hs'.trans hs⟩

theorem Settles.modifyNode {i : NodeId} {f : Node → Node} (hi : o ∈ ov) (hb : Below d o i)
    (ho : Owned False ov (fun _ ↦ False) (d.modifyNode i f)) (hf : ∀ n, post (f n) = post n)
    (hlook : ∀ n, d.node? i = some n → (f n).look = n.look) : Settles ov d (d.modifyNode i f) := by
  refine ⟨ho, map_node?_modifyNode fun n _ ↦ hf n, .modifyNode hlook, fun y hy ↦ ⟨?_, rfl⟩⟩
  rw [node?_modifyNode, if_neg]
  rintro rfl
  exact hy o hi hb

theorem Settles.foldl {f : Document → NodeId → Document} (l : List NodeId)
    (h : Owned False ov (fun _ ↦ False) d) (hb : Below d o b)
    (hf : ∀ d id, Owned False ov (fun _ ↦ False) d → Below d o b → Settles ov d (f d id)) :
    Settles ov d (l.foldl f d) := by
  refine List.foldlRecOn (motive := Settles ov d) l f (.refl h) fun d' hs id _ ↦ ?_
  exact hs.trans (hf d' id hs.owned ((Below.congr hs.posts).mpr hb))

/-- In an overlay nothing is removed, so that settling it takes nothing away. -/
theorem Settles.settleWithin (h : Owned False ov (fun _ ↦ False) d) (ho : o ∈ ov)
    (hb : Below d o b) (fuel : Nat) : Settles ov d (d.settleWithin fuel b) := by
  induction fuel generalizing d b with
  | zero => exact .refl h
  | succ fuel ih =>
    have hnone : d.inState b .toBeRemoved = [] := by
      refine List.eq_nil_iff_forall_not_mem.mpr fun id hid ↦ ?_
      obtain ⟨s, hs, e, he, hst, -⟩ := mem_inState.mp hid
      exact (h.entry b s e hs he).calm hst o ho hb
    have hall : Settles ov d (d.modifyStore b Store.settleAll) := by
      refine ⟨h.settleAll b, fun _ ↦ rfl, .modifyStore fun s _ ↦ s.shown_settleAll,
        fun y hy ↦ ⟨rfl, ?_⟩⟩
      rw [store?_modifyStore, if_neg]
      rintro rfl
      exact hy o ho hb
    have hchild : ∀ d id, Owned False ov (fun _ ↦ False) d → Below d o b → Settles ov d
        (if !d.isOwnedBy id b then d
          else if (d.store? id).isSome then d.settleWithin fuel id
          else d.modifyNode id (·.commit.markWritten)) := by
      intro d id hd hb
      split
      · exact .refl hd
      · next hown =>
        obtain ⟨n, hn, hp⟩ := isOwnedBy_iff.mp (by simpa using hown)
        split
        · exact ih hd (hb.step hn hp)
        · exact .modifyNode ho (hb.step hn hp) (hd.commit id)
            (fun n ↦ congrArg Prod.fst (place_commit n))
            fun n hn ↦ Node.look_commit (hd.linked.node id n hn)
    have hfold := Settles.foldl ((d.entries b).map (·.node)) hall.owned
      ((Below.congr hall.posts).mpr hb) hchild
    rw [Document.settleWithin, hnone, List.foldl_nil]
    have hend := hall.trans hfold
    exact hend.trans (.modifyNode ho ((Below.congr hend.posts).mpr hb) (hend.owned.markWritten b)
      (fun _ ↦ rfl) fun _ _ ↦ rfl)

theorem Settles.overlays (h : Owned False ov (fun _ ↦ False) d) (hov : ∀ o ∈ d.overlays, o ∈ ov) :
    Settles ov d d.settleOverlays :=
  settleOverlays_induction (.refl h) fun _ fuel o ho hs ↦
    hs.trans (.settleWithin hs.owned (hov o ho) .refl fuel)

theorem shows_writeMain (h : Owned False ov (fun _ ↦ False) d) (w : Writer σ) (st : σ) :
    Run.Shows { document := d, writer := st } (d.writeMain w st) := by
  have hblock := Run.Shows.block w d.nodes.size root { document := d, writer := st } ⟨h, .refl⟩
  unfold Document.writeMain
  split
  · refine hblock.trans (.of_keeps rfl ?_)
    simp only
    split
    · exact .modifyNode fun _ _ ↦ rfl
    · exact .refl _
  · exact .of_keeps rfl (.refl d)

/-- A run shows a reader what was there before, without the subtrees whose creation was refused. No
other refusal makes a difference. -/
theorem snapshot_apply (hd : Reached InMainTree d) (w : Writer σ) (st : σ) :
    (d.apply w st).document.snapshot = d.snapshotWithout (d.apply w st).report.refusedCreations ∧
    ((d.apply w st).report.refusedCreations = [] →
      (d.apply w st).document.snapshot = d.snapshot) := by
  have ho : Owned False d.overlays (fun _ ↦ False) d := hd.owned fun _ _ ha ↦ ⟨ha, False.elim⟩
  obtain ⟨gone, hr, hmain⟩ := shows_writeMain ho w st
  have hgone : (d.apply w st).report.refusedCreations = gone := by
    rw [apply_eq]
    exact hr
  have hover : Settles d.overlays (d.writeMain w st).document
      (d.writeMain w st).document.settleOverlays := by
    obtain ⟨hown, hi⟩ := ho.writeMain w st
    exact .overlays hown fun o hmem ↦ hi.overlays ▸ hmem
  have hkeeps : Keeps gone d (d.apply w st).document := by
    have hall := hmain.trans hover.keeps
    rw [apply_eq]
    rwa [List.append_nil] at hall
  have hsnap := hkeeps.snapshot (ho.apply w st).2
  refine ⟨hgone ▸ hsnap, fun hnone ↦ ?_⟩
  rw [hsnap, ← hgone, hnone, snapshotWithout_nil]

/-- The staged block `5` is refused and goes with its literal; the value set elsewhere is still
there. -/
theorem snapshot_apply_refused_creation :
    Reached InMainTree stagedDocument ∧
    (stagedDocument.apply (.refusing [(.create, "signing")]) 0).document.snapshot =
      stagedDocument.snapshotWithout [5] := by
  have hd : Reached InMainTree stagedDocument := reached_stagedDocument.mono fun _ _ h ↦ h.1
  have hgone : (stagedDocument.apply (.refusing [(.create, "signing")])
      0).report.refusedCreations = [5] := by decide
  have hsnap := (snapshot_apply hd (.refusing [(.create, "signing")]) 0).1
  rw [hgone] at hsnap
  exact ⟨hd, hsnap⟩

end Document

end BuildScript
