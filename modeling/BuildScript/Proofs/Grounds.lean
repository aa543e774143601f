import BuildScript.Proofs.Borrowing

namespace BuildScript

def Entry.IsDue (e : Entry) : Step → Prop
  | .delete => e.state = .toBeRemoved ∧ e.restore ≠ some .toBeAdded
  | .create => e.state = .toBeAdded
  | .flush => e.state = .existing ∨ e.state = .moved
  | .relocate => e.state = .moved

def Log.Each (P : Log → Call → Prop) (log : Log) : Prop :=
  ∀ before p after, log = before ++ p :: after → P before p.1

namespace Log.Each

variable {P Q : Log → Call → Prop} {log log' : Log} {call : Call}

theorem nil : Each P [] := by simp [Each]

theorem mono (h : Each P log) (hPQ : ∀ log call, P log call → Q log call) : Each Q log :=
  fun before p after heq ↦ hPQ before p.1 (h before p after heq)

theorem concat (h : Each P log) (h' : Each (fun before call ↦ P (log ++ before) call) log') :
    Each P (log ++ log') := by
  intro before p after heq
  rcases List.append_eq_append_iff.mp heq with ⟨rest, rfl, hrest⟩ | ⟨rest, rfl, hrest⟩
  · exact h' rest p after hrest
  · cases rest with
    | nil =>
      have hp := h' [] p after hrest.symm
      simpa using hp
    | cons q rest =>
      rw [List.cons_append, List.cons.injEq] at hrest
      obtain ⟨rfl, -⟩ := hrest
      exact h before p rest rfl

theorem append (h : Each P log) (hc : P log call) (refusal : Option String) :
    Each P (log ++ [(call, refusal)]) := by
  refine h.concat fun before p after heq ↦ ?_
  obtain ⟨rfl, hp⟩ := List.singleton_eq_append_iff.mp heq |>.resolve_right (by simp)
  cases hp
  simpa using hc

end Log.Each

namespace Document

variable {d d' : Document} {b id x : NodeId} {n : Node} {s : Store} {e : Entry} {log log' : Log}
  {call : Call}

/-- Why a call is made after the calls in `log`: below the root of `d` there is a block that owns
the node, and there has been a moment in the run when the step was due for the node's entry. -/
def Grounded (d : Document) (log : Log) (call : Call) : Prop :=
  Below d root call.target.block ∧
    ∃ d₁ s e n, OnlyUnstages (fun _ x ↦ x ∈ Log.accepted .create log) d d₁ ∧
      d₁.store? call.target.block = some s ∧ e ∈ s.entries ∧ e.node = call.target.id ∧
      d₁.node? e.node = some n ∧ n.parent = some call.target.block ∧ e.IsDue call.step

def AllGrounded (d : Document) (log : Log) : Prop :=
  ∀ before p after, log = before ++ p :: after → Grounded d before p.1

theorem AllGrounded.append (h : AllGrounded d log) (hc : Grounded d log call)
    (refusal : Option String) : AllGrounded d (log ++ [(call, refusal)]) :=
  Log.Each.append h hc refusal

theorem Grounded.below (h : Grounded d log call) :
    d.isLive call.target.id ∧ Below d root call.target.id := by
  obtain ⟨hb, d₁, s, e, n, hc, -, -, hid, hn, hp, -⟩ := h
  obtain ⟨n₀, hn₀, hp₀⟩ := hc.node e.node n hn
  rw [hid] at hn₀
  exact ⟨isLive_iff.mpr ⟨n₀, hn₀⟩, .step hb hn₀ (hp₀ ▸ hp)⟩

theorem mem_drop (h : Linked d) (hn : d.node? id = some n) (hp : n.parent = some b)
    (hs : d.store? b = some s) (he : e ∈ s.entries) (hne : e.node ≠ id)
    (hlive : ((d.purge b id).release id).isLive e.node) :
    ∃ s', ((d.purge b id).release id).store? b = some s' ∧ e ∈ s'.entries := by
  have hstore : (d.purge b id).store? b = some (s.purge id) := by
    rw [Document.purge, store?_modifyStore, if_pos rfl, hs]
    rfl
  have hb : b ∉ (d.purge b id).ownedSubtree id := fun hmem ↦
    Below.not_parent (h.purge b id).older (show (d.purge b id).node? id = some n from hn) hp
      (ownedSubtree_below hmem)
  obtain ⟨s', hs', hkeep⟩ := mem_store?_foldl_evict hstore hb (h.purge b id).distinct
  refine ⟨s', hs', hkeep e ?_ fun hgone ↦ ?_⟩
  · exact (List.mem_eraseP_of_neg (by simpa using hne)).mpr he
  · obtain ⟨m, hm⟩ := isLive_iff.mp hlive
    rw [Document.release, node?_foldl_evict, if_pos hgone] at hm
    simp at hm

def Removable (b : NodeId) (d : Document) (id : NodeId) : Prop :=
  ∀ n, d.node? id = some n → n.parent = some b → id ∈ d.inState b .toBeRemoved

end Document

namespace Run

open Document

variable {σ : Type} {w : Writer σ} {d : Document} {b id : NodeId} {r r₁ r' : Run (σ × Log)}

theorem removable_delete {i : NodeId} (h : Linked r.document) (hi : Removable b r.document i)
    (hne : i ≠ id) : Removable b (r.delete w.audited b id).document i := by
  have hdrop : ∀ n, r.document.node? id = some n → n.parent = some b →
      Removable b ((r.document.purge b id).release id) i := by
    intro n hn hp m hm hpm
    obtain ⟨m₀, hm₀, hpar⟩ := (Inherits.drop r.document b id).node i m hm
    obtain ⟨s, hs, e, he, hst, hnode⟩ := mem_inState.mp (hi m₀ hm₀ (hpar ▸ hpm))
    obtain ⟨s', hs', he'⟩ := mem_drop h hn hp hs he (hnode ▸ hne)
      (hnode ▸ isLive_iff.mpr ⟨m, hm⟩)
    exact mem_inState.mpr ⟨s', hs', e, he', hst, hnode⟩
  have hd := deletion w.audited b id r
  generalize r.delete w.audited b id = r' at hd
  cases hd with
  | foreign =>
    intro m hm hpm
    obtain ⟨s, hs, e, he, hst, hnode⟩ := mem_inState.mp (hi m hm hpm)
    refine mem_inState.mpr ⟨s.purge id, ?_, e, ?_, hst, hnode⟩
    · simp [Document.purge, hs]
    · exact (List.mem_eraseP_of_neg (by simpa [hnode] using hne)).mpr he
  | unwritten hn hp => exact hdrop _ hn hp
  | refused => exact hi
  | deleted hn hp => exact hdrop _ hn hp

/-- A run that started with the document `d`, all of whose calls so far have their grounds. -/
structure Tracks (d : Document) (r : Run (σ × Log)) : Prop where
  linked : Linked r.document
  borrows : Borrows r.document
  accounted : Accounted r
  onlyUnstages : OnlyUnstages (fun _ x ↦ x ∈ r.report.created) d r.document
  grounded : AllGrounded d r.writer.2

namespace Tracks

theorem start (h : Linked d) (hb : Borrows d) (st : σ) :
    Tracks d { document := d, writer := (st, []) } :=
  ⟨h, hb, rfl, .refl _ d, by simp [AllGrounded]⟩

theorem created (ha : Accounted r) : r.report.created = Log.accepted .create r.writer.2 := by
  rw [ha]
  rfl

theorem next (h : Tracks d r) (hl : Linked r'.document) (ha : Accounted r') (hc : Continues r r')
    (hg : AllGrounded d r'.writer.2) : Tracks d r' :=
  ⟨hl, h.borrows.onlyUnstages hc.onlyUnstages, ha,
    (h.onlyUnstages.mono fun _ _ hx ↦ hc.created hx).trans hc.onlyUnstages, hg⟩

/-- The grounds of a call: the entry of the node at an earlier moment `r₁` of the run. -/
theorem grounds (h : Tracks d r₁) (ha : Accounted r) (hc : Continues r₁ r)
    (hb : Below d root b) {s : Store} {e : Entry} (hs : r₁.document.store? b = some s)
    (he : e ∈ s.entries) {n : Node} (hn : r₁.document.node? e.node = some n)
    (hp : n.parent = some b) {call : Call} (hdue : e.IsDue call.step)
    (hid : call.target.id = e.node) (hblock : call.target.block = b) :
    Grounded d r.writer.2 call := by
  subst hblock
  refine ⟨hb, r₁.document, s, e, n, h.onlyUnstages.mono fun _ x hx ↦ ?_, hs, he, hid.symm, hn,
    hp, hdue⟩
  rw [← created ha]
  exact hc.created hx

theorem owner (h : Tracks d r₁) (hc : Continues r₁ r) {s : Store} {e : Entry}
    (hs : r₁.document.store? b = some s) (he : e ∈ s.entries) (hnot : ¬ e.IsBorrowed) {n : Node}
    (hn : r.document.node? e.node = some n) :
    ∃ n₁, r₁.document.node? e.node = some n₁ ∧ n₁.parent = some b := by
  obtain ⟨n₁, hn₁, -⟩ := hc.onlyUnstages.node e.node n hn
  exact ⟨n₁, hn₁, h.borrows.belongsTo hs he hnot n₁ hn₁⟩

theorem delete (h : Tracks d r) (hb : Below d root b) (hid : Removable b r.document id) :
    Tracks d (r.delete w.audited b id) := by
  have hl := h.linked.delete (w := w.audited) b id
  have ha := h.accounted.delete (w := w) b id
  have hc := Continues.delete (w := w.audited) h.linked b id
  refine h.next hl ha hc ?_
  have hcall : ∀ n, r.document.node? id = some n → n.parent = some b →
      r.document.isNeverWritten b id = false →
      Grounded d r.writer.2 (r.request .delete b id n) := by
    intro n hn hp hnever
    obtain ⟨s, hs, e, he, hst, rfl⟩ := mem_inState.mp (hid n hn hp)
    have hfind := Store.find?_of_mem (h.linked.store b s hs).nodup he
    have hr : e.restore ≠ some .toBeAdded := by
      simpa [isNeverWritten, hs, hfind] using hnever
    have hdue : e.IsDue .delete := ⟨hst, hr⟩
    exact h.grounds h.accounted (.refl r) hb hs he hn hp hdue rfl rfl
  have hd := deletion w.audited b id r
  generalize r.delete w.audited b id = r' at hd
  cases hd with
  | foreign => exact h.grounded
  | unwritten => exact h.grounded
  | refused hn hp hnever => exact h.grounded.append (hcall _ hn hp hnever) _
  | deleted hn hp hnever => exact h.grounded.append (hcall _ hn hp hnever) _

theorem create (h₁ : Tracks d r₁) (hc₁ : Continues r₁ r) (h : Tracks d r) (hb : Below d root b)
    (hid : id ∈ r₁.document.inState b .toBeAdded) (hne : id ≠ root)
    (hends : EndsIn b .toBeAdded r.document id) : Tracks d (r.create w.audited b id) := by
  have hl := h.linked.create (w := w.audited) b hne
  have ha := h.accounted.create (w := w) b id
  have hc := (Continues.create (w := w.audited) h.linked hends).1
  refine h.next hl ha hc ?_
  obtain ⟨s, hs, e, he, hst, rfl⟩ := mem_inState.mp hid
  have hnot : ¬ e.IsBorrowed := by simp [Entry.IsBorrowed, hst]
  have hcall : ∀ n, r.document.node? e.node = some n →
      Grounded d r.writer.2 (r.request .create b e.node n) := by
    intro n hn
    obtain ⟨n₁, hn₁, hp⟩ := h₁.owner hc₁ hs he hnot hn
    exact h₁.grounds h.accounted hc₁ hb hs he hn₁ hp hst rfl rfl
  have hd := creation w.audited b e.node r
  generalize r.create w.audited b e.node = r' at hd
  cases hd with
  | dead => exact h.grounded
  | refused hn => exact h.grounded.append (hcall _ hn) _
  | created _ hn => exact h.grounded.append (hcall _ hn) _

theorem relocate (h₁ : Tracks d r₁) (hc₁ : Continues r₁ r) (h : Tracks d r) (hb : Below d root b)
    (hid : id ∈ r₁.document.inState b .moved) (hends : EndsIn b .moved r.document id) :
    Tracks d (r.relocate w.audited b id) := by
  have hl := h.linked.relocate (w := w.audited) b id
  have ha := h.accounted.relocate (w := w) b id
  have hc := (Continues.relocate (w := w.audited) hends).1
  refine h.next hl ha hc ?_
  obtain ⟨s, hs, e, he, hst, rfl⟩ := mem_inState.mp hid
  have hnot : ¬ e.IsBorrowed := by simp [Entry.IsBorrowed, hst]
  have hcall : ∀ n, r.document.node? e.node = some n →
      Grounded d r.writer.2 (r.relocation b e.node n) := by
    intro n hn
    obtain ⟨n₁, hn₁, hp⟩ := h₁.owner hc₁ hs he hnot hn
    exact h₁.grounds h.accounted hc₁ hb hs he hn₁ hp hst rfl rfl
  have hd := relocating w.audited b e.node r
  generalize r.relocate w.audited b e.node = r' at hd
  cases hd with
  | dead => exact h.grounded
  | refused hn => exact h.grounded.append (hcall _ hn) _
  | relocated hn => exact h.grounded.append (hcall _ hn) _

theorem restart (h : Tracks d r) : Tracks d { r with clean := true } :=
  ⟨h.linked, h.borrows, h.accounted, h.onlyUnstages, h.grounded⟩

/-- Once the creations are over, what has a place of its own and lives is due for a flush. -/
theorem due (h₁ : Tracks d r₁) (hc₁ : Continues r₁ r) (ha : Accounted r) (hb : Below d root b)
    (hadded : ∀ s e, r₁.document.store? b = some s → e ∈ s.entries → e.state = .toBeAdded →
      r₁.document.node? e.node = none)
    (hid : id ∈ r₁.document.placeable b) {n : Node} (hn : r.document.node? id = some n) :
    Grounded d r.writer.2 (r.request .flush b id n) := by
  obtain ⟨s, hs, e, he, hplace, rfl⟩ := mem_placeable.mp hid
  obtain ⟨n₁, hn₁, hp⟩ := h₁.owner hc₁ hs he (fun hbor ↦ hbor.not_isPlaceable hplace) hn
  have hdue : e.IsDue .flush := by
    have hne : e.state ≠ .toBeAdded := fun hst ↦ by simp [hadded s e hs he hst] at hn₁
    revert hplace
    cases hst : e.state <;>
      simp_all [Entry.isPlaceable, EntryState.isPlaceable, Entry.IsDue]
  exact h₁.grounds ha hc₁ hb hs he hn₁ hp hdue rfl rfl

theorem flush {fuel : Nat} (h₁ : Tracks d r₁) (hc₁ : Continues r₁ r) (h : Tracks d r)
    (hb : Below d root b)
    (hin : ∀ id (r : Run (σ × Log)), Tracks d r → Below d root id →
      Tracks d (r.block w.audited fuel id))
    (hadded : ∀ s e, r₁.document.store? b = some s → e ∈ s.entries → e.state = .toBeAdded →
      r₁.document.node? e.node = none)
    (hid : id ∈ r₁.document.placeable b) :
    Tracks d (r.flush w.audited (block w.audited fuel) b id) := by
  have hl := h.linked.flush (w := w.audited) b id fun i r' h' ↦ h'.block w.audited fuel i
  have ha := h.accounted.flush (w := w) (fun i r' ha' ↦ ha'.block w fuel i) b id
  have hc := Continues.flush (w := w.audited) b id
    (.block w.audited fuel id { r with clean := true } h.linked)
  refine h.next hl ha hc ?_
  have hcall : ∀ n, r.document.node? id = some n →
      Grounded d r.writer.2 (r.request .flush b id n) :=
    fun n hn ↦ h₁.due hc₁ h.accounted hb hadded hid hn
  have hinner : ∀ n, r.document.node? id = some n →
      Tracks d (block w.audited fuel id { r with clean := true }) :=
    fun n hn ↦ hin id _ h.restart (hcall n hn).below.2
  have hd := flushing w.audited (block w.audited fuel) b id r
  generalize r.flush w.audited (block w.audited fuel) b id = r' at hd
  cases hd with
  | idle => exact h.grounded
  | inside hn => exact (hinner _ hn).grounded
  | settled hn => exact (hinner _ hn).grounded
  | refused hn => exact h.grounded.append (hcall _ hn) _
  | flushed hn => exact h.grounded.append (hcall _ hn) _

theorem foldl {P : Document → NodeId → Prop} {f : Run (σ × Log) → NodeId → Run (σ × Log)}
    {l : List NodeId}
    (hf : ∀ (r : Run (σ × Log)) id, Tracks d r → Continues r₁ r → P r.document id →
      Tracks d (f r id) ∧ Continues r (f r id) ∧ ∀ i, i ≠ id → P r.document i →
        P (f r id).document i)
    (hl : l.Nodup) (h : Tracks d r) (hc : Continues r₁ r) (hP : ∀ id ∈ l, P r.document id) :
    Tracks d (l.foldl f r) := by
  induction l generalizing r with
  | nil => exact h
  | cons id l ih =>
    obtain ⟨hnot, hl⟩ := List.nodup_cons.mp hl
    obtain ⟨h', hunstages, hkeep⟩ := hf r id h hc (hP id List.mem_cons_self)
    exact ih hl h' (hc.trans hunstages) fun i hi ↦
      hkeep i (fun he ↦ hnot (he ▸ hi)) (hP i (List.mem_cons_of_mem _ hi))

theorem deletions (h : Tracks d r) (hb : Below d root b) : Tracks d (r.deletions w.audited b) :=
  foldl (P := fun d id ↦ Removable b d id)
    (fun _ id h _ hid ↦ ⟨h.delete hb hid, .delete h.linked b id,
      fun _ hi hP ↦ removable_delete h.linked hP hi⟩)
    (h.linked.inState_nodup b .toBeRemoved) h (.refl r) fun _ hid _ _ _ ↦ hid

theorem creations (h : Tracks d r) (hb : Below d root b) : Tracks d (r.creations w.audited b) := by
  refine foldl (P := fun d id ↦ id ∈ r.document.inState b .toBeAdded ∧ EndsIn b .toBeAdded d id)
    (fun r' id h' hc hid ↦ ?_) (h.linked.inState_nodup b .toBeAdded) h (.refl r)
    fun id hid ↦ ⟨hid, h.linked.endsIn hid⟩
  obtain ⟨hunstages, hspare⟩ := Continues.create (w := w.audited) h'.linked hid.2
  exact ⟨h.create hc h' hb hid.1 (h.linked.mem_inState_ne_root hid.1) hid.2, hunstages,
    fun i hi hP ↦ ⟨hP.1, hP.2.spared hspare hi⟩⟩

theorem relocations (h : Tracks d r) (hb : Below d root b) :
    Tracks d (r.relocations w.audited b) := by
  refine foldl (P := fun d id ↦ id ∈ r.document.inState b .moved ∧ EndsIn b .moved d id)
    (fun r' id h' hc hid ↦ ?_) (h.linked.inState_nodup b .moved) h (.refl r)
    fun id hid ↦ ⟨hid, h.linked.endsIn hid⟩
  obtain ⟨hunstages, hspare⟩ := Continues.relocate (w := w.audited) hid.2
  exact ⟨h.relocate hc h' hb hid.1 hid.2, hunstages, fun i hi hP ↦ ⟨hP.1, hP.2.spared hspare hi⟩⟩

theorem flushes {fuel : Nat} (h : Tracks d r) (hb : Below d root b)
    (hin : ∀ id (r : Run (σ × Log)), Tracks d r → Below d root id →
      Tracks d (r.block w.audited fuel id))
    (hadded : ∀ s e, r.document.store? b = some s → e ∈ s.entries → e.state = .toBeAdded →
      r.document.node? e.node = none) : Tracks d (r.flushes w.audited fuel b) :=
  foldl (P := fun _ id ↦ id ∈ r.document.placeable b)
    (fun r' id h' hc hid ↦ ⟨h.flush hc h' hb hin hadded hid,
      .flush b id (.block w.audited fuel id { r' with clean := true } h'.linked), fun _ _ hP ↦ hP⟩)
    (h.linked.placeable_nodup b) h (.refl r) fun _ hid ↦ hid

theorem settle (h : Tracks d r) (b : NodeId) :
    Tracks d { r with document := r.document.modifyStore b Store.settle } :=
  h.next (h.linked.settle b) h.accounted (.settle r b) h.grounded

theorem block (w : Writer σ) (fuel : Nat) (b : NodeId) (r : Run (σ × Log)) (h : Tracks d r)
    (hb : Below d root b) : Tracks d (r.block w.audited fuel b) := by
  induction fuel generalizing b r with
  | zero => exact h
  | succ fuel ih =>
    have hdel := h.deletions (w := w) hb
    have hcre := hdel.creations (w := w) hb
    have hflu := hcre.flushes hb ih
      fun s e hs he hst ↦ added_creations hdel.linked b hs he hst
    have hrel : Tracks d (r.phases w.audited fuel b) := hflu.relocations (w := w) hb
    rw [block_succ]
    exact hrel.settle b

end Tracks

end Run

namespace Document

variable {σ : Type} {d : Document} {x : NodeId}

theorem allGrounded_audit (h : Linked d) (hb : Borrows d) (w : Writer σ) (st : σ) :
    AllGrounded d (d.audit w st) := by
  have hstart := Run.Tracks.start h hb st
  rw [audit_eq, writeMain]
  split
  · exact (hstart.block w d.nodes.size root _ .refl).grounded
  · exact hstart.grounded

theorem getLast?_lineageWithin (h : Linked d) {fuel : Nat} (hx : root ∈ d.lineageWithin fuel x) :
    (d.lineageWithin fuel x).getLast? = some root := by
  induction fuel generalizing x with
  | zero => simp [lineageWithin] at hx
  | succ fuel ih =>
    obtain ⟨m, hm, -, hpm, -⟩ := h.root
    rw [lineageWithin] at hx ⊢
    cases hn : d.node? x with
    | none => simp [hn] at hx
    | some n =>
      simp only [hn, List.mem_cons] at hx ⊢
      rcases hx with rfl | hx
      · rw [hm] at hn
        cases hn
        simp [hpm]
      · cases hp : n.parent with
        | none => simp [hp] at hx
        | some p =>
          simp only [hp] at hx ⊢
          rw [List.getLast?_cons, ih hx]
          rfl

/-- Nothing of an overlay reaches the writer, as long as no node is replaced again after its
removal from the blocks that have borrowed it: the lineage of a node that a call is about ends at
the root. -/
theorem getLast?_lineage_of_call (hd : Reached ReplacesOnce d) (w : Writer σ) (st : σ) :
    ∀ p ∈ d.audit w st, (d.lineage p.1.target.id).getLast? = some root := by
  intro p hp
  have hl := hd.linked
  obtain ⟨before, after, hlog⟩ := List.append_of_mem hp
  obtain ⟨hlive, hbelow⟩ := (allGrounded_audit hl (hd.borrows fun _ _ h ↦ h) w st before p after
    hlog).below
  refine getLast?_lineageWithin hl ((mem_lineage hl.older).mpr ⟨hlive, ?_, hbelow⟩)
  obtain ⟨m, hm, -⟩ := hl.root
  exact isLive_iff.mpr ⟨m, hm⟩

def replacedDocument (times : Nat) : Document :=
  ((Edit.setValue 2 (.integer 24)).run (Nat.repeat (fun d ↦
    ((Edit.replace 3 4 (.literal ⟨["version"]⟩ (.integer 2))).run d).2) times
      applicationDocument)).2

/-- After one replacement only the value is written. -/
theorem getLast?_lineage_of_call_replaced :
    Reached ReplacesOnce (replacedDocument 1) ∧
    ((replacedDocument 1).audit .noop ()).briefs = [⟨.flush, 2, 1⟩] ∧
    ∀ p ∈ (replacedDocument 1).audit .noop (),
      ((replacedDocument 1).lineage p.1.target.id).getLast? = some root := by
  have happ : Reached ReplacesOnce applicationDocument :=
    .merge _ (.edit _ (.new _ _) trivial)
  have honce : ∀ n ∈ applicationDocument.node? 4, ∀ b ∈ n.holders,
      4 ∉ applicationDocument.inState b .toBeRemoved := by decide
  have hd : Reached ReplacesOnce (replacedDocument 1) :=
    .edit _ (.edit _ happ honce) trivial
  exact ⟨hd, by decide, getLast?_lineage_of_call hd .noop ()⟩

/-- After two, the second successor `6` of the overlay's literal is created in the root. -/
theorem overlay_written_after_two_replacements :
    (replacedDocument 2).Reachable ∧
    ∃ p ∈ (replacedDocument 2).audit .noop (),
      ((replacedDocument 2).lineage p.1.target.id).getLast? ≠ some root :=
  ⟨.edit _ (.edit _ (.edit _ (.merge _ (.edit _ (.new _ _) trivial)) trivial) trivial) trivial,
    by decide⟩

end Document

end BuildScript
