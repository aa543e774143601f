import BuildScript.Proofs.Apply.Audit
import BuildScript.Proofs.Apply.Frame

namespace BuildScript

/-- What a call is about: the step, the node and the block around it. -/
structure Brief where
  step : Step
  node : NodeId
  block : NodeId
  deriving DecidableEq, Repr

def Call.brief (c : Call) : Brief := ⟨c.step, c.target.id, c.target.block⟩

namespace Log

variable {log log' : Log} {x : NodeId}

def briefs (log : Log) : List Brief := log.map (·.1.brief)

theorem briefs_append (log log' : Log) : briefs (log ++ log') = briefs log ++ briefs log' :=
  List.map_append

theorem refusedCreations_append (log log' : Log) :
    refusedCreations (log ++ log') = refusedCreations log ++ refusedCreations log' :=
  List.filterMap_append

theorem mem_refusedCreations_cons {call : Call} {refusal : Option String} :
    x ∈ refusedCreations ((call, refusal) :: log) ↔
      (call.step = .create ∧ refusal ≠ none ∧ call.target.id = x) ∨ x ∈ refusedCreations log := by
  by_cases hc : call.step = .create ∧ refusal ≠ none
  · simp [refusedCreations, hc, eq_comm]
  · have hnot : ¬ (call.step = .create ∧ refusal ≠ none ∧ call.target.id = x) := fun h ↦
      hc ⟨h.1, h.2.1⟩
    simp [refusedCreations, hc, hnot]

theorem exists_brief_of_refused (h : x ∈ refusedCreations log) :
    ∃ b, ⟨.create, x, b⟩ ∈ briefs log := by
  obtain ⟨⟨call, refusal⟩, hmem, hx⟩ := List.mem_filterMap.mp h
  simp only at hx
  split at hx
  · next hc =>
    refine ⟨call.target.block, List.mem_map.mpr ⟨(call, refusal), hmem, ?_⟩⟩
    rw [← Option.some.inj hx, ← hc.1]
    rfl
  · simp at hx

theorem refusedCreations_eq_nil (h : ∀ p ∈ log, p.2 = none) : refusedCreations log = [] := by
  refine List.filterMap_eq_nil_iff.mpr fun p hp ↦ ?_
  simp [h p hp]

end Log

namespace Document

variable {ov l gone : List NodeId} {d : Document} {b id x y : NodeId} {c : Brief} {fuel : Nat}

/-- The calls for a child that is to be flushed: those inside a container, or one for a leaf that
has not just been created. -/
def flushPlan (d : Document) (inner : NodeId → List Brief) (b id : NodeId) : List Brief :=
  match d.node? id with
  | none => []
  | some n =>
    if !n.modified then []
    else if n.isContainer then inner id
    else if id ∈ d.inState b .toBeAdded then []
    else [⟨.flush, id, b⟩]

def plan (d : Document) : Nat → NodeId → List Brief
  | 0, _ => []
  | fuel + 1, b =>
    ((d.inState b .toBeRemoved).filter (!d.isNeverWritten b ·)).map (⟨.delete, ·, b⟩) ++
    (d.inState b .toBeAdded).map (⟨.create, ·, b⟩) ++
    (d.placeable b).flatMap (d.flushPlan (d.plan fuel) b) ++
    (d.inState b .moved).map (⟨.relocate, ·, b⟩)

def isSpared (d : Document) (gone : List NodeId) (c : Brief) : Bool :=
  gone.all (· ∉ d.lineage c.block)

theorem isSpared_append (d : Document) (gone gone' : List NodeId) (c : Brief) :
    d.isSpared (gone ++ gone') c = (d.isSpared gone c && d.isSpared gone' c) :=
  List.all_append

theorem mem_flushPlan {inner : NodeId → List Brief} (h : c ∈ d.flushPlan inner b id) :
    (c = ⟨.flush, id, b⟩ ∧ id ∉ d.inState b .toBeAdded) ∨ c ∈ inner id := by
  unfold flushPlan at h
  split at h
  · simp at h
  · split at h
    · simp at h
    · split at h
      · exact .inr h
      · split at h
        · simp at h
        · next hnot => exact .inl ⟨List.mem_singleton.mp h, hnot⟩

theorem mem_plan_succ : c ∈ d.plan (fuel + 1) b ↔
    (∃ id ∈ d.inState b .toBeRemoved, d.isNeverWritten b id = false ∧ ⟨.delete, id, b⟩ = c) ∨
    (∃ id ∈ d.inState b .toBeAdded, ⟨.create, id, b⟩ = c) ∨
    (∃ id ∈ d.placeable b, c ∈ d.flushPlan (d.plan fuel) b id) ∨
    ∃ id ∈ d.inState b .moved, ⟨.relocate, id, b⟩ = c := by
  simp [plan, and_assoc]

theorem plan_below (h : Writable ov d b) (hc : c ∈ d.plan fuel b) :
    Below d b c.block ∧ (c.step = .create → d.isOwnedBy c.node c.block) := by
  induction fuel generalizing b with
  | zero => simp [plan] at hc
  | succ fuel ih =>
    rcases mem_plan_succ.mp hc with ⟨id, hid, -, rfl⟩ | ⟨id, hid, rfl⟩ | ⟨id, hid, hc⟩ |
      ⟨id, hid, rfl⟩
    · exact ⟨.refl, by simp⟩
    · exact ⟨.refl, fun _ ↦ h.isOwnedBy_of_inState (by simp) hid⟩
    · have hown := h.isOwnedBy_of_placeable hid
      rcases mem_flushPlan hc with ⟨rfl, -⟩ | hc
      · exact ⟨.refl, by simp⟩
      · obtain ⟨hb, hcreate⟩ := ih (h.child hown) hc
        obtain ⟨n, hn, hp⟩ := isOwnedBy_iff.mp hown
        exact ⟨(Below.child hn hp).trans hb, hcreate⟩
    · exact ⟨.refl, by simp⟩

theorem plan_writable (h : Writable ov d b) (hc : c ∈ d.plan fuel b) : Writable ov d c.block :=
  ⟨h.owned, h.main.trans (plan_below h hc).1⟩

theorem plan_create_below (h : Writable ov d b) (hc : ⟨.create, x, y⟩ ∈ d.plan fuel b) :
    Below d b x ∧ x ≠ b := by
  obtain ⟨hb, hcreate⟩ := plan_below h hc
  obtain ⟨n, hn, hp⟩ := isOwnedBy_iff.mp (hcreate rfl)
  refine ⟨.step hb hn hp, ?_⟩
  rintro rfl
  exact Below.not_parent h.owned.linked.older hn hp hb

theorem isSpared_iff (h : Writable ov d c.block) :
    d.isSpared gone c = true ↔ ∀ f ∈ gone, ¬ Below d f c.block := by
  have hmem : ∀ f, f ∈ d.lineage c.block ↔ Below d f c.block := by
    intro f
    rw [mem_lineage h.owned.linked.older]
    refine ⟨fun hf ↦ hf.2.2, fun hf ↦ ?_⟩
    have hroot : d.isLive root := by
      obtain ⟨n, hn, -⟩ := h.owned.linked.root
      exact isLive_iff.mpr ⟨n, hn⟩
    refine ⟨h.main.isLive hroot, ?_, hf⟩
    rcases h.main.total hf with hb | hb
    · exact hb.isLive hroot
    · have he : root = f := hb.eq_of_top fun m hm ↦ by
        obtain ⟨n, hn, -, hp, -⟩ := h.owned.linked.root
        rw [hn] at hm
        cases hm
        exact hp
      exact he ▸ hroot
  simp [isSpared, hmem]

theorem nodup_flushPlan {inner : NodeId → List Brief} (h : (inner id).Nodup) :
    (d.flushPlan inner b id).Nodup := by
  unfold flushPlan
  repeat' split
  all_goals simp [h]

theorem flushPlan_block (h : Writable ov d b) (hid : d.isOwnedBy id b)
    (hc : c ∈ d.flushPlan (d.plan fuel) b id) :
    c = ⟨.flush, id, b⟩ ∨ (Below d id c.block ∧ c.block ≠ b) := by
  refine (mem_flushPlan hc).imp (fun hc ↦ hc.1) fun hc ↦ ?_
  have hb := (plan_below (h.child hid) hc).1
  obtain ⟨n, hn, hp⟩ := isOwnedBy_iff.mp hid
  refine ⟨hb, fun he ↦ ?_⟩
  exact Below.not_parent h.owned.linked.older hn hp (he ▸ hb)

theorem flushPlan_disjoint (h : Writable ov d b) (hid : d.isOwnedBy id b)
    (hx : d.isOwnedBy x b) (hne : id ≠ x) :
    (d.flushPlan (d.plan fuel) b id).Disjoint (d.flushPlan (d.plan fuel) b x) := by
  intro c hc hc'
  obtain ⟨n, hn, hp⟩ := isOwnedBy_iff.mp hid
  obtain ⟨m, hm, hp'⟩ := isOwnedBy_iff.mp hx
  rcases flushPlan_block h hid hc with rfl | ⟨hb, hblock⟩
  · rcases flushPlan_block h hx hc' with he | ⟨-, hblock⟩
    · exact hne (congrArg Brief.node he)
    · exact hblock rfl
  · rcases flushPlan_block h hx hc' with rfl | ⟨hb', -⟩
    · exact hblock rfl
    · exact hne (Below.sibling_eq h.owned.linked.older hn hm hp hp' hb hb')

def Within (d : Document) (l gone : List NodeId) : Prop := ∀ f ∈ gone, ∃ i ∈ l, Below d i f

theorem Within.isSpared (hg : d.Within l gone) (h : Writable ov d b)
    (hl : ∀ i ∈ l, d.isOwnedBy i b)
    (hc : c.block = b ∨ ∃ id, id ∉ l ∧ d.isOwnedBy id b ∧ Below d id c.block) :
    d.isSpared gone c = true := by
  have ho := h.owned.linked.older
  have hw : Writable ov d c.block := by
    rcases hc with rfl | ⟨id, -, hid, hb⟩
    · exact h
    · exact ⟨h.owned, (h.child hid).main.trans hb⟩
  rw [isSpared_iff hw]
  intro f hf hfc
  obtain ⟨i, hi, hif⟩ := hg f hf
  obtain ⟨n, hn, hp⟩ := isOwnedBy_iff.mp (hl i hi)
  rcases hc with rfl | ⟨id, hnot, hid, hb⟩
  · exact Below.not_parent ho hn hp (hif.trans hfc)
  · obtain ⟨m, hm, hp'⟩ := isOwnedBy_iff.mp hid
    exact hnot (Below.sibling_eq ho hm hn hp' hp hb (hif.trans hfc) ▸ hi)

/-- The calls of a log are those of a plan that no refused creation takes with it. -/
def Executes (d : Document) (plan : List Brief) (log : Log) : Prop :=
  Log.briefs log = plan.filter (d.isSpared (Log.refusedCreations log))

theorem Executes.of_briefs_eq {plan : List Brief} {log : Log} (h : Log.briefs log = plan)
    (hs : ∀ c ∈ plan, d.isSpared (Log.refusedCreations log) c) : d.Executes plan log := by
  rw [Executes, List.filter_eq_self.mpr hs]
  exact h

theorem Executes.exists_create {plan : List Brief} {log : Log} (h : d.Executes plan log)
    (hx : x ∈ Log.refusedCreations log) : ∃ y, ⟨.create, x, y⟩ ∈ plan := by
  obtain ⟨y, hy⟩ := Log.exists_brief_of_refused hx
  rw [h] at hy
  exact ⟨y, (List.mem_filter.mp hy).1⟩

theorem Executes.append {plan plan' : List Brief} {log log' : Log} (h : d.Executes plan log)
    (h' : d.Executes plan' log') (hs : ∀ c ∈ plan, d.isSpared (Log.refusedCreations log') c)
    (hs' : ∀ c ∈ plan', d.isSpared (Log.refusedCreations log) c) :
    d.Executes (plan ++ plan') (log ++ log') := by
  rw [Executes, Log.briefs_append, h, h', Log.refusedCreations_append, List.filter_append]
  refine congrArg₂ _ (List.filter_congr fun c hc ↦ ?_) (List.filter_congr fun c hc ↦ ?_)
  · rw [isSpared_append, hs c hc, Bool.and_true]
  · rw [isSpared_append, hs' c hc, Bool.true_and]

theorem Executes.within {log : Log} (h : d.Executes (l.flatMap (d.flushPlan (d.plan fuel) b)) log)
    (hw : Writable ov d b) (hl : ∀ i ∈ l, d.isOwnedBy i b) :
    d.Within l (Log.refusedCreations log) := by
  intro x hx
  obtain ⟨y, hy⟩ := h.exists_create hx
  obtain ⟨i, hi, hc⟩ := List.mem_flatMap.mp hy
  refine ⟨i, hi, ?_⟩
  rcases mem_flushPlan hc with ⟨he, -⟩ | hc
  · cases he
  · exact (plan_create_below (hw.child (hl i hi)) hc).1

theorem filter_flatMap_filter {p : NodeId → Bool} {q : Brief → Bool} {g : NodeId → List Brief}
    (h : ∀ id ∈ l, p id = false → ∀ c ∈ g id, q c = false) :
    ((l.filter p).flatMap g).filter q = (l.flatMap g).filter q := by
  induction l with
  | nil => rfl
  | cons id l ih =>
    have ih := ih fun i hi ↦ h i (List.mem_cons_of_mem _ hi)
    cases hp : p id with
    | true =>
      rw [List.filter_cons_of_pos hp, List.flatMap_cons, List.flatMap_cons, List.filter_append,
        List.filter_append, ih]
    | false =>
      have hnil : (g id).filter q = [] :=
        List.filter_eq_nil_iff.mpr fun c hc ↦ by simp [h id List.mem_cons_self hp c hc]
      rw [List.filter_cons_of_neg (by simp [hp]), List.flatMap_cons, List.filter_append, hnil, ih,
        List.nil_append]

theorem nodup_plan (h : Writable ov d b) : (d.plan fuel b).Nodup := by
  induction fuel generalizing b with
  | zero => exact List.nodup_nil
  | succ fuel ih =>
    have hmap : ∀ (step : Step) {l : List NodeId}, l.Nodup →
        (l.map (⟨step, ·, b⟩ : NodeId → Brief)).Nodup := fun step l hl ↦
      hl.map fun x y he ↦ congrArg Brief.node he
    have hflush : ((d.placeable b).flatMap (d.flushPlan (d.plan fuel) b)).Nodup := by
      refine List.nodup_flatMap.mpr ⟨fun id hid ↦ ?_, ?_⟩
      · exact nodup_flushPlan (ih (h.child (h.isOwnedBy_of_placeable hid)))
      · exact h.placeable_nodup.pairwise_of_forall_ne fun id hid x hx hne ↦
          flushPlan_disjoint h (h.isOwnedBy_of_placeable hid) (h.isOwnedBy_of_placeable hx) hne
    have hstep : ∀ c ∈ (d.placeable b).flatMap (d.flushPlan (d.plan fuel) b), c.block = b →
        c.step = .flush := by
      intro c hc hb
      obtain ⟨id, hid, hc⟩ := List.mem_flatMap.mp hc
      rcases flushPlan_block h (h.isOwnedBy_of_placeable hid) hc with rfl | ⟨-, hne⟩
      · rfl
      · exact absurd hb hne
    rw [plan]
    refine ((((hmap .delete ((h.inState_nodup _).filter _)).append
      (hmap .create (h.inState_nodup _)) ?_).append hflush ?_).append
      (hmap .relocate (h.inState_nodup _)) ?_)
    · intro c hc hc'
      obtain ⟨x, -, rfl⟩ := List.mem_map.mp hc
      obtain ⟨y, -, he⟩ := List.mem_map.mp hc'
      cases he
    · intro c hc hc'
      rcases List.mem_append.mp hc with hc | hc
      · obtain ⟨x, -, rfl⟩ := List.mem_map.mp hc
        cases hstep _ hc' rfl
      · obtain ⟨x, -, rfl⟩ := List.mem_map.mp hc
        cases hstep _ hc' rfl
    · intro c hc hc'
      obtain ⟨x, -, rfl⟩ := List.mem_map.mp hc'
      rcases List.mem_append.mp hc with hc | hc
      · rcases List.mem_append.mp hc with hc | hc
        · obtain ⟨y, -, he⟩ := List.mem_map.mp hc
          cases he
        · obtain ⟨y, -, he⟩ := List.mem_map.mp hc
          cases he
      · cases hstep _ hc rfl

end Document

end BuildScript
