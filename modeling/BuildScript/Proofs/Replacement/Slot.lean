import BuildScript.Proofs.CommittedOrder
import BuildScript.Proofs.Replacement.Splice
import BuildScript.Proofs.Settlement

namespace BuildScript

namespace Document

variable {d d₁ d' : Document} {b i old p x : NodeId} {gone : List NodeId}
  {s : Store} {e e' : Entry} {spec : Spec} {fuel : Nat} {σ : Type} {w : Writer σ}

theorem settleOverlays_eq_self (h : ∀ o ∈ d.overlays, ¬ d.isModified o) : d.settleOverlays = d :=
  List.foldlRecOn (motive := (· = d)) _ _ rfl fun d' hd o ho ↦ by
    rw [hd, if_neg (h o ho)]

theorem apply_document_of_unmarked (h : Linked d) (ho : ∀ o ∈ d.overlays, ¬ d.isModified o)
    (w : Writer σ) (st : σ) : (d.apply w st).document = (d.writeMain w st).document := by
  have hunstages := OnlyUnstages.writeMain h w st
  rw [apply_eq]
  exact settleOverlays_eq_self fun o hov hm ↦
    ho o (hunstages.overlays ▸ hov) (isModified_onlyUnstages hunstages hm)

theorem Placed.below (h : Placed d i x) : Below d i x := by
  induction h with
  | refl => exact .refl
  | tail _ hstep ih =>
    obtain ⟨n, hn, hp⟩ := isOwnedBy_iff.mp hstep.2
    exact .step ih hn hp

theorem mem_placeable_iff : x ∈ d.placeable p ↔ ∃ e ∈ d.entries p, e.isPlaceable ∧ e.node = x := by
  cases hs : d.store? p <;> simp [mem_placeable, mem_entries, hs]

theorem AllAccepted.shownChildren_eq (h : AllAccepted gone d d') (hl : Linked d) (hx : x ∉ gone)
    (hg : ∀ e ∈ d.entries x, e.node ∉ gone) : d'.shownChildren x = d.shownChildren x := by
  have hshown := List.rel_filter (p := (·.isOwnVisible)) (q := (·.isOwnVisible))
    (fun _ _ hr ↦ iff_of_eq (congrArg (· = true) (Entry.AllAccepted.isOwnVisible hr).symm))
    (h.entries_whole hl hx hg)
  exact map_node_allAccepted hshown

namespace Spliced

theorem not_mem_of_lt (h : Spliced b old s spec d d₁) (hx : x < old) : x ∉ d₁.ownedSubtree old :=
  fun hmem ↦ Nat.not_lt.mpr ((ownedSubtree_below hmem).le h.linked.older) hx

theorem lt_old (h : Spliced b old s spec d d₁) : b < old := by
  obtain ⟨n, hn, hp⟩ := isOwnedBy_iff.mp h.owned
  exact h.before.older old n b hn hp

theorem lt_of_mem (h : Spliced b old s spec d d₁) (hx : x ∈ d₁.ownedSubtree old) :
    x < d.nextId := by
  obtain ⟨n, hn, -⟩ := isOwnedBy_iff.mp h.owned
  have hbelow := ownedSubtree_below (h.mem_ownedSubtree.mp hx)
  obtain ⟨m, hm⟩ := isLive_iff.mp (hbelow.isLive (isLive_iff.mpr ⟨n, hn⟩))
  exact lt_nextId hm

theorem entries_kept (h : Spliced b old s spec d d₁) (hr : AllAccepted gone d₁ d')
    (hgone : gone ⊆ d₁.ownedSubtree old) (hx : x < d.nextId) (hxb : x ≠ b)
    (hxo : x ∉ d₁.ownedSubtree old) : d'.entries x = d.entries x := by
  have hsame : d₁.entries x = d.entries x := by
    simp only [entries, h.store x hx hxb]
  have hall := hr.entries_whole h.linked (fun hg ↦ hxo (hgone hg)) fun e he hg ↦ by
    obtain ⟨s₁, hs₁, hmem⟩ := mem_entries.mp he
    rcases h.listedOnlyInside x s₁ e.node hs₁ (Store.mem_nodes_of_mem hmem) (hgone hg)
      with hb | hmem
    · exact hxb hb.1
    · exact hxo hmem
  rw [hsame] at hall
  refine eq_of_unstaged_allAccepted hall fun e he ↦ ?_
  obtain ⟨s₀, hs₀, hmem⟩ := mem_entries.mp he
  exact (Bool.or_eq_false_iff.mp (h.quiet x s₀ e hs₀ hmem).1).1

theorem placed (h : Spliced b old s spec d d₁) (hr : AllAccepted gone d₁ d')
    (hgone : gone ⊆ d₁.ownedSubtree old) (hb : Placed d i b) : Placed d' i b := by
  have ho := h.before.older
  induction hb using Relation.ReflTransGen.head_induction_on with
  | refl => exact .refl
  | @head p c hstep hrest ih =>
    obtain ⟨m, hm, hpm⟩ := isOwnedBy_iff.mp hstep.2
    have hcold : c < old := Nat.lt_of_le_of_lt ((Placed.below hrest).le ho) h.lt_old
    have hpb : p < b := Nat.lt_of_lt_of_le (ho c m p hm hpm) ((Placed.below hrest).le ho)
    obtain ⟨e, he, hplace, hnode⟩ := mem_placeable_iff.mp hstep.1
    obtain ⟨m₁, hm₁, hpm₁⟩ := isOwnedBy_iff.mp
      ((h.isOwnedBy_eq (lt_nextId hm) p).trans hstep.2)
    obtain ⟨m', hm', hw⟩ := hr.exists_node (fun hg ↦ h.not_mem_of_lt hcold (hgone hg)) hm₁
    refine .head ⟨mem_placeable_iff.mpr ⟨e, ?_, hplace, hnode⟩,
      isOwnedBy_iff.mpr ⟨m', hm', (congrArg (·.1.1.1) hw).trans hpm₁⟩⟩ ih
    rwa [h.entries_kept hr hgone (Nat.lt_trans (ho c m p hm hpm) (lt_nextId hm)) (Nat.ne_of_lt hpb)
      (h.not_mem_of_lt (Nat.lt_trans hpb h.lt_old))]

theorem not_allAccepted_nil (h : Spliced b old s spec d d₁) (hold : old ∈ s.nodes)
    (hc : d'.Clear b) :
    ¬ AllAccepted [] d₁ d' := fun hr ↦ by
  obtain ⟨e, he, hnode⟩ := List.mem_map.mp hold
  have hall := hr.entries_whole h.linked (x := b) (by simp) (by simp)
  rw [entries_eq h.slot] at hall
  obtain ⟨e', he', hmapped⟩ := exists_of_mem_afterAccepted hall (Store.withdraw_mem_replaceFirst
    (h.before.store b s h.listed).nodup he hnode d.nextId)
  have hst : e'.state = .toBeRemoved := by
    rcases hmapped with rfl | ⟨-, -, -, hst | ⟨hst, -⟩⟩
    · exact e.withdraw_state
    · exact hst.trans e.withdraw_state
    · simp [e.withdraw_state] at hst
  obtain ⟨s', hs', he'⟩ := mem_entries.mp he'
  have hstaged := (isStagedAt_eq_false.mp hc.unstaged).2 s' e' hs' he'
  simp [Entry.isStaged, hst, EntryState.isPending] at hstaged

/-- Without the tree of the old node the new one stands in its place. -/
theorem entries_without (h : Spliced b old s spec d d₁) :
    (d₁.entries b).filter (!(d₁.ownedSubtree old).contains ·.node) =
      s.entries.map fun e ↦ if e.node = old then Store.replacement d.nextId e else e := by
  obtain ⟨n, hn, -⟩ := isOwnedBy_iff.mp h.isOwnedBy
  have hold := self_mem_ownedSubtree (isLive_iff.mpr ⟨n, hn⟩)
  have hnew : d.nextId ∉ d₁.ownedSubtree old := fun hmem ↦ Nat.lt_irrefl _ (h.lt_of_mem hmem)
  rw [entries_eq h.slot, Store.replace]
  refine Store.filter_replaceFirst (p := fun x ↦ !(d₁.ownedSubtree old).contains x)
    (h.before.store b s h.listed).nodup (by simpa using hold) (by simpa using hnew)
    fun e he hne ↦ ?_
  have hmem : e.node ∈ (s.replace old d.nextId).nodes :=
    Store.mem_nodes_replace.mpr (.inl (Store.mem_nodes_of_mem he))
  have hnot : e.node ∉ d₁.ownedSubtree old := fun hgone ↦ by
    rcases h.listedOnlyInside b _ e.node h.slot hmem hgone with hb | hb
    · exact hne hb.2
    · exact h.not_mem_of_lt h.lt_old hb
  simpa using hnot

/-- What becomes of the entry of a new node in a block with nothing staged left. -/
theorem allAccepted_replacement {new : NodeId} (hr : (Store.replacement new e).AllAccepted e')
    (hst : e.state = .existing ∨ e.state = .hidden) (hs : e'.isStaged = false) :
    e' = ⟨new, e.state, e'.existsInSource, false, none⟩ := by
  rw [Entry.isStaged, Bool.or_eq_false_iff] at hs
  have hnode := hr.node
  have hrestore := hr.restore rfl
  have hstate : e'.state = e.state := by
    rcases hr with rfl | ⟨-, -, -, hsame | ⟨hadded, hex⟩⟩
    · simp [Store.replacement] at hs
    · rcases hst with hst | hst
      · simp [hsame, Store.replacement, Entry.fresh, Store.replacementState, hst,
          EntryState.isPending] at hs
      · simpa [Store.replacement, Entry.fresh, Store.replacementState, hst] using hsame
    · rcases hst with hst | hst
      · exact hex.trans hst.symm
      · simp [Store.replacement, Entry.fresh, Store.replacementState, hst] at hadded
  obtain ⟨node, state, existsInSource, staged, restore⟩ := e'
  simp_all [Store.replacement, Entry.fresh]

/-- In the block that has been written the new node stands where the old one was. -/
theorem slot_kept (h : Spliced b old s spec d d₁) (hr : AllAccepted (d₁.ownedSubtree old) d₁ d')
    (hc : d'.Clear b) (he : e ∈ s.entries) (hold : e.node = old)
    (hst : e.state = .existing ∨ e.state = .hidden) : ∃ written, d'.entries b = s.entries.map
      fun e' ↦ if e'.node = old then ⟨d.nextId, e.state, written, false, none⟩ else e' := by
  have hall := hr.entries h.linked (h.not_mem_of_lt h.lt_old)
  rw [h.entries_without] at hall
  obtain ⟨e₁, he₁, hr₁⟩ := exists_of_mem_afterAccepted hall (List.mem_map_of_mem he)
  rw [if_pos hold] at hr₁
  obtain ⟨s', hs', hmem₁⟩ := mem_entries.mp he₁
  have hnew :=
    allAccepted_replacement hr₁ hst ((isStagedAt_eq_false.mp hc.unstaged).2 s' e₁ hs' hmem₁)
  refine ⟨e₁.existsInSource, eq_map_of_forall₂ (List.forall₂_map_left_iff.mp hall)
    fun e₂ he₂ e₃ he₃ hr₃ ↦ ?_⟩
  by_cases hnode : e₂.node = old
  · rw [if_pos hnode] at hr₃ ⊢
    obtain rfl := Store.eq_of_node_eq (h.before.store b s h.listed).nodup he₂ he
      (hnode.trans hold.symm)
    rw [entries_eq hs'] at he₃
    have hsame := Store.eq_of_node_eq (hr.linked.store b s' hs').nodup he₃ hmem₁
      (hr₃.node.trans hr₁.node.symm)
    exact hsame.trans hnew
  · rw [if_neg hnode] at hr₃ ⊢
    have hq := (h.quiet b s e₂ h.listed he₂).1
    exact hr₃.eq_of_unstaged (Bool.or_eq_false_iff.mp hq).1

theorem dependenciesWithin_eq (h : Spliced b old s spec d d₁) (hr : AllAccepted gone d₁ d')
    (hgone : gone ⊆ d₁.ownedSubtree old) (hx : d.nextId ≤ x) :
    d'.dependenciesWithin fuel x = d₁.dependenciesWithin fuel x := by
  have hout : ∀ x, d.nextId ≤ x → x ∉ gone := fun x hx hg ↦
    Nat.not_lt.mpr hx (h.lt_of_mem (hgone hg))
  have hfresh : ∀ x, d.nextId ≤ x → ∀ e ∈ d₁.entries x, d.nextId ≤ e.node := fun x hx e he ↦ by
    obtain ⟨s₁, hs₁, hmem⟩ := mem_entries.mp he
    exact (h.fresh x s₁ e hx hs₁ hmem).1
  have hflat : ∀ (d : Document) (fuel : Nat) (x : NodeId),
      ((d.entries x).filter (·.isOwnVisible)).flatMap (fun e ↦ d.dependenciesWithin fuel e.node) =
        (d.shownChildren x).flatMap (d.dependenciesWithin fuel) := by
    simp [shownChildren, List.flatMap_map]
  induction fuel generalizing x with
  | zero => rfl
  | succ fuel ih =>
    rw [dependenciesWithin, dependenciesWithin]
    cases hn : d₁.node? x with
    | none =>
      have hw := hr.node x
      rw [if_neg (hout x hx), hn] at hw
      rw [Option.map_eq_none_iff.mp hw]
    | some n =>
      obtain ⟨n', hn', hw⟩ := hr.exists_node (hout x hx) hn
      have hedges : n'.edges = n.edges := congrArg Prod.snd hw
      simp only [hn', hflat, hedges]
      rw [hr.shownChildren_eq h.linked (hout x hx) fun e he ↦ hout e.node (hfresh x hx e he)]
      refine congrArg (n.edges ++ ·) (List.flatMap_congr fun c hc ↦ ih ?_)
      obtain ⟨e, he, rfl⟩ := List.mem_map.mp hc
      exact hfresh x hx e (List.mem_filter.mp he).1

/-- Calls that are all accepted carry the removal out, and leave nothing staged in the block. -/
theorem apply (h : Spliced b old s spec d d₁) (hr : FullyTraced d₁) (hb : Placed d root b)
    (hold : old ∈ s.nodes) (hw : ∀ t call, w.refusal? t call = none) (st : σ) :
    AllAccepted (d₁.ownedSubtree old) d₁ (d₁.apply w st).document ∧
      (d₁.apply w st).document.Clear b := by
  have hrun : AfterAccepted old d₁ (d₁.apply w st).document := by
    rw [apply_document_of_unmarked h.linked h.unmarked]
    exact .writeMain h.stagesOneRemoval hw st
  obtain ⟨ht, hroot, -⟩ := hr.toTraced.apply w st
  have hclear : ∀ gone, gone ⊆ d₁.ownedSubtree old → AllAccepted gone d₁ (d₁.apply w st).document →
      (d₁.apply w st).document.Clear b := fun gone hgone hmapped ↦
    (h.placed hmapped hgone hb).clear ht .refl (hroot (clean_apply hw d₁ st))
  rcases hrun with hmapped | hmapped
  · exact absurd hmapped (h.not_allAccepted_nil hold (hclear [] (by simp) hmapped))
  · exact ⟨hmapped, hclear _ (fun _ hx ↦ hx) hmapped⟩

end Spliced

theorem run_replace (hs : d.store? b = some s) (h : Linked d) (he : e ∈ s.entries)
    (hold : e.node = old) (hne : e.state ≠ .applied) (hown : d.isOwnedBy old b) (spec : Spec) :
    (Edit.replace b old spec).run d =
      (.ok (.replacement d.nextId e.state), d.stageReplacement b old spec) := by
  obtain ⟨n, hn, -⟩ := h.isContainer_of_store? hs
  have hc := container_eq_ok hn hs
  have hfind : s.find? old = some e := hold ▸ Store.find?_of_mem (h.store b s hs).nodup he
  have hexec := EditM.exec_replace hc (checkReplace_eq_ok hc hfind hne hown) hfind spec
  have hperform : (Edit.replace b old spec).perform.exec d =
      (.ok (.replacement d.nextId e.state), d.stageReplacement b old spec) := by
    rw [Edit.perform, EditM.exec_map, hexec, Except.map]
  exact hperform

theorem exists_entry_of_reset (hd : Reachable d) (hs : d.reset.store? b = some s)
    (hown : d.reset.isOwnedBy old b) :
    ∃ e ∈ s.entries, e.node = old ∧ (e.state = .existing ∨ e.state = .hidden) := by
  have hfully := (Reached.reset hd).fullyTraced
  obtain ⟨n, hn, hp⟩ := isOwnedBy_iff.mp hown
  obtain ⟨e, he, hold⟩ := List.mem_map.mp
    ((hfully.listsOwned.listed old n b s hn hp hs).resolve_left not_false)
  have hna : e.state ≠ .applied := fun ha ↦ hfully.own b s e hs he (.inl ha) (hold ▸ hown)
  have hst := (Bool.or_eq_false_iff.mp (isStaged_reset hd hs he).1).2
  refine ⟨e, he, hold, ?_⟩
  cases hstate : e.state <;> simp_all [EntryState.isPending]

/-- A replacement keeps its place through an apply of which nothing is refused. Just after a reset
a declaration of the main tree is replaced, in a block that is placed like all blocks around it.
Written, the new declaration stands where the old one stood and is hidden if that one was. The old
one has gone with all that it owned, and nothing else has changed. The edges of the new one are
those that its text makes. -/
theorem replace_keeps_slot (hd : Reachable d) (hb : Placed d.reset root b)
    (hs : d.reset.store? b = some s) (hown : d.reset.isOwnedBy old b) (hspec : spec.isProper)
    (hw : ∀ t call, w.refusal? t call = none) (st : σ) :
    let r := (Edit.replace b old spec).run d.reset
    let d' := (r.2.apply w st).document
    ∃ e ∈ s.entries, e.node = old ∧ (e.state = .existing ∨ e.state = .hidden) ∧
      r.1 = .ok (.replacement d.reset.nextId e.state) ∧
      (∃ written, d'.entries b = s.entries.map fun e' ↦
        if e'.node = old then ⟨d.reset.nextId, e.state, written, false, none⟩ else e') ∧
      (∀ x ∈ d.reset.ownedSubtree old, ¬ d'.isLive x) ∧
      (∀ x, d.reset.isLive x → x ∉ d.reset.ownedSubtree old →
        d'.isLive x ∧ (x ≠ b → d'.entries x = d.reset.entries x)) ∧
      (d'.dependencies d.reset.nextId).map (·.reference) = spec.references := by
  have hd₀ : Reachable d.reset := .reset hd
  have hl := hd₀.linked
  obtain ⟨e, he, hold, hstate⟩ := exists_entry_of_reset hd hs hown
  have hna : e.state ≠ .applied := fun ha ↦ by simp [ha] at hstate
  have hrun := run_replace hs hl he hold hna hown spec
  have hd₁ : Reachable (d.reset.stageReplacement b old spec) := by
    have hedit : Reachable ((Edit.replace b old spec).run d.reset).2 := .edit _ hd₀ trivial
    simpa only [hrun] using hedit
  simp only [hrun]
  have h :=
    spliced_stageReplacement hl hd₀.lent hd₀.overlaysApart (fun _ ↦ not_isModified_reset hd.linked)
    (fun _ _ _ ↦ isStaged_reset hd) hb.below hs hown hspec hd₁.lent
  obtain ⟨hr, hclear⟩ := h.apply hd₁.fullyTraced hb (hold ▸ Store.mem_nodes_of_mem he) hw st
  refine ⟨e, he, hold, hstate, rfl, h.slot_kept hr hclear he hold hstate, fun x hx hlive ↦ ?_,
    fun x hx hout ↦ ?_, ?_⟩
  · simp [isLive, hr.node?_eq_none (h.mem_ownedSubtree.mpr hx)] at hlive
  · have hout' := fun hx ↦ hout (h.mem_ownedSubtree.mp hx)
    obtain ⟨m, hm⟩ := isLive_iff.mp hx
    obtain ⟨m₁, hm₁⟩ := isLive_iff.mp ((h.isLive_eq (lt_nextId hm)).trans hx)
    obtain ⟨m', hm', -⟩ := hr.exists_node hout' hm₁
    exact ⟨isLive_iff.mpr ⟨m', hm'⟩, fun hne ↦
      h.entries_kept hr (fun _ hx ↦ hx) (lt_nextId hm) hne hout'⟩
  · have hsize : (d.reset.stageReplacement b old spec).nextId = _ := hr.nextId.symm
    rw [dependencies, h.dependenciesWithin_eq hr (fun _ hx ↦ hx) (Nat.le_refl _)]
    refine Represents.map_reference h.linked h.scanned spec _ _
      (self_mem_ownedSubtree h.tree.isLive)
      ?_ h.tree
    exact Nat.le_trans (Nat.le_of_eq hsize) (Nat.le_add_right _ _)

def successor : Spec :=
  { name := ⟨["defaults"]⟩, kind := .block "defaults"
    children := [.literal ⟨["code"]⟩ (.reference "major"),
      .literal ⟨["name"]⟩ (.template [.text "v", .reference "minor", .reference "major"])] }

/-- The block `1` with the literal `2` is replaced in a root that also owns the block `5` and
borrows the literal `4`. -/
theorem replace_keeps_slot_stagedDocument :
    let d := (stagedDocument.apply .noop ()).document.reset
    let d' := (((Edit.replace root 1 successor).run d).2.apply .noop ()).document
    (d.entries root).map (·.node) = [1, 4, 5] ∧
      (∃ written, d'.entries root = [⟨7, .existing, written, false, none⟩,
        ⟨4, .applied, false, false, none⟩, ⟨5, .existing, true, false, none⟩]) ∧
      ¬ d'.isLive 2 ∧ d'.entries 5 = d.entries 5 ∧
      (d'.dependencies 7).map (·.reference) = ["major", "minor", "major"] := by
  have hd : Reachable (stagedDocument.apply .noop ()).document :=
    .apply _ _ (.edit _ (.edit _ (.merge _ (.edit _ (.new _ _) trivial)) trivial) trivial)
  have hs : (stagedDocument.apply .noop ()).document.reset.store? root =
      some ⟨[⟨1, .existing, false, false, none⟩, ⟨4, .applied, false, false, none⟩,
        ⟨5, .existing, true, false, none⟩], none⟩ := by
    decide +kernel
  have hnext : (stagedDocument.apply .noop ()).document.reset.nextId = 7 := by decide +kernel
  have hown : (stagedDocument.apply .noop ()).document.reset.isOwnedBy 1 root = true := by
    decide +kernel
  have hproper : successor.isProper = true := by decide +kernel
  obtain ⟨e, he, hold, -, -, ⟨written, hslot⟩, hgone, hkept, hedges⟩ :=
    replace_keeps_slot (w := .noop) hd .refl hs hown hproper (fun _ _ ↦ rfl) ()
  rw [hnext] at hslot hedges
  have hstate : e.state = .existing := by
    simp only [List.mem_cons, List.not_mem_nil, or_false] at he
    rcases he with rfl | rfl | rfl
    · rfl
    · simp at hold
    · simp at hold
  rw [hstate] at hslot
  refine ⟨by rw [entries_eq hs]; rfl, ⟨written, hslot⟩, hgone 2 (by decide +kernel),
    (hkept 5 (by decide +kernel) (by decide +kernel)).2 (by decide), ?_⟩
  exact hedges.trans (by decide +kernel)

end Document

end BuildScript
