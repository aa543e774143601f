import BuildScript.Proofs.CreateFirst
import BuildScript.Proofs.Layers
import BuildScript.Proofs.Openings

namespace BuildScript

/-- An entry that a reset leaves existing: one that exists or has been moved, or did so when its
removal was staged. -/
def Entry.IsWritten (e : Entry) : Prop := e.revert.state = .existing

namespace Entry.IsWritten

variable {e e' : Entry} {x : NodeId} {C : Prop}

theorem of_withdraw (h : e.withdraw.IsWritten) : e.IsWritten := by
  rwa [IsWritten, revert_withdraw] at h

theorem of_relocated (h : (Store.relocated e).IsWritten) (hp : e.isPlaceable) : e.IsWritten := by
  unfold Store.relocated at h
  split at h
  · exact h
  · next hne => rwa [IsWritten, revert_moved hp hne] at h

theorem of_revert (h : e.revert.IsWritten) (hr : e.restore ≠ some .toBeRemoved) : e.IsWritten := by
  rwa [IsWritten, revert_revert hr] at h

theorem of_onlyUnstages (h : e'.IsWritten) (hc : e.OnlyUnstages C e') : e.IsWritten ∨ C := by
  rcases hc.state with hs | ⟨-, hs | ⟨-, hC⟩⟩
  · refine .inl ?_
    rcases hc.restore with hr | hr
    · simpa only [IsWritten, revert, hs, hr] using h
    · simpa only [IsWritten, revert, hs, if_neg (hs ▸ hr), if_neg hr] using h
  · exact .inl (by simp [IsWritten, revert, hs])
  · exact .inr hC

theorem of_isDue (h : e.IsDue .flush) : e.IsWritten := by
  rcases h with hs | hs <;> simp [IsWritten, revert, hs]

end Entry.IsWritten

theorem Store.not_isWritten_replacement (x : NodeId) (e : Entry) :
    ¬ (replacement x e).IsWritten := by
  cases h : e.state <;>
    simp [Entry.IsWritten, Entry.revert, replacement, replacementState, Entry.fresh, h]

def Edit.parses : Edit → Bool
  | .addParsed .. | .addParsedAtFront .. | .addParsedResetting .. => true
  | _ => false

namespace Document

variable {d d' other : Document} {b x : NodeId} {s : Store} {e : Entry} {log : Log}
  {parsed made written : NodeId → Prop} {allowed : Document → Edit → Prop} {edit : Edit}

theorem nextId_run (hi : edit.inserts = false) (hp : edit.parses = false) :
    (edit.run d).2.nextId = d.nextId := by
  have hedited := edit.edited d
  generalize (edit.run d).2 = d' at hedited
  cases hedited with
  | unchanged => rfl
  | addParsed | addParsedAtFront | addParsedResetting => cases hp
  | add | addAt | addBeforeAllOfKind | replace | setLiteral | addLiteral => cases hi
  | remove => exact (Alike.markModified _ _).nextId.trans (Alike.dropEdges _ _).nextId
  | removeNamed =>
    exact (Alike.markModified _ _).nextId.trans (Alike.foldl_dropEdges _ _).nextId
  | hideNamed => rfl
  | moveTo => exact (Alike.markModified _ _).nextId
  | setValue =>
    rw [stageValue, (Alike.markModified _ _).nextId, (Alike.recordEdges _ _).nextId,
      nextId_modifyNode]

/-- What has been done to a document: which nodes have come from a parser, which a merge has made in
folding an overlay (the last ones, as many as it reports to have synthesized), and the calls that
applies have made. -/
inductive Provenance (allowed : Document → Edit → Prop) :
    Document → (NodeId → Prop) → (NodeId → Prop) → Log → Prop
  | new (id : DocumentId) (config : Config) :
      Provenance allowed (Document.new id config) (fun _ ↦ False) (fun _ ↦ False) []
  | edit {d : Document} {parsed made : NodeId → Prop} {log : Log} (edit : Edit) :
      Provenance allowed d parsed made log → allowed d edit →
      Provenance allowed (edit.run d).2 (fun x ↦ parsed x ∨
        edit.parses = true ∧ d.nextId ≤ x ∧ x < (edit.run d).2.nextId) made log
  | reset {d : Document} {parsed made : NodeId → Prop} {log : Log} :
      Provenance allowed d parsed made log → Provenance allowed d.reset parsed made log
  | apply {d : Document} {parsed made : NodeId → Prop} {log : Log} {σ : Type} (w : Writer σ)
      (s : σ) : Provenance allowed d parsed made log →
      Provenance allowed (d.apply w s).document parsed made (log ++ d.audit w s)
  | merge {d : Document} {parsed made : NodeId → Prop} {log : Log} (other : Document) :
      Provenance allowed d parsed made log →
      Provenance allowed (d.merge other).2 parsed (fun x ↦ made x ∨
        (d.merge other).2.nextId ≤ (d.merge other).1.synthesized + x ∧
          x < (d.merge other).2.nextId) log
  | takeDiagnostics {d : Document} {parsed made : NodeId → Prop} {log : Log} :
      Provenance allowed d parsed made log →
      Provenance allowed d.takeDiagnostics.2 parsed made log

theorem Provenance.reached (h : Provenance allowed d parsed made log) : Reached allowed d := by
  induction h with
  | new id config => exact .new id config
  | edit edit _ ha ih => exact .edit edit ih ha
  | reset _ ih => exact .reset ih
  | apply w s _ ih => exact .apply w s ih
  | merge other _ ih => exact .merge other ih
  | takeDiagnostics _ ih => exact .takeDiagnostics ih

def WrittenAmong (written : NodeId → Prop) (d : Document) : Prop :=
  ∀ b s e, Below d root b → d.store? b = some s → e ∈ s.entries → d.isOwnedBy e.node b →
    e.IsWritten → written e.node

namespace WrittenAmong

variable {written' : NodeId → Prop}

theorem mono (h : WrittenAmong written d) (hw : ∀ x, written x → written' x) :
    WrittenAmong written' d :=
  fun b s e hb hs he hown hwr ↦ hw _ (h b s e hb hs he hown hwr)

theorem altered (h : WrittenAmong written d) (hl : Linked d) (edit : Edit) :
    WrittenAmong (fun x ↦ written x ∨ edit.parses = true ∧ d.nextId ≤ x ∧ x < (edit.run d).2.nextId)
      (edit.run d).2 := by
  have ha := alters hl edit
  intro b s' e' hb hs' he' hown hwr
  have hold : ∀ s e, d.store? b = some s → e ∈ s.entries → e.node = e'.node → e.IsWritten →
      written e'.node := by
    intro s e hs he hnode hwr
    have hlt := ((hl.store b s hs).links e.node (Store.mem_nodes_of_mem he)).1
    rw [← hnode] at hown ⊢
    exact h b s e (ha.below hl.older (hl.lt_of_store? hs) hb) hs he (ha.isOwnedBy hlt hown) hwr
  cases ha.entry b s' e' hs' he' with
  | kept hs he => exact .inl (hold _ _ hs he rfl hwr)
  | withdrawn hs he => exact .inl (hold _ _ hs he (Entry.withdraw_node _).symm hwr.of_withdraw)
  | hidden => simp [Entry.IsWritten, Entry.revert] at hwr
  | moved hs he hp =>
    exact .inl (hold _ _ hs he (Store.relocated_node _).symm (hwr.of_relocated hp))
  | @parsed x ex hle _ hinserts =>
    obtain ⟨n, hn, -⟩ := isOwnedBy_iff.mp hown
    have hlt := lt_nextId hn
    refine .inr ⟨?_, hle, hlt⟩
    by_contra hparses
    rw [nextId_run hinserts (Bool.eq_false_iff.mpr hparses)] at hlt
    exact absurd hlt (Nat.not_lt.mpr hle)
  | staged => simp [Entry.IsWritten, Entry.revert, Entry.fresh] at hwr
  | replacing => exact absurd hwr (Store.not_isWritten_replacement _ _)

theorem reset (h : WrittenAmong written d) (hl : Linked d) : WrittenAmong written d.reset := by
  intro b s' e' hb hs' he' hown hwr
  obtain ⟨s, e, hs, he, -, rfl⟩ := mem_reset hl hs' he'
  have hback : ∀ y m, d.reset.node? y = some m → ∃ m₀, d.node? y = some m₀ ∧
      m₀.parent = m.parent := fun y m hm ↦ by
    obtain ⟨m₀, hm₀, rfl⟩ := node?_reset hl hm
    exact ⟨m₀, hm₀, rfl⟩
  obtain ⟨n, hn, hp⟩ := isOwnedBy_iff.mp hown
  obtain ⟨n₀, hn₀, hp₀⟩ := hback _ n hn
  exact h b s e (hb.mono hback) hs he (isOwnedBy_iff.mpr ⟨n₀, hn₀, hp₀.trans hp⟩)
    (hwr.of_revert ((hl.store b s hs).restored e he))

theorem merged (h : WrittenAmong written d) (hd : Reached allowed d) (other : Document) :
    WrittenAmong (fun x ↦ written x ∨ (d.merge other).2.nextId ≤ (d.merge other).1.synthesized + x ∧
      x < (d.merge other).2.nextId) (d.merge other).2 := by
  have hl := hd.linked
  have hm := Document.merged hl other
  intro b s' e' hb hs' he' hown hwr
  rcases hm.entry b s' e' hs' he' with ⟨s, hs, he⟩ | ⟨x, hle, ⟨rfl, -⟩ | ⟨rfl, -⟩⟩
  · have hlt := ((hl.store b s hs).links e'.node (Store.mem_nodes_of_mem he)).1
    exact .inl (h b s e' (hm.below hl (hl.lt_of_store? hs) hb) hs he (hm.isOwnedBy hlt hown) hwr)
  · -- a copy would lie below the overlay
    obtain ⟨n, hn, hp⟩ := isOwnedBy_iff.mp hown
    refine .inr ⟨?_, lt_nextId hn⟩
    rw [← hd.nextId_merge other, Nat.add_le_add_iff_left]
    obtain ⟨m₀, m, hm₀, -, hdoc, -, hover⟩ := hd.overlaying other
    by_contra hlt
    rw [← hm₀] at hlt
    rw [← hdoc] at hb hn
    refine hover.not_below_root (hm₀ ▸ below_withOverlay hl other) ?_ (Nat.not_le.mp hlt)
      (isLive_iff.mpr ⟨n, hn⟩) (.step hb hn hp)
    rwa [overlayId, nextId_supersede]
  · simp [Entry.IsWritten, Entry.revert, Entry.fresh] at hwr

theorem onlyUnstages {C : NodeId → NodeId → Prop} (h : WrittenAmong written d)
    (hc : OnlyUnstages C d d') :
    ∀ b s e, Below d root b → d'.store? b = some s → e ∈ s.entries → d'.isOwnedBy e.node b →
      e.IsWritten → written e.node ∨ C b e.node := by
  intro b s' e' hb hs' he' hown hwr
  obtain ⟨s, e, hs, he, hunstages⟩ := hc.entry b s' e' hs' he'
  rw [hunstages.node] at hown ⊢
  have hown₀ : d.isOwnedBy e.node b := isOwnedBy_of_parent (fun n hn ↦ hc.node e.node n hn) hown
  exact (hwr.of_onlyUnstages hunstages).imp_left (h b s e hb hs he hown₀)

theorem of_opened (h : WrittenAmong written d) (ho : Opened d log b) :
    b = root ∨ written b ∨ b ∈ Log.accepted .create log := by
  refine ho.imp_right ?_
  rintro ⟨call, ⟨hb, d₁, s, e, n, hc, hs, he, hid, hn, hp, hdue⟩, hstep, rfl⟩
  rw [hstep] at hdue
  rw [← hid]
  exact h.onlyUnstages hc _ s e hb hs he (isOwnedBy_iff.mpr ⟨n, hn, hp⟩) (.of_isDue hdue)

end WrittenAmong

/-- What a history keeps: calls are made inside the root and inside blocks that have come from a
parser, have been created before or have been made by a merge, and there are no other blocks in the
main tree whose entries are written. -/
structure CreateInsideInvariant (parsed made : NodeId → Prop) (log : Log) (d : Document) :
    Prop where
  writtenAmong : WrittenAmong (fun x ↦ (parsed x ∨ made x) ∨ x ∈ Log.accepted .create log) d
  inside : log.Each fun before call ↦ call.target.block = root ∨
    (parsed call.target.block ∨ made call.target.block) ∨
      call.target.block ∈ Log.accepted .create before

namespace CreateInsideInvariant

theorem mono {parsed' made' : NodeId → Prop} (h : CreateInsideInvariant parsed made log d)
    (hp : ∀ x, parsed x → parsed' x) (hm : ∀ x, made x → made' x)
    (hs : WrittenAmong (fun x ↦ (parsed' x ∨ made' x) ∨ x ∈ Log.accepted .create log) d') :
    CreateInsideInvariant parsed' made' log d' :=
  ⟨hs, h.inside.mono fun _ _ hx ↦ hx.imp_right (·.imp_left (·.imp (hp _) (hm _)))⟩

theorem apply {σ : Type} (h : CreateInsideInvariant parsed made log d) (hl : Linked d)
    (hb : Borrows d) (hc : OverlaysApart d) (w : Writer σ) (st : σ) :
    CreateInsideInvariant parsed made (log ++ d.audit w st) (d.apply w st).document := by
  have hunstages := OnlyUnstages.apply hl w st
  refine ⟨fun b s e hbelow hs he hown hwr ↦ ?_, h.inside.concat fun before p after heq ↦ ?_⟩
  · simp only [Log.accepted_append, List.mem_append, ← or_assoc]
    refine (h.writtenAmong.onlyUnstages hunstages b s e (hunstages.below hbelow) hs he hown
      hwr).imp_right ?_
    rintro (hx | ⟨o, ho, hob⟩)
    · rwa [report_apply] at hx
    · -- what is settled without a call is in an overlay
      exact absurd hob (hc.not_below hl ho (hunstages.below hbelow))
  · simp only [Log.accepted_append, List.mem_append]
    have hor := h.writtenAmong.of_opened (opened_audit hl hb w st before p after heq)
    simpa only [or_assoc] using hor

end CreateInsideInvariant

theorem Provenance.createInsideInvariant (h : Provenance ReplacesOnce d parsed made log) :
    CreateInsideInvariant parsed made log d := by
  induction h with
  | new id config => exact ⟨fun b s e _ hs he ↦ absurd he (not_mem_new hs), .nil⟩
  | edit edit h _ ih =>
    refine ih.mono (fun _ ↦ .inl) (fun _ hx ↦ hx)
      ((ih.writtenAmong.altered h.reached.linked edit).mono fun x hx ↦ ?_)
    rcases hx with ((hx | hx) | hx) | hx
    · exact .inl (.inl (.inl hx))
    · exact .inl (.inr hx)
    · exact .inr hx
    · exact .inl (.inl (.inr hx))
  | reset h ih => exact ⟨ih.writtenAmong.reset h.reached.linked, ih.inside⟩
  | apply w s h ih =>
    have hd := h.reached
    exact ih.apply hd.linked (hd.borrows fun _ _ ha ↦ ha) hd.overlaysApart w s
  | merge other h ih =>
    refine ih.mono (fun _ hx ↦ hx) (fun _ ↦ .inl)
      ((ih.writtenAmong.merged h.reached other).mono fun x hx ↦ ?_)
    rcases hx with ((hx | hx) | hx) | hx
    · exact .inl (.inl hx)
    · exact .inl (.inr (.inl hx))
    · exact .inr hx
    · exact .inl (.inr (.inr hx))
  | @takeDiagnostics d _ _ _ h ih =>
    refine ⟨fun b s e hb ↦ ?_, ih.inside⟩
    have hb' : Below d root b := by
      refine hb.mono fun _ m hm ↦ ?_
      exact ⟨m, hm, rfl⟩
    exact ih.writtenAmong b s e hb'

/-- Calls are only made inside blocks that have text, those that a merge has made apart: whatever
has been done and refused, as long as nothing was replaced twice in blocks that borrow it, the block
of a call is the root, or it has come from a parser, or it has been created before, or it is one of
those that a merge has made. -/
theorem block_of_call (h : Provenance ReplacesOnce d parsed made log) {before after : Log}
    {p : Call × Option String} (hlog : log = before ++ p :: after) :
    p.1.target.block = root ∨ parsed p.1.target.block ∨
      p.1.target.block ∈ Log.accepted .create before ∨ made p.1.target.block := by
  refine (h.createInsideInvariant.inside before p after hlog).imp_right ?_
  rintro ((hx | hx) | hx)
  · exact .inl hx
  · exact .inr (.inr hx)
  · exact .inr (.inl hx)

def nestedDocument : Document :=
  let d := ((Edit.addParsed root { name := ⟨["android"]⟩, kind := .block "android" }).run
    (.new ⟨"app"⟩ {})).2
  let d := ((Edit.add 1 (.literal ⟨["minSdk"]⟩ (.integer 21))).run d).2
  ((Edit.add root
    { name := ⟨["signing"]⟩, kind := .block "signing"
      children := [.literal ⟨["keyAlias"]⟩ (.string "release")] }).run d).2

/-- The call about the literal `4` comes after the creation of its block. -/
theorem block_of_call_nested :
    ∃ parsed made log before p, Provenance ReplacesOnce (nestedDocument.apply .noop ()).document
        parsed made log ∧
      Log.briefs log = [⟨.create, 3, root⟩, ⟨.create, 2, 1⟩, ⟨.create, 4, 3⟩] ∧
      log = before ++ [p] ∧ p.1.target.block = 3 ∧ 3 ∈ Log.accepted .create before := by
  have hbriefs : Log.briefs ([] ++ nestedDocument.audit .noop ()) =
      [⟨.create, 3, root⟩, ⟨.create, 2, 1⟩] ++ [⟨.create, 4, 3⟩] := by decide
  obtain ⟨before, last, hlog, -, hlast⟩ := List.map_eq_append_iff.mp hbriefs
  obtain ⟨p, rfl, hp⟩ := List.map_eq_singleton_iff.mp hlast
  have hblock : p.1.target.block = 3 := congrArg Brief.block hp
  have hhist : Provenance ReplacesOnce (nestedDocument.apply .noop ()).document _ _ _ :=
    .apply .noop () (.edit (.add root _) (.edit (.add 1 _) (.edit (.addParsed root _)
      (.new ⟨"app"⟩ {}) trivial) trivial) trivial)
  have hor := block_of_call hhist hlog
  rw [hblock] at hor
  refine ⟨_, _, _, before, p, hhist, hbriefs, hlog, hblock, ?_⟩
  rcases hor with hroot | hparsed | hcreated | hmade
  · cases hroot
  · exact absurd hparsed (by decide)
  · exact hcreated
  · exact hmade.elim

def furnishedDocument : Document :=
  let d := Document.new ⟨"app"⟩
    { kindOf := fun name _ ↦ if name = "theme" then some "theme" else none }
  ((Edit.add 4 (.literal ⟨["size"]⟩ (.integer 12))).run
    (d.merge (themeDocument "colours" [.literal ⟨["text"]⟩ (.string "black")])).2).2

/-- A document that borrows a block, which is then replaced twice: the root is to get the block `4`
of the overlay. -/
def overtakenDocument : Document :=
  let d := ((Document.new ⟨"app"⟩ {}).merge (themeDocument "colours" [])).2
  let d := ((Edit.replace 1 2 { name := ⟨["theme"]⟩, kind := .block "theme" }).run d).2
  ((Edit.replace 1 2 { name := ⟨["theme"]⟩, kind := .block "theme" }).run d).2

def extendedDocument : Document :=
  ((Edit.add 4 { name := ⟨["title"]⟩, kind := .block "font" }).run
    (overtakenDocument.apply .noop ()).document).2

def enlargedDocument : Document :=
  let d := ((Edit.add 5 (.literal ⟨["size"]⟩ (.integer 12))).run
    (extendedDocument.apply .noop ()).document).2
  ((Edit.add root (.literal ⟨["version"]⟩ (.integer 1))).run d).2

/-- A literal is created inside a block that a merge has made, neither parsed nor created. -/
theorem created_inside_made_block :
    ∃ parsed made log before p after,
      Provenance ReplacesOnce (furnishedDocument.apply .noop ()).document parsed made log ∧
      log = before ++ p :: after ∧ p.1.step = .create ∧ p.1.target.block ≠ root ∧
      ¬ parsed p.1.target.block ∧ p.1.target.block ∉ Log.accepted .create before := by
  have hbriefs : Log.briefs ([] ++ furnishedDocument.audit .noop ()) = [⟨.create, 5, 4⟩] := by
    decide +kernel
  obtain ⟨p, hlog, hp⟩ := List.map_eq_singleton_iff.mp hbriefs
  have hblock : p.1.target.block = 4 := congrArg Brief.block hp
  refine ⟨_, _, _, [], p, [], .apply .noop () (.edit (.add 4 _) (.merge _ (.new ⟨"app"⟩ _))
    trivial), hlog, congrArg Brief.step hp, ?_, ?_, ?_⟩
  · rw [hblock]
    decide
  · rw [hblock]
    simp [Edit.parses]
  · simp [Log.accepted]

/-- So is one, after two replacements, inside a block that no merge has made either. -/
theorem created_inside_borrowed_block :
    ∃ parsed made log before p, Provenance (fun _ _ ↦ True)
        (enlargedDocument.apply .noop ()).document parsed made log ∧
      log = before ++ [p] ∧ p.1.step = .create ∧ p.1.target.block = 5 ∧
      ¬ parsed 5 ∧ 5 ∉ Log.accepted .create before ∧ ¬ made 5 := by
  have hbriefs : Log.briefs ([] ++ overtakenDocument.audit .noop () ++
      extendedDocument.audit .noop () ++ enlargedDocument.audit .noop ()) =
      [⟨.create, 4, root⟩, ⟨.create, 7, root⟩] ++ [⟨.create, 6, 5⟩] := by decide +kernel
  have hnever : 5 ∉ Log.accepted .create ([] ++ overtakenDocument.audit .noop () ++
      extendedDocument.audit .noop () ++ enlargedDocument.audit .noop ()) := by decide +kernel
  obtain ⟨before, last, hlog, -, hlast⟩ := List.map_eq_append_iff.mp hbriefs
  obtain ⟨p, rfl, hp⟩ := List.map_eq_singleton_iff.mp hlast
  refine ⟨_, _, _, before, p, .apply .noop () (.edit (.add root _) (.edit (.add 5 _)
    (.apply .noop () (.edit (.add 4 _) (.apply .noop () (.edit (.replace 1 2 _)
      (.edit (.replace 1 2 _) (.merge _ (.new ⟨"app"⟩ {})) trivial) trivial)) trivial)) trivial)
        trivial), hlog, congrArg Brief.step hp, congrArg Brief.block hp, ?_, ?_, ?_⟩
  · simp [Edit.parses]
  · rw [hlog, Log.accepted_append, List.mem_append] at hnever
    exact fun hmem ↦ hnever (.inl hmem)
  · decide +kernel

end Document

end BuildScript
