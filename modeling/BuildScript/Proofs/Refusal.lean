import BuildScript.Proofs.Rollback

namespace BuildScript

namespace EditM

variable {α β : Type} {m : EditM α} {d : Document} {post : Document → Prop}
  {check : Except ModelError β} {e : ModelError} {b : β}

theorem Follows.refused_iff (h : m.Follows d post check) :
    (m.exec d).1 = .error e ↔ check = .error e := by
  cases h with
  | refused h => simp only [h, Except.error.injEq]
  | done h => simp only [h, reduceCtorEq]

theorem Follows.kept (h : m.Follows d post check) (hc : check = .error e) : (m.exec d).2 = d := by
  cases h with
  | refused h => rw [h]
  | done h => cases hc

theorem Follows.answers (h : m.Follows d post check) (hc : check = .ok b) :
    ∃ a, (m.exec d).1 = .ok a ∧ post (m.exec d).2 := by
  cases h with
  | refused h => cases hc
  | @done _ a d' h hpost => exact ⟨a, by rw [h], by rwa [h]⟩

end EditM

namespace Document

variable {d : Document} {edit : Edit} {e : ModelError}

/-- A change is refused exactly when its check fails, and with the same error. -/
theorem refused_iff : (edit.run d).1 = .error e ↔ edit.check d = .error e :=
  (edit.follows d).refused_iff

/-- A change that passes its check is made: whatever it looks up later on is still there. -/
theorem made_of_checked (h : edit.check d = .ok ()) :
    ∃ outcome, (edit.run d).1 = .ok outcome ∧ Edited d edit (edit.run d).2 :=
  (edit.follows d).answers h

/-- A change that is refused has failed its check, and it leaves the document exactly as it was:
nodes, stores, values, marks, edges, overlays and diagnostics. -/
theorem kept_of_refused (h : (edit.run d).1 = .error e) :
    edit.check d = .error e ∧ (edit.run d).2 = d := by
  have hcheck := refused_iff.mp h
  exact ⟨hcheck, (edit.follows d).kept hcheck⟩

/-- With other changes staged, a borrowed literal is replaced from the block that borrows it. -/
theorem kept_of_refused_borrowed :
    let edit := Edit.replace root 4 (.literal ⟨["version"]⟩ (.integer 2))
    stagedDocument.Reachable ∧
    (edit.run stagedDocument).1 = .error (.overlayImmutable root 4) ∧
      edit.check stagedDocument = .error (.overlayImmutable root 4) ∧
      (edit.run stagedDocument).2 = stagedDocument :=
  ⟨.edit _ (.edit _ reachable_applicationDocument trivial) trivial, rfl, kept_of_refused rfl⟩

end Document

end BuildScript
