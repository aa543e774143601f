import BuildScript.Proofs.Interlude

namespace BuildScript.Document

variable {D X d other : Document} {o : NodeId}

/-- What a document has come to between two merges of another one, whose overlay is `o`: a name is
answered as it was, unless nothing or something without entries comes in the place of what is not a
block, and the overlay answers no more names than it did. -/
def Unobtrusive (o : NodeId) (D X : Document) : Prop :=
  ∀ c < D.nextId,
    (∀ q ∈ D.propertyMap c, X.propertyNamed? c q.1 = some q.2 ∨
      D.isBlockAt q.2 = false ∧ ∀ y ∈ X.propertyNamed? c q.1, X.store? y = none) ∧
    (o ∈ X.lineage c → ∀ q ∈ X.propertyMap c, (D.propertyNamed? c q.1).isSome)

instance (o : NodeId) (D X : Document) : Decidable (Unobtrusive o D X) :=
  inferInstanceAs (Decidable (∀ c < D.nextId, _ ∧ _))

theorem Unobtrusive.sequel (hmild : Unobtrusive o D X) (hkeeps : KeepsOverlay o D X)
    (hD : Linked D) (hX : Linked X) (ho : D.isLive o) : Sequel o D X := by
  refine ⟨hkeeps, hX, fun c name x hx ↦ ?_, fun s name hs hb hnone ↦ ?_⟩
  · have hc : c < D.nextId := by
      refine Nat.lt_of_not_le fun hle ↦ ?_
      rw [propertyNamed?_eq, entries_of_le hD hle] at hx
      simp [Entry.pick] at hx
    exact (hmild c hc).1 (name, x) (mem_propertyMap.mpr hx)
  · refine Option.eq_none_iff_forall_ne_some.mpr fun y hy ↦ ?_
    have hmem := (mem_lineage_iff_below hX (hkeeps.overlay o .refl ho)).mpr hb
    have hsome := (hmild s hs).2 hmem (name, y) (mem_propertyMap.mpr hy)
    simp [hnone] at hsome

/-- If what has come in between keeps the overlay and is unobtrusive, a document can be merged again
and every path still leads somewhere. -/
theorem follow_isSome_remerge (hd : d.Reachable)
    (hother : ∀ i n, other.node? i = some n → n.name.IsRegular)
    (hrun : Interlude (d.merge other).1.overlay (d.merge other).2 X)
    (hmild : Unobtrusive (d.merge other).1.overlay (d.merge other).2 X)
    (path : List String) (hpath : (X.follow? root path).isSome) :
    ((X.merge other).2.follow? root path).isSome := by
  have hfirst : (d.merge other).2.Reachable := .merge other hd
  have hnone := lookup_supersede d other.id
  obtain ⟨m₀, m, h, hm₀, -, -, hsame, hdoc⟩ := accomplished_supersede hd hother
  have hcov := (hasStoresAbove_nextId (d.supersede other.id).2).merge h.before hnone
  have hsources := (overlays_merge h.before hnone).2
  rw [hdoc] at hcov hsources
  rw [hsame] at hfirst hrun hmild
  obtain ⟨n, hn, hparent⟩ := h.node_overlay
  have hlive : m.document.isLive (d.supersede other.id).2.nextId := isLive_iff.mpr ⟨n, hn⟩
  have htop : ∀ n, m.document.node? (d.supersede other.id).2.nextId = some n → n.parent = none := by
    intro n' hn'
    rw [hn] at hn'
    cases hn'
    exact hparent
  obtain ⟨hX, hkeeps⟩ := hrun.keepsOverlay hfirst hlive htop
  have hlookup : X.overlaySources.lookup other.id = some (d.supersede other.id).2.nextId := by
    refine hkeeps.source other.id _ ?_ (lt_nextId hn) (hkeeps.overlay _ .refl hlive)
    rw [hsources, List.lookup_append, hnone]
    simp
  have hlisted :=
    hkeeps.listed ((hcov.listedFrom hfirst.fullyTraced.listsOwned).below h.after.older)
  obtain ⟨q₀, q, hr, -, -, hq, -⟩ := h.renewed hm₀ hnone
    (hmild.sequel hkeeps h.after hX.linked hlive) hX hlookup hlisted hother
  rw [hq]
  exact hr.follow_isSome hr.stands_root path hpath

def printDocument : Document := themeDocument "print"
  [{ name := ⟨["title"]⟩, kind := .block "font",
     children := [.literal ⟨["size"]⟩ (.integer 14), .literal ⟨["weight"]⟩ (.string "bold")] }]

/-- The title is in the theme of the colours, so the fonts can be merged again: the weight stays,
and what has been written meanwhile. -/
theorem follow_isSome_remerge_print :
    let fonts := (colouredDocument.merge fontsDocument).2
    let staged := ((Edit.add root (.literal ⟨["name"]⟩ (.string "app"))).run fonts).2
    let written := (staged.apply Writer.noop ()).document
    let between := (written.merge printDocument).2
    Interlude (colouredDocument.merge fontsDocument).1.overlay fonts between ∧
      Unobtrusive (colouredDocument.merge fontsDocument).1.overlay fonts between ∧
      (between.follow? root ["theme", "title", "weight"]).isSome ∧
      ((between.merge fontsDocument).2.follow? root ["theme", "title", "weight"]).isSome := by
  intro fonts staged written between
  have hcoloured : colouredDocument.Reachable := .merge _ (.new _ _)
  have hregular : ∀ i < fontsDocument.nextId, ∀ n ∈ fontsDocument.node? i, n.name.IsRegular := by
    decide +kernel
  have hprint : ∀ i < printDocument.nextId, ∀ n ∈ printDocument.node? i, n.name.IsRegular := by
    decide +kernel
  have hsteps : Relation.ReflTransGen Operation fonts written :=
    (Relation.ReflTransGen.single (.edit _)).tail (.apply _ _)
  have hrun : Interlude (colouredDocument.merge fontsDocument).1.overlay fonts between :=
    .merge (.run hsteps (by decide +kernel)) (by decide +kernel)
      fun i n hn ↦ hprint i (lt_nextId hn) n hn
  have hmild : Unobtrusive (colouredDocument.merge fontsDocument).1.overlay fonts between := by
    decide +kernel
  have hpath : (between.follow? root ["theme", "title", "weight"]).isSome := by decide +kernel
  refine ⟨hrun, hmild, hpath, ?_⟩
  exact follow_isSome_remerge hcoloured (fun i n hn ↦ hregular i (lt_nextId hn) n hn) hrun hmild _
    hpath

/-- The title is in the theme of the colours, and goes when the colours are merged again, though the
document that it comes from is still merged. -/
theorem follow_lost_by_remerge :
    let colours := themeDocument "colours" [.literal ⟨["text"]⟩ (.string "black")]
    let d := (((Document.new ⟨"app"⟩ {}).merge colours).2.merge fontsDocument).2
    d.follow? root ["theme", "title", "size"] = some 7 ∧
      (d.merge colours).2.follow? root ["theme", "title", "size"] = none ∧
      (d.merge colours).2.isLive 7 ∧ (d.merge colours).2.overlays = [4, 8] := by
  decide +kernel

end BuildScript.Document
