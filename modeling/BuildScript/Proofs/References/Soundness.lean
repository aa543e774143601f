import BuildScript.Proofs.References.Shadowing

namespace BuildScript

theorem Name.parts_parse_eq_nil {text : String} :
    (Name.parse text).parts = [] ↔ ∀ c ∈ text.toList, c = '.' := by
  have hsplit : ∀ l : List Char,
      (∀ segment ∈ l.splitOnP (· == '.'), segment = []) ↔ ∀ c ∈ l, c = '.' := by
    intro l
    induction l with
    | nil => simp
    | cons c l ih =>
      rw [List.splitOnP_cons_eq_if_modifyHead]
      by_cases hc : c = '.'
      · simp [hc, ih]
      · obtain ⟨segment, rest, hrest⟩ :=
          List.exists_cons_of_ne_nil (List.splitOnP_ne_nil (· == '.') l)
        simp [hc, hrest]
  rw [← hsplit, parse, List.map_eq_nil_iff, List.filter_eq_nil_iff]
  simp

namespace Document

variable {d : Document} {b c n t x : NodeId} {path : List String} {cut : String × List String}
  {fuel : Nat} {dependency : Dependency} {chain : List NodeId}

def Displays (d : Document) (block node : NodeId) : Prop :=
  ∃ e ∈ d.entries block, e.isVisible ∧ e.node = node

/-- A way down from a block along what is in sight, with names that join to a path. -/
structure Spells (d : Document) (block : NodeId) (path : List String) (chain : List NodeId) :
    Prop where
  displayed : (block :: chain).IsChain d.Displays
  nonempty : chain ≠ []
  names : ".".intercalate (chain.map d.nameOf) = ".".intercalate path

/-- What a block answers a reference with on its own, without those around it. -/
def answerOf (d : Document) (dependency : Dependency) (block : NodeId) : Option NodeId :=
  let path := (Name.parse dependency.reference).parts
  d.resolveIn dependency.origin path.length block path

theorem resolve?_eq (d : Document) (dependency : Dependency) :
    d.resolve? dependency = (d.lineage dependency.scope).findSome? (d.answerOf dependency) := rfl

theorem join_cut (h : cut ∈ cuts path) : ".".intercalate path =
    if cut.2 = [] then cut.1 else cut.1 ++ "." ++ ".".intercalate cut.2 := by
  obtain ⟨i, hi, rfl⟩ := List.mem_map.mp h
  have hlt := List.mem_range.mp (List.mem_reverse.mp hi)
  have hjoin : path.take (i + 1) ++ path.drop (i + 1) = path := List.take_append_drop _ _
  split
  · next hnil =>
    have hdrop : path.drop (i + 1) = [] := hnil
    have htake : path.take (i + 1) = path := by rwa [hdrop, List.append_nil] at hjoin
    rw [Name.full, htake]
  · next hrest =>
    have htake : path.take (i + 1) ≠ [] := by
      have hlen : (path.take (i + 1)).length = i + 1 := List.length_take_of_le hlt
      exact List.ne_nil_of_length_eq_add_one hlen
    rw [Name.full, ← String.intercalate_append_of_ne_nil htake hrest, hjoin]

theorem Displays.of_hits {e : Entry} {name : String} (he : e ∈ d.hits b name) :
    d.Displays b e.node ∧ d.isLive e.node ∧ d.nameOf e.node = name := by
  obtain ⟨hmem, hvisible, n, hn, hname⟩ := mem_hits.mp he
  refine ⟨⟨e, hmem, hvisible, rfl⟩, isLive_iff.mpr ⟨n, hn⟩, ?_⟩
  rw [nameOf, hn]
  exact hname

/-- A cut that leads on does so by way of a declaration other than the one that is passed over. -/
theorem of_attempt (h : d.attempt n fuel b cut = some (some t)) :
    ∃ x, d.Displays b x ∧ d.isLive x ∧ d.nameOf x = cut.1 ∧ x ≠ n ∧
      d.leadsPast n fuel x cut.2 = some t := by
  cases hfound : d.elementNamed? b cut.1 with
  | none => simp [attempt, hfound] at h
  | some found =>
    rw [attempt, hfound] at h
    dsimp only at h
    by_cases hself : found = n
    · rw [if_pos hself, lookupPast_eq, Option.map_map] at h
      obtain ⟨e, he, hleads⟩ := Option.map_eq_some_iff.mp h
      obtain ⟨hhit, hne⟩ := List.mem_filter.mp (List.mem_of_getLast? he)
      obtain ⟨hd, hlive, hname⟩ := Displays.of_hits hhit
      exact ⟨e.node, hd, hlive, hname, by simpa using hne, hleads⟩
    · rw [if_neg hself] at h
      obtain ⟨y, hleads, hy⟩ := Option.map_eq_some_iff.mp h
      obtain ⟨e, he, rfl⟩ := Option.map_eq_some_iff.mp (elementNamed?_eq d b cut.1 ▸ hfound)
      obtain ⟨hd, hlive, hname⟩ := Displays.of_hits (Entry.mem_of_pick he)
      exact ⟨e.node, hd, hlive, hname, hself, hleads.trans hy⟩

/-- What a search below a block finds is in sight there, along names that spell the path. -/
theorem spells_of_resolveIn (h : d.resolveIn n fuel b path = some t) :
    d.isLive t ∧ t ≠ n ∧ ∃ chain, d.Spells b path chain ∧ chain.getLast? = some t := by
  induction fuel generalizing b path with
  | zero => cases h
  | succ fuel ih =>
    rw [resolveIn_succ, Option.join_eq_some_iff] at h
    obtain ⟨cut, hcut, hattempt⟩ := List.exists_of_findSome?_eq_some h
    obtain ⟨x, hd, hlive, hname, hne, hleads⟩ := of_attempt hattempt
    have hjoin := join_cut hcut
    rw [leadsPast] at hleads
    by_cases hrest : cut.2 = []
    · rw [if_pos (List.isEmpty_iff.mpr hrest)] at hleads
      obtain rfl := Option.some.inj hleads
      refine ⟨hlive, hne, [x], ⟨.cons_cons hd (.singleton x), List.cons_ne_nil _ _, ?_⟩, rfl⟩
      rw [hjoin, if_pos hrest, ← hname]
      exact String.intercalate_singleton
    · rw [if_neg (by simpa using hrest)] at hleads
      obtain ⟨hcontainer, hleads⟩ : (d.store? x).isSome ∧ d.resolveIn n fuel x cut.2 = some t := by
        simpa using hleads
      obtain ⟨htlive, htne, chain, hspells, hlast⟩ := ih hleads
      refine ⟨htlive, htne, x :: chain, ⟨.cons_cons hd hspells.displayed, List.cons_ne_nil _ _, ?_⟩,
        ?_⟩
      · have hnames : chain.map d.nameOf ≠ [] := by simpa using hspells.nonempty
        rw [List.map_cons, String.intercalate_cons_of_ne_nil hnames, hspells.names, hname, hjoin,
          if_neg hrest]
      · rw [List.getLast?_cons_of_ne_nil hspells.nonempty, hlast]

theorem lineage_pairwise (ho : d.Older) (x : NodeId) : (d.lineage x).Pairwise (· > ·) := by
  have hfuel : ∀ fuel x, (d.lineageWithin fuel x).Pairwise (· > ·) ∧
      ∀ a ∈ d.lineageWithin fuel x, a ≤ x := by
    intro fuel
    induction fuel with
    | zero => exact fun x ↦ ⟨.nil, fun a ha ↦ absurd ha List.not_mem_nil⟩
    | succ fuel ih =>
      intro x
      cases hn : d.node? x with
      | none => simp [lineageWithin, hn]
      | some m =>
        cases hp : m.parent with
        | none => simp [lineageWithin, hn, hp]
        | some p =>
          obtain ⟨hsorted, hle⟩ := ih p
          have hlt : ∀ a ∈ d.lineageWithin fuel p, a < x := fun a ha ↦
            Nat.lt_of_le_of_lt (hle a ha) (ho x m p hn hp)
          simp only [lineageWithin, hn, hp]
          refine ⟨List.pairwise_cons.mpr ⟨hlt, hsorted⟩, fun a ha ↦ ?_⟩
          rcases List.mem_cons.mp ha with rfl | ha
          · exact Nat.le_refl _
          · exact Nat.le_of_lt (hlt a ha)
  exact (hfuel _ x).1

/-- The walk outwards stops at a block that answers, and none that it has passed does. -/
theorem innermost_of_resolve? (ho : d.Older) (h : d.resolve? dependency = some t) :
    ∃ b, d.isLive b ∧ Below d b dependency.scope ∧ d.answerOf dependency b = some t ∧
      ∀ c, c ≠ b → Below d b c → Below d c dependency.scope → d.answerOf dependency c = none := by
  rw [resolve?_eq] at h
  obtain ⟨inner, b, outer, hsplit, hb, hinner⟩ := List.findSome?_eq_some_iff.mp h
  have hmem : b ∈ d.lineage dependency.scope := hsplit ▸ List.mem_append_right _ List.mem_cons_self
  obtain ⟨hscope, hlive, hbelow⟩ := (mem_lineage ho).mp hmem
  refine ⟨b, hlive, hbelow, hb, fun c hne hbc hc ↦ hinner c ?_⟩
  have hcmem : c ∈ inner ++ b :: outer :=
    hsplit ▸ (mem_lineage ho).mpr ⟨hscope, hbc.isLive hlive, hc⟩
  have hsorted := hsplit ▸ lineage_pairwise ho dependency.scope
  -- what comes behind `b` has smaller numbers, so it is not below `b`
  rcases List.mem_append.mp hcmem with hc | hc
  · exact hc
  · have hout := (List.pairwise_cons.mp (List.pairwise_append.mp hsorted).2.1).1 c
      ((List.mem_cons.mp hc).resolve_left hne)
    exact absurd (hbc.le ho) (Nat.not_le.mpr hout)

/-- A reference resolves to something that is there, other than the node it is in. From the block
that decides a way down leads there along what is in sight, under names that spell the reference,
and no block further in answers. Without a segment or a scope there is no target. -/
theorem resolve?_sound (hd : d.Reachable) (dependency : Dependency) :
    (∀ t, d.resolve? dependency = some t → d.isLive t ∧ t ≠ dependency.origin ∧
      ∃ b chain, d.isLive b ∧ Below d b dependency.scope ∧
        d.Spells b (Name.parse dependency.reference).parts chain ∧ chain.getLast? = some t ∧
        ∀ c, c ≠ b → Below d b c → Below d c dependency.scope →
          d.answerOf dependency c = none) ∧
    ((∀ c ∈ dependency.reference.toList, c = '.') ∨ ¬ d.isLive dependency.scope →
      d.resolve? dependency = none) := by
  have ho := hd.linked.older
  refine ⟨fun t ht ↦ ?_, fun h ↦ ?_⟩
  · obtain ⟨b, hlive, hbelow, hb, hinner⟩ := innermost_of_resolve? ho ht
    obtain ⟨htlive, htne, chain, hspells, hlast⟩ := spells_of_resolveIn hb
    exact ⟨htlive, htne, b, chain, hlive, hbelow, hspells, hlast, hinner⟩
  · rw [resolve?_eq, List.findSome?_eq_none_iff]
    intro b hb
    rcases h with hdots | hdead
    · rw [answerOf, Name.parts_parse_eq_nil.mpr hdots]
      rfl
    · exact absurd ((mem_lineage ho).mp hb).1 hdead

def scopedDocument : Document :=
  let d := ((Edit.addParsed root
    { name := ⟨["ext"]⟩, kind := .block "ext"
      children := [.literal ⟨["kotlin", "version"]⟩ (.integer 2)] }).run (.new ⟨"app"⟩ {})).2
  ((Edit.addParsed root
    { name := ⟨["android"]⟩, kind := .block "android"
      children := [.literal ⟨["version"]⟩ (.reference ".ext..kotlin.version"),
        { name := ⟨["ext"]⟩, kind := .block "ext"
          children := [.literal ⟨["java"]⟩ (.integer 21)] }] }).run d).2

theorem resolve?_scopedDocument :
    scopedDocument.Reachable ∧
    scopedDocument.resolve? ⟨4, ".ext..kotlin.version", 3⟩ = some 2 ∧
    (∃ b chain, scopedDocument.isLive b ∧ Below scopedDocument b 3 ∧
      scopedDocument.Spells b ["ext", "kotlin", "version"] chain ∧ chain.getLast? = some 2 ∧
      ∀ c, c ≠ b → Below scopedDocument b c → Below scopedDocument c 3 →
        scopedDocument.answerOf ⟨4, ".ext..kotlin.version", 3⟩ c = none) ∧
    scopedDocument.resolve? ⟨4, "..", 3⟩ = none ∧
    scopedDocument.resolve? ⟨4, "ext", 9⟩ = none := by
  have hd : scopedDocument.Reachable := .edit _ (.edit _ (.new ⟨"app"⟩ {}) trivial) trivial
  have htarget : scopedDocument.resolve? ⟨4, ".ext..kotlin.version", 3⟩ = some 2 := by
    decide +kernel
  have hpath : (Name.parse ".ext..kotlin.version").parts = ["ext", "kotlin", "version"] := by
    decide +kernel
  have hway := ((resolve?_sound hd ⟨4, ".ext..kotlin.version", 3⟩).1 2 htarget).2.2
  rw [hpath] at hway
  exact ⟨hd, htarget, hway, (resolve?_sound hd _).2 (.inl (by simp)),
    (resolve?_sound hd _).2 (.inr (by decide +kernel))⟩

end Document

end BuildScript
