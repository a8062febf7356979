import Mathlib
import WitCaller.Proofs.Manifest.Dependency
import WitCaller.Proofs.Manifest.Rewriting
import WitCaller.Proofs.Manifest.Sections
import WitCaller.Proofs.Toml.Differences
import WitCaller.Proofs.Toml.Sections

/-!
When a new dependency is put where it belongs: after statements that are complete and end in the
section of the dependencies.
-/

namespace WitCaller.Manifest
open Toml Text Reading Assoc
variable {c : Cut} {e : Char} {z r text : List Char} {name path : String} {sts sts' : List Statement}
  {old new : Table}

/-- The place of a new dependency is in the section of the dependencies, between two statements. -/
def Cut.Placed (c : Cut) (text : List Char) : Prop :=
  ∃ sts post, readStatements (endLine c.above) = some sts ∧ EndsIn "dependencies" sts ∧
    readStatements c.below = some post ∧ readStatements text = some (sts ++ post)

/-- The place of a new dependency is at the start of a line, or at the end of the text. -/
def Cut.OwnLine (c : Cut) : Prop := LineEnd c.above ∨ c.below = []

theorem toNat_of_isBare (he : isBare e) : 45 ≤ e.toNat ∧ e.toNat ≤ 122 := by
  simp only [isBare, Bool.or_eq_true, beq_iff_eq] at he
  rcases he with (he | rfl) | rfl
  · obtain ⟨hlow, hhigh⟩ := toNat_of_isAlphanum he
    omega
  all_goals decide

theorem not_isBlank_of_isBare (he : isBare e) : isBlank e = false := by
  obtain ⟨hlow, hhigh⟩ := toNat_of_isBare he
  simp only [isBlank, Bool.or_eq_false_iff, Bool.and_eq_false_iff, decide_eq_false_iff_not,
    beq_eq_false_iff_ne]
  omega

/-- The first character of the line of a dependency that is no blank. -/
def Begins (e : Char) : Prop := isBare e ∨ e = '='

theorem Begins.ordinary (he : Begins e) : e ≠ '\x22' ∧ e ≠ '\x27' ∧ e ≠ '\\' := by
  rcases he with he | rfl
  · refine ⟨?_, ?_, ?_⟩ <;> rintro rfl <;> cases he
  · decide

theorem Begins.not_gap (he : Begins e) : ¬ (isSpace e ∨ e = '\n') := by
  rcases he with he | rfl
  · exact (not_gap_of_isBare he).1
  · decide

theorem Begins.not_below (he : Begins e) : ¬ (isBlank e ∨ e = '[') := by
  rcases he with he | rfl
  · rw [not_isBlank_of_isBare he]
    rintro (h | rfl)
    · cases h
    · cases he
  · decide

theorem dependencyLine_front (path : String) (hn : ∀ c ∈ name.toList, isBare c) :
    ∃ w e r, dependencyLine name path = w ++ e :: r ∧ (∀ d ∈ w, isSpace d ∨ d = '\n') ∧ Begins e := by
  rw [dependencyLine_eq]
  cases hname : name.toList with
  | nil =>
    refine ⟨[' '], '=', _, rfl, ?_, .inr rfl⟩
    intro d hd
    rw [List.mem_singleton.1 hd]
    exact .inl rfl
  | cons d k => exact ⟨[], d, _, rfl, by simp, .inl (hn d (hname ▸ List.mem_cons_self))⟩

theorem isScalar_of_isBare (he : isBare e) : isScalar e := by
  rw [isBare, Bool.or_eq_true, Bool.or_eq_true] at he
  rcases he with (he | he) | he <;> simp [isScalar, he]

theorem scalarRun_bare {k t : List Char} (hk : ∀ c ∈ k, isBare c) (ht : Stop t) :
    scalarRun (k ++ t) = (k, t) := by
  induction k with
  | nil =>
    cases t with
    | nil => rfl
    | cons c r => simp [scalarRun, (ht c r rfl).1]
  | cons c k ih =>
    have hc : goesOn c (k ++ t) := by
      rw [goesOn, isScalar_of_isBare (hk c List.mem_cons_self), Bool.true_or]
    rw [List.cons_append, scalarRun, if_pos hc, ih fun d hd => hk d (List.mem_cons_of_mem c hd)]

/-- The line of a dependency is no item of an array. -/
theorem outcome_readItem_name {k : List Char} (hk : ∀ c ∈ k, isBare c) :
    outcome (readItem (k ++ ' ' :: '=' :: z)) = none := by
  have hstop : Stop (' ' :: '=' :: z) := by
    rintro c r ⟨⟩
    exact ⟨rfl, by decide, by decide⟩
  have hvalue : ∀ v t, outcome (readValue (k ++ ' ' :: '=' :: z)) = some (v, t) → t = ' ' :: '=' :: z := by
    intro v t h
    have hopens : ∃ c r, k ++ ' ' :: '=' :: z = c :: r ∧ ¬ Opens c := by
      cases k with
      | nil => exact ⟨' ', _, rfl, by unfold Opens; decide⟩
      | cons c k =>
        refine ⟨c, _, rfl, ?_⟩
        rintro ((rfl | rfl) | rfl | rfl) <;> cases hk _ List.mem_cons_self
    obtain ⟨c, r, hs, ho⟩ := hopens
    rw [hs, outcome_readValue_scalar ho, ← hs, outcome_readScalar, scalarRun_bare hk hstop] at h
    split at h
    · cases h
    · obtain ⟨v', -, he⟩ := Option.map_eq_some_iff.1 h
      exact (Prod.mk.inj he).2.symm
  rw [outcome_readItem]
  cases h : outcome (readValue (k ++ ' ' :: '=' :: z)) with
  | none => rfl
  | some x =>
    obtain ⟨v, t⟩ := x
    rw [hvalue v t h]
    rfl

theorem outcome_readItem_equals : outcome (readItem ('=' :: z)) = none := by
  have ho : ¬ Opens '=' := by
    unfold Opens
    decide
  rw [outcome_readItem, outcome_readValue_none ho (by simp [goesOn, isScalar])]
  rfl

/-- Text of the manifest and the line of a dependency continue no value in the same way. -/
theorem parted_below (hcut : cutAt? "dependencies" (fullLines text) = some c)
    (hn : ∀ c ∈ name.toList, isBare c) : Parted c.below (dependencyLine name path ++ c.below) where
  tails := by
    intro read hr x t x' t' h h' hx
    subst hx
    obtain ⟨w, e, r, hline, hw, he⟩ := dependencyLine_front path hn
    rw [hline, List.append_assoc, List.cons_append] at h'
    obtain ⟨w₁, y, rfl, hw₁⟩ := hr.front hw he.ordinary he.not_gap h'
    rcases below_gaps hcut with hall | ⟨w', d, r', hbelow, hw', hgap, hd⟩
    · rw [hr.gaps hall] at h
      cases h
    · have hord : d ≠ '\x22' ∧ d ≠ '\x27' ∧ d ≠ '\\' := by
        refine ⟨?_, ?_, ?_⟩ <;> rintro rfl <;> exact absurd hd (by decide)
      rw [hbelow] at h
      obtain ⟨w₂, y', hx, hw₂⟩ := hr.front hw' hord hgap h
      have hed : e = d := eq_of_gaps hx hw₁ hw₂ he.not_gap hgap
      exact he.not_below (hed ▸ hd)
  item := by
    intro d r h
    rw [dependencyLine_eq, List.append_assoc] at h
    cases hname : name.toList with
    | nil =>
      rw [hname] at h
      cases h
      exact ⟨by decide, by decide, outcome_readItem_equals⟩
    | cons d' k =>
      rw [hname] at hn h
      have hd' := not_gap_of_isBare (hn d' List.mem_cons_self)
      rw [List.cons_append, skipGaps_stop hd'.1 hd'.2.1] at h
      cases h
      refine ⟨?_, ?_, outcome_readItem_name hn⟩
      all_goals
        rintro rfl
        cases hn _ List.mem_cons_self

/-- A dependency that is put in its place is added to the document, and nothing else changes. -/
theorem updates_of_placed (hcut : cutAt? "dependencies" (fullLines text) = some c) (hplaced : c.Placed text)
    (hn : ∀ c ∈ name.toList, isBare c) (hp : Plain path.toList)
    (h : (readStatements text).bind build = some old)
    (h' : (readStatements (addDependency name path text)).bind build = some new) :
    Updates "dependencies" name (pathValue path) old new := by
  obtain ⟨sts, post, habove, hends, hbelow, htext⟩ := hplaced
  have hread : readStatements (endLine c.above ++ (dependencyLine name path ++ c.below)) =
      (readStatements (dependencyLine name path ++ c.below)).map (sts ++ ·) :=
    readStatements_append habove (.inl lineEnd_endLine)
  rw [addDependency_eq hcut, hread] at h'
  rw [htext] at h
  by_cases hne : name.toList = []
  · rw [readStatements_dependencyLine_nil hne] at h'
    cases h'
  · rw [readStatements_dependencyLine hn hne hp, hbelow] at h'
    exact build_insert hends h h'

/-- If the dependency is added to the document, the lines above it are complete statements. -/
theorem complete_of_updates {sub : Table} (hcut : cutAt? "dependencies" (fullLines text) = some c)
    (hline : c.OwnLine) (hn : ∀ c ∈ name.toList, isBare c)
    (h : (readStatements text).bind build = some old)
    (h' : (readStatements (addDependency name path text)).bind build = some new)
    (hold : get? "dependencies" old = some (.table sub)) (hkey : get? name sub = none)
    (hu : Updates "dependencies" name (pathValue path) old new) :
    ∃ sts, readStatements (endLine c.above) = some sts := by
  obtain ⟨sts, hsts, hbuild⟩ := Option.bind_eq_some_iff.1 h
  obtain ⟨sts', hsts', hbuild'⟩ := Option.bind_eq_some_iff.1 h'
  rw [addDependency_eq hcut] at hsts'
  rw [← above_append_below hcut] at hsts
  rcases hline with hend | hnil
  · rw [endLine_of_lineEnd hend] at hsts' ⊢
    rcases differ_readStatements (parted_below hcut hn) hend hsts hsts' with hcomplete | hd
    · exact hcomplete
    · refine absurd (differ_build hd hbuild hbuild') (hu.not_differ ?_)
      intro sub' y hsub' hy
      cases hold.symm.trans hsub'
      rw [hkey] at hy
      cases hy
  · rw [hnil, List.append_nil] at hsts
    have hread := readStatements_endLine (z := []) hsts
    rw [List.append_nil] at hread
    exact ⟨_, hread.trans (by rw [readStatements_nil]; rfl)⟩

/-- The statements of the manifest before and after the new dependency is put in. -/
theorem readStatements_addDependency {sts₁ sts₂ : List Statement}
    (hcut : cutAt? "dependencies" (fullLines text) = some c) (hline : c.OwnLine)
    (hn : ∀ c ∈ name.toList, isBare c) (hp : Plain path.toList)
    (habove : readStatements (endLine c.above) = some sts) (h : readStatements text = some sts₁)
    (h' : readStatements (addDependency name path text) = some sts₂) :
    ∃ post, readStatements c.below = some post ∧ sts₁ = sts ++ post ∧
      sts₂ = sts ++ .pair ⟨[name], pathValue path⟩ :: post := by
  rw [addDependency_eq hcut, readStatements_append habove (.inl lineEnd_endLine)] at h'
  by_cases hne : name.toList = []
  · rw [readStatements_dependencyLine_nil hne] at h'
    cases h'
  rw [readStatements_dependencyLine hn hne hp] at h'
  obtain ⟨_, hpair, rfl⟩ := Option.map_eq_some_iff.1 h'
  obtain ⟨post, hpost, rfl⟩ := Option.map_eq_some_iff.1 hpair
  refine ⟨post, hpost, ?_, rfl⟩
  rw [← above_append_below hcut] at h
  rcases hline with hend | hnil
  · rw [endLine_of_lineEnd hend] at habove
    rw [readStatements_append habove (.inl hend), hpost] at h
    exact (Option.some.inj h).symm
  · rw [hnil, readStatements_nil] at hpost
    cases hpost
    rw [hnil, List.append_nil] at h
    have hread := readStatements_endLine (z := []) h
    rw [List.append_nil, habove, readStatements_nil] at hread
    simpa using (Option.some.inj hread).symm

/-- A dependency that is added to the document is put in its place. -/
theorem placed_of_updates {sub : Table} (hcut : cutAt? "dependencies" (fullLines text) = some c)
    (hline : c.OwnLine) (hn : ∀ c ∈ name.toList, isBare c) (hp : Plain path.toList)
    (h : (readStatements text).bind build = some old)
    (h' : (readStatements (addDependency name path text)).bind build = some new)
    (hold : get? "dependencies" old = some (.table sub)) (hkey : get? name sub = none)
    (hu : Updates "dependencies" name (pathValue path) old new) : c.Placed text := by
  obtain ⟨sts, habove⟩ := complete_of_updates hcut hline hn h h' hold hkey hu
  obtain ⟨sts₁, h₁, hbuild₁⟩ := Option.bind_eq_some_iff.1 h
  obtain ⟨sts₂, h₂, hbuild₂⟩ := Option.bind_eq_some_iff.1 h'
  obtain ⟨post, hpost, rfl, rfl⟩ := readStatements_addDependency hcut hline hn hp habove h₁ h₂
  exact ⟨sts, post, habove, endsIn_of_updates hold hkey hbuild₁ hbuild₂ hu, hpost, h₁⟩

/-- Without a section of its own the dependencies get one more table. -/
theorem updates_of_no_section {sub : Table} (hcut : cutAt? "dependencies" (fullLines text) = none)
    (hn : ∀ c ∈ name.toList, isBare c) (hp : Plain path.toList)
    (h : (readStatements text).bind build = some old)
    (h' : (readStatements (addDependency name path text)).bind build = some new)
    (hold : get? "dependencies" old = some (.table sub)) (hkey : get? name sub = none) :
    Updates "dependencies" name (pathValue path) old new := by
  obtain ⟨sts, hsts, hbuild⟩ := Option.bind_eq_some_iff.1 h
  rw [addDependency_eq_of_none hcut, readStatements_endLine hsts] at h'
  by_cases hne : name.toList = []
  · rw [readStatements_dependencyTable_nil hne] at h'
    cases h'
  · rw [readStatements_dependencyTable hn hne hp] at h'
    exact build_table hbuild hold hkey h'

theorem not_mem_addDependency (hn : ∀ c ∈ name.toList, isBare c) (hp : Plain path.toList)
    (ht : '\r' ∉ text) : '\r' ∉ addDependency name path text := by
  have hline := not_mem_dependencyLine hn hp
  cases hcut : cutAt? "dependencies" (fullLines text) with
  | none =>
    rw [addDependency_eq_of_none hcut, List.mem_append]
    rintro (h | h)
    · exact ht (mem_of_endLine (by decide) h)
    · exact not_mem_dependencyTable hn hp h
  | some c =>
    rw [← above_append_below hcut, List.mem_append, not_or] at ht
    rw [addDependency_eq hcut, List.mem_append, List.mem_append]
    rintro (h | h | h)
    · exact ht.1 (mem_of_endLine (by decide) h)
    · exact hline h
    · exact ht.2 h

/-- A manifest holds a document. -/
def Holds (s : Session) (p : Path) (table : Table) : Prop :=
  ∃ text, s.textAt p = .ok text ∧ decode text = some table

variable {project : Path} {s s' : Session}

/-- A run that adds a dependency adds it to the document, and nothing else changes, if no line looks
like the header of the dependencies, or if the place that the lines show is right; and only then, if
that place is at the start of a line. -/
theorem addPathDependency_updates_iff (hn : ∀ c ∈ name.toList, isBare c) (hp : Plain path.toList)
    (hk : s.ReportsAside (fileIn project))
    (h : addPathDependency project name path s = (.ok true, s')) : ∃ text old new,
      s.textAt (fileIn project) = .ok text ∧ decode text = some old ∧ Holds s' (fileIn project) new ∧
      (cutAt? "dependencies" (fullLines text) = none →
        Updates "dependencies" name (pathValue path) old new) ∧
      ∀ c, cutAt? "dependencies" (fullLines text) = some c →
        (c.Placed text → Updates "dependencies" name (pathValue path) old new) ∧
        (c.OwnLine → (Updates "dependencies" name (pathValue path) old new ↔ c.Placed text)) := by
  obtain ⟨text, old, new, sub, htext, hwritten, hold, hnew, hsub, hname⟩ := addPathDependency_returns hk h
  have hreturn : '\r' ∉ text := Session.not_mem_of_textAt htext
  have hreturn' := not_mem_addDependency hn hp hreturn
  have hread := decode_eq hreturn ▸ hold
  have hread' := decode_eq hreturn' ▸ hnew
  rw [unifyLineEnds_eq_self hreturn'] at hwritten
  refine ⟨text, old, new, htext, hold, ⟨_, hwritten, hnew⟩, fun hcut => ?_, fun c hcut => ?_⟩
  · exact updates_of_no_section hcut hn hp hread hread' hsub hname
  · have hplaced := fun hplaced => updates_of_placed hcut hplaced hn hp hread hread'
    refine ⟨hplaced, fun hline => ⟨fun hu => ?_, hplaced⟩⟩
    exact placed_of_updates hcut hline hn hp hread hread' hsub hname hu

/-- A run in a directory with a manifest. -/
def withManifest (text : String) : Session where
  cwd := ["w"]
  tree := ⟨[(["w"], .directory), (["w", "Cargo.toml"], .file (Utf8.encode text.toList))]⟩

/-- The dependency is added where the dependencies have only tables of their own, and is not where a
line hides the header of another table. -/
theorem addPathDependency_updates_iff_hidden :
    let here : Path := ⟨.relative, []⟩
    (∃ s' old new, addPathDependency here "calls" "../calls"
      (withManifest "[dependencies.a]\nversion = \"1\"\n") = (.ok true, s') ∧
      Holds s' (fileIn here) new ∧ Updates "dependencies" "calls" (pathValue "../calls") old new) ∧
    ∃ s' old new, addPathDependency here "calls" "../calls"
      (withManifest "[dependencies]\na = \"1\"\n[\"x]y\"]\nb = 2\n") = (.ok true, s') ∧
      Holds s' (fileIn here) new ∧ ¬ Updates "dependencies" "calls" (pathValue "../calls") old new := by
  intro here
  have key (manifest : String) (hreturns : (addPathDependency here "calls" "../calls"
      (withManifest manifest)).1.toOption = some true) :
      ∃ s', addPathDependency here "calls" "../calls" (withManifest manifest) = (.ok true, s') :=
    ⟨_, Steps.apply_of_toOption hreturns⟩
  have hname : ∀ c ∈ "calls".toList, isBare c := List.all_eq_true.1 (by decide)
  have hpath : Plain "../calls".toList := by decide
  have haside (manifest : String) : (withManifest manifest).ReportsAside (fileIn here) := by
    rintro k ⟨⟩
  constructor
  · obtain ⟨s', h⟩ := key "[dependencies.a]\nversion = \"1\"\n" (by decide +kernel)
    obtain ⟨text, old, new, htext, -, hnew, hnone, -⟩ :=
      addPathDependency_updates_iff hname hpath (haside _) h
    have hread : ((withManifest "[dependencies.a]\nversion = \"1\"\n").textAt (fileIn here)).toOption =
        some "[dependencies.a]\nversion = \"1\"\n".toList := by decide +kernel
    rw [htext] at hread
    cases hread
    exact ⟨s', old, new, h, hnew, hnone (by decide +kernel)⟩
  · obtain ⟨s', h⟩ := key "[dependencies]\na = \"1\"\n[\"x]y\"]\nb = 2\n" (by decide +kernel)
    obtain ⟨text, old, new, -, -, hnew, -⟩ := addPathDependency_updates_iff hname hpath (haside _) h
    refine ⟨s', old, new, h, hnew, fun hu => ?_⟩
    obtain ⟨text', htext', hdecode⟩ := hnew
    have hmissing : ((((addPathDependency here "calls" "../calls" (withManifest
        "[dependencies]\na = \"1\"\n[\"x]y\"]\nb = 2\n")).2.textAt (fileIn here)).toOption.bind
        decode).bind dependencies?).bind (get? "calls") = none := by
      rw [← Option.isNone_iff_eq_none]
      decide +kernel
    obtain ⟨sub, sub', -, hnew, -, hadded⟩ := hu.inside
    rw [h] at hmissing
    simp only [htext', Except.toOption, Option.bind_some, hdecode, dependencies?, hnew, Value.table?,
      hadded, bind] at hmissing
    cases hmissing

end WitCaller.Manifest
