import WitCaller.Proofs.Manifest.Members
import WitCaller.Proofs.Manifest.Registering

/-!
A registration that is made a second time. It has nothing to do if and only if the document that the
first one has left holds what was registered. It does where the text of the manifest was cut in the
section of the table, and the names need no escapes.
-/

namespace WitCaller

namespace Run
open Steps Session
variable {ε α : Type} {s₀ : Session} {m : Run ε α} {n : Run ε Bool} {f : α → Run ε Bool} {a : α}
  {P : Prop}

/-- That a run never returns `false`. -/
def Affirms (n : Run ε Bool) : Prop := ∀ s s', n s ≠ (.ok false, s')

theorem Affirms.bind (hf : ∀ a, Affirms (f a)) : Affirms (m >>= f) := by
  intro s s' h
  obtain ⟨a, s₁, -, h⟩ := bind_eq_ok_iff.1 h
  exact hf a s₁ s' h

theorem affirms_true : Affirms (return true : Run ε Bool) := by
  rintro s s' ⟨⟩

/-- Wherever nothing but reports was made since `s₀`, a run returns `false` exactly if something holds. -/
def Declines (s₀ : Session) (n : Run ε Bool) (P : Prop) : Prop :=
  ∀ s, s₀.Reported s → ((n s).1 = .ok false ↔ P)

namespace Declines

theorem andThen (hm : Yields s₀ m (.ok a)) (hf : Declines s₀ (f a) P) : Declines s₀ (m >>= f) P := by
  intro s hs
  obtain ⟨s₁, hs₁, h₁⟩ := hm s hs
  rw [bind_ok h₁]
  exact hf s₁ hs₁

theorem of_yields (hn : Yields s₀ n (.ok false)) (hP : P) : Declines s₀ n P := by
  intro s hs
  obtain ⟨s', -, h⟩ := hn s hs
  rw [h]
  exact iff_of_true rfl hP

theorem of_affirms (hn : Affirms n) (hP : ¬ P) : Declines s₀ n P :=
  fun s _ => iff_of_false (fun h => hn s _ (Prod.ext h rfl)) hP

end Declines

end Run

namespace Manifest
open Toml Text Reading Assoc Run Session
variable {s s' : Session} {base project : Path} {member name path : String} {text : List Char}
  {table : Table}

/-- That a document holds what a registration asks for, or has no place for it. -/
def Call.Finds : Call → Table → Prop
  | .member _ crate, table => ∀ vs, members? table = some vs → vs.any (Value.isText crate) = true
  | .dependency _ name _, table =>
    ∀ sub, dependencies? table = some sub → (get? name sub).isSome = true

theorem yields_load {p : Path} (h : decode text = some table) :
    Yields s (ofExcept id (load p text)) (.ok table) := by
  rw [load, h]
  exact Yields.ofExcept

/-- A run that returns `false`, and that writes a manifest only where it returns `true`, makes reports
only. -/
theorem yields_of_declines {m : Run Failure Bool} {P : Prop} {p : Path} (hm : Declines s m P)
    (hw : Writes p m) (hP : P) : Yields s m (.ok false) := by
  intro s₁ hs
  have hrun : m s₁ = (.ok false, (m s₁).2) := Prod.ext ((hm s₁ hs).2 hP) rfl
  obtain ⟨-, hreported⟩ | ⟨_, _, _, htrue, -⟩ := hw s₁ _ _ hrun
  · exact ⟨_, Frame.trans hs hreported, hrun⟩
  · cases htrue

theorem declines_registerMember (hk : s.ReportsAside (fileIn base)) (h : Holds s (fileIn base) table) :
    Declines s (registerMember base member) ((Call.member base member).Finds table) := by
  obtain ⟨text, htext, htable⟩ := h
  have hexists : Yields s (exists? (fileIn base) : Run Failure Bool) (.ok true) :=
    exists?_of_textAt htext ▸ Yields.exists?
  unfold registerMember
  refine .andThen .report (.andThen hexists ?_)
  refine .andThen (htext ▸ Yields.readText hk) (.andThen (yields_load htable) ?_)
  change Declines s _ (∀ vs, members? table = some vs → vs.any (Value.isText member) = true)
  cases members? table with
  | none => exact .of_yields (Yields.report.andThen .pure) nofun
  | some vs =>
    simp only [Option.some.injEq, forall_eq']
    split
    · next hany => exact .of_yields (Yields.report.andThen .pure) hany
    · next hany =>
      exact .of_affirms (.bind fun _ => .bind fun _ => .bind fun _ => affirms_true) hany

theorem declines_addPathDependency (hk : s.ReportsAside (fileIn project))
    (h : Holds s (fileIn project) table) : Declines s (addPathDependency project name path)
      ((Call.dependency project name path).Finds table) := by
  obtain ⟨text, htext, htable⟩ := h
  have hread : Yields s (readProject (fileIn project)) (.ok text) := by
    have hattempt : Yields s (attempt (readText (fileIn project)) : Run Failure _) (.ok (.ok text)) :=
      htext ▸ Yields.attempt (Yields.readText hk)
    exact hattempt.andThen .pure
  unfold addPathDependency
  refine .andThen .report (.andThen hread (.andThen (yields_load htable) ?_))
  change Declines s _ (∀ sub, dependencies? table = some sub → (get? name sub).isSome = true)
  cases dependencies? table with
  | none => exact .of_yields (Yields.report.andThen .pure) nofun
  | some sub =>
    simp only [Option.some.injEq, forall_eq']
    split
    · next hsome => exact .of_yields (Yields.report.andThen .pure) hsome
    · next hsome =>
      refine .of_affirms (.bind fun _ => ?_) hsome
      split
      all_goals exact .bind fun _ => affirms_true

namespace Call
variable {c : Call}

/-- That a registration returns `false` and leaves its manifest as it is. -/
def Idle (c : Call) (s : Session) : Prop := ∃ s', c.run s = (.ok false, s') ∧
  s'.tree.get? (FileTree.target s.cwd c.manifest) = s.tree.get? (FileTree.target s.cwd c.manifest)

theorem idle_iff (hk : s.ReportsAside c.manifest) (h : Holds s c.manifest table) :
    c.Idle s ↔ c.Finds table := by
  have hdeclines : Declines s c.run (c.Finds table) := by
    cases c with
    | member => exact declines_registerMember hk h
    | dependency => exact declines_addPathDependency hk h
  have hfalse := hdeclines s (Frame.refl s)
  constructor
  · rintro ⟨s', hrun, -⟩
    rw [hrun] at hfalse
    exact hfalse.1 rfl
  · intro hfinds
    have hrun : c.run s = (.ok false, (c.run s).2) := Prod.ext (hfalse.2 hfinds) rfl
    exact ⟨_, hrun, unchanged hrun (by simp) hk⟩

/-- That the name of a registration is put into its table: the text above its place is complete, and
ends in the section of that table. For a member also its array has to be read as it was cut, and the
member needs no escapes. -/
def Settles : Call → List Char → Prop
  | .member _ crate, text => Plain crate.toList ∧
    ∃ p sts, membersPlace? text = some p ∧ p.Complete sts ∧ EndsIn "workspace" sts
  | .dependency _ name _, text => (∀ c ∈ name.toList, isBare c) ∧
    ∀ cut, cutAt? "dependencies" (fullLines text) = some cut →
      ∃ sts, readStatements (endLine cut.above) = some sts ∧ EndsIn "dependencies" sts

/-- That what a registration puts into a text is read as what it asks for, wherever it stands, and the
text is cut between its statements. -/
def Legible : Call → List Char → Prop
  | .member _ crate, text => Plain crate.toList ∧
    ∃ p sts, membersPlace? text = some p ∧ p.Complete sts
  | .dependency _ name path, text => (∀ c ∈ name.toList, isBare c) ∧ Plain path.toList ∧
    ∀ cut, cutAt? "dependencies" (fullLines text) = some cut → cut.OwnLine ∧
      ∃ sts, readStatements (endLine cut.above) = some sts

end Call

theorem finds_member_iff {p : MembersPlace} {sts : List Statement} {old new sub : Table} {vs : List Value}
    (hplace : membersPlace? text = some p) (hcomplete : p.Complete sts) (hm : Plain member.toList)
    (h : (readStatements text).bind build = some old)
    (h' : (readStatements (p.above ++ (p.lead ++ (p.array.insertItem member ++ p.below)))).bind build =
      some new)
    (hold : get? "workspace" old = some (.table sub)) (hvs : get? "members" sub = some (.array vs))
    (hmissing : .text member ∉ vs) :
    Call.Finds (.member base member) new ↔ EndsIn "workspace" sts := by
  constructor
  · intro hfinds
    obtain ⟨sts₁, hsts₁, hbuild₁⟩ := Option.bind_eq_some_iff.1 h
    obtain ⟨sts₂, hsts₂, hbuild₂⟩ := Option.bind_eq_some_iff.1 h'
    obtain ⟨vs', post, rfl, rfl⟩ := readStatements_addMember hplace hcomplete hm hsts₁ hsts₂
    rcases endsIn_or_textsKept (by decide) hold hvs hbuild₁ hbuild₂ with
      hends | ⟨sub', vs'', hsub', hvs'', hkept⟩
    · exact hends
    have hmem := Value.any_isText.1 (hfinds _ (members?_of_table hsub' hvs''))
    -- In an array of tables the last item is a table, so the text is one of the items before.
    rcases hkept with rfl | ⟨us, t, rfl, hus⟩
    · exact absurd hmem hmissing
    · rcases List.mem_append.1 hmem with hmem | hmem
      · exact absurd (hus member hmem) hmissing
      · cases List.mem_singleton.1 hmem
  · intro hends vs' hvs'
    have hu := (updates_members_iff hplace hcomplete hm h h' hold hvs).2 hends
    obtain ⟨sub₁, sub₂, -, hnew, -, hadded⟩ := hu.inside
    cases (members?_of_table hnew hadded).symm.trans hvs'
    exact Value.any_isText.2 (by simp)

theorem dropReturns_dependencyLine (path : String) (z : List Char) (hn : ∀ c ∈ name.toList, isBare c) :
    ∃ r, dropReturns (dependencyLine name path ++ z) = name.toList ++ ' ' :: '=' :: r := by
  rw [dependencyLine_eq, List.append_assoc, dropReturns_append (not_mem_bare hn)]
  exact ⟨_, rfl⟩

theorem dropReturns_dependencyTable (path : String) (hn : ∀ c ∈ name.toList, isBare c) :
    ∃ r, dropReturns (dependencyTable name path) =
      '\n' :: '[' :: ("dependencies".toList ++ '.' :: (name.toList ++ ']' :: '\n' :: r)) := by
  have hfront : '\r' ∉ '\n' :: '[' :: ("dependencies".toList ++ ['.']) := by decide
  have he : dependencyTable name path = ('\n' :: '[' :: ("dependencies".toList ++ ['.'])) ++
      (name.toList ++ ']' :: '\n' :: ("path".toList ++ ' ' :: '=' :: ' ' ::
        ('\x22' :: (path.toList ++ '\x22' :: '\n' :: [])))) := by
    rw [dependencyTable_eq]
    rfl
  rw [he, dropReturns_append hfront, dropReturns_append (not_mem_bare hn)]
  exact ⟨_, rfl⟩

/-- A dependency with a bare name is found in the document, whatever its path, if the text above its
place is complete and ends in the section of the dependencies. -/
theorem finds_dependency {old new : Table} (ht : '\r' ∉ text)
    (h : (readStatements text).bind build = some old)
    (h' : decode (addDependency name path text) = some new)
    (hsettles : (Call.dependency project name path).Settles text) :
    (Call.dependency project name path).Finds new := by
  -- The path may hold anything: only the text up to it is read, and what that adds stays.
  obtain ⟨hn, hcut⟩ := hsettles
  obtain ⟨sts, hsts, -⟩ := Option.bind_eq_some_iff.1 h
  obtain ⟨all, hall, hbuild⟩ := Option.bind_eq_some_iff.1 h'
  have hend {s : List Char} (hs : '\r' ∉ s) : '\r' ∉ endLine s := fun hr => hs (mem_of_endLine (by decide) hr)
  intro sub hsub
  replace hsub := dependencies?_eq_some hsub
  cases hc : cutAt? "dependencies" (fullLines text) with
  | none =>
    obtain ⟨r, hr⟩ := dropReturns_dependencyTable path hn
    rw [addDependency_eq_of_none hc, dropReturns_append (hend ht), hr, readStatements_endLine hsts] at hall
    obtain ⟨_, hheader, rfl⟩ := Option.map_eq_some_iff.1 hall
    by_cases hne : name.toList = []
    · rw [hne, List.nil_append, readStatements_dependencyHeader_nil] at hheader
      cases hheader
    · rw [readStatements_dependencyHeader hn hne] at hheader
      obtain ⟨post, -, rfl⟩ := Option.map_eq_some_iff.1 hheader
      exact isSome_of_header hbuild hsub
  | some c =>
    obtain ⟨above, habove, hends⟩ := hcut c hc
    obtain ⟨r, hr⟩ := dropReturns_dependencyLine path c.below hn
    rw [← above_append_below hc, List.mem_append, not_or] at ht
    rw [addDependency_eq hc, dropReturns_append (hend ht.1), hr,
      readStatements_append habove (.inl lineEnd_endLine)] at hall
    obtain ⟨_, hline, rfl⟩ := Option.map_eq_some_iff.1 hall
    obtain ⟨v, post, rfl⟩ := pair_of_readStatements hn hline
    exact isSome_of_endsIn hends hbuild hsub

theorem settles_dependency {old new sub : Table} (h : (readStatements text).bind build = some old)
    (h' : (readStatements (addDependency name path text)).bind build = some new)
    (hold : get? "dependencies" old = some (.table sub)) (hkey : get? name sub = none)
    (hlegible : (Call.dependency project name path).Legible text)
    (hfinds : (Call.dependency project name path).Finds new) :
    (Call.dependency project name path).Settles text := by
  obtain ⟨hn, hp, hcuts⟩ := hlegible
  refine ⟨hn, fun c hc => ?_⟩
  obtain ⟨hline, sts, habove⟩ := hcuts c hc
  obtain ⟨sts₁, h₁, hbuild₁⟩ := Option.bind_eq_some_iff.1 h
  obtain ⟨sts₂, h₂, hbuild₂⟩ := Option.bind_eq_some_iff.1 h'
  obtain ⟨post, -, rfl, rfl⟩ := readStatements_addDependency hc hline hn hp habove h₁ h₂
  rcases endsIn_or_missing hold hkey hbuild₁ hbuild₂ with hends | ⟨sub', hsub', hnone⟩
  · exact ⟨sts, habove, hends⟩
  · have hsome : (get? name sub').isSome := hfinds sub' (by simp [dependencies?, hsub', Value.table?])
    rw [hnone] at hsome
    cases hsome

theorem Call.leaves_document {c : Call} (hk : s.ReportsAside c.manifest) (h : c.run s = (.ok true, s')) :
    ∃ text new, s.textAt c.manifest = .ok text ∧ Holds s' c.manifest new ∧
      (c.Settles text → c.Finds new) ∧ (c.Legible text → c.Finds new → c.Settles text) := by
  cases c with
  | member base crate =>
    by_cases hm : Plain crate.toList
    · obtain ⟨text, old, new, sub, vs, p, htext, -, hnew, hsub, hvs, hmissing, hplace, hread, hread'⟩ :=
        registerMember_reads hm hk h
      have hiff {sts : List Statement} (hcomplete : p.Complete sts) :
          (Call.member base crate).Finds new ↔ EndsIn "workspace" sts :=
        finds_member_iff hplace hcomplete hm hread hread' hsub hvs hmissing
      refine ⟨text, new, htext, hnew, ?_, ?_⟩
      · rintro ⟨-, p', sts, hplace', hcomplete, hends⟩
        cases hplace.symm.trans hplace'
        exact (hiff hcomplete).2 hends
      · rintro ⟨-, p', sts, hplace', hcomplete⟩ hfinds
        cases hplace.symm.trans hplace'
        exact ⟨hm, p, sts, hplace, hcomplete, (hiff hcomplete).1 hfinds⟩
    · obtain ⟨text, text', old, new, sub, vs, htext, -, hwritten, -, hnew, -⟩ := registerMember_returns hk h
      exact ⟨text, new, htext, ⟨_, hwritten, decode_unifyLineEnds hnew⟩, fun hs => absurd hs.1 hm,
        fun hl => absurd hl.1 hm⟩
  | dependency project name path =>
    obtain ⟨text, old, new, sub, htext, hwritten, hold, hnew, hsub, hname⟩ := addPathDependency_returns hk h
    have hreturn : '\r' ∉ text := not_mem_of_textAt htext
    have hread := decode_eq hreturn ▸ hold
    refine ⟨text, new, htext, ⟨_, hwritten, decode_unifyLineEnds hnew⟩,
      finds_dependency hreturn hread hnew, fun hlegible hfinds => ?_⟩
    have hread' := decode_eq (not_mem_addDependency hlegible.1 hlegible.2.1 hreturn) ▸ hnew
    exact settles_dependency hread hread' hsub hname hlegible hfinds

/-- Made again at once, a registration that has changed a manifest returns `false` and leaves it as it
is if and only if the document then holds what was asked for: which it does if its name was put in
place, and only then if what was put in is read as a name and a path wherever it stands. -/
theorem Call.idle_again_iff {c : Call} (hk : s.ReportsAside c.manifest) (h : c.run s = (.ok true, s')) :
    ∃ text new, s.textAt c.manifest = .ok text ∧ Holds s' c.manifest new ∧
      (c.Idle s' ↔ c.Finds new) ∧ (c.Settles text → c.Idle s') ∧
        (c.Legible text → (c.Idle s' ↔ c.Settles text)) := by
  obtain ⟨text, new, htext, hnew, hfinds, hsettles⟩ := leaves_document hk h
  have hframe := c.rewrites s
  rw [h] at hframe
  have hiff : c.Idle s' ↔ c.Finds new := idle_iff (hk.congr hframe.cwd hframe.sink) hnew
  have hidle : c.Settles text → c.Idle s' := fun hs => hiff.2 (hfinds hs)
  exact ⟨text, new, htext, hnew, hiff, hidle, fun hl => ⟨fun h => hsettles hl (hiff.1 h), hidle⟩⟩

/-- A dependency with a bare name is not added twice, and a member with a backslash is: in the document
it has become another text. -/
theorem Call.idle_again_iff_escaped :
    let here : Path := ⟨.relative, []⟩
    let project := withManifest "[dependencies]\na = \"1\"\n"
    let workspace := withManifest "[workspace]\nmembers = [\"app\"]\n"
    (∃ s', (Call.dependency here "calls" "../calls").run project = (.ok true, s') ∧
      (Call.dependency here "calls" "../calls").Idle s') ∧
    ∃ s', (Call.member here "crates\\tools").run workspace = (.ok true, s') ∧
      ¬ (Call.member here "crates\\tools").Idle s' := by
  intro here project workspace
  have haside (manifest : String) : (withManifest manifest).ReportsAside (fileIn here) := by
    rintro k ⟨⟩
  constructor
  · have hrun : (Call.dependency here "calls" "../calls").run project = (.ok true, _) :=
      Steps.apply_of_toOption (by decide +kernel)
    obtain ⟨text, -, htext, -, -, hidle, -⟩ := Call.idle_again_iff (haside _) hrun
    have hread : (project.textAt (fileIn here)).toOption = some "[dependencies]\na = \"1\"\n".toList := by
      decide +kernel
    rw [show project.textAt (fileIn here) = .ok text from htext] at hread
    cases hread
    refine ⟨_, hrun, hidle ⟨List.all_eq_true.1 (by decide), fun cut hcut => ?_⟩⟩
    have habove : (cutAt? "dependencies" (fullLines "[dependencies]\na = \"1\"\n".toList)).map
        (fun cut => endLine cut.above) = some "[dependencies]\na = \"1\"\n".toList := by decide +kernel
    rw [hcut, Option.map_some, Option.some.injEq] at habove
    have hsts : readStatements "[dependencies]\na = \"1\"\n".toList =
        some [.table ["dependencies"], .pair ⟨["a"], .text "1"⟩] := by cbv
    exact ⟨_, habove ▸ hsts, [], [⟨["a"], .text "1"⟩], rfl⟩
  · have hrun : (Call.member here "crates\\tools").run workspace = (.ok true, _) :=
      Steps.apply_of_toOption (by decide +kernel)
    obtain ⟨-, new, -, ⟨text, htext, hnew⟩, hidle, -⟩ := Call.idle_again_iff (haside _) hrun
    refine ⟨_, hrun, fun h => ?_⟩
    have hmissing : (((((Call.member here "crates\\tools").run workspace).2.textAt
        (fileIn here)).toOption.bind decode).bind members?).any
          (fun vs => !vs.any (Value.isText "crates\\tools")) = true := by
      decide +kernel
    rw [show ((Call.member here "crates\\tools").run workspace).2.textAt (fileIn here) = .ok text from htext,
      Except.toOption, Option.bind_some, hnew, Option.bind_some, Option.any_eq_true] at hmissing
    obtain ⟨vs, hvs, hany⟩ := hmissing
    rw [hidle.1 h vs hvs] at hany
    cases hany

end Manifest

end WitCaller
