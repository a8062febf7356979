import WitCaller.Proofs.Confinement
import WitCaller.Proofs.DraftOutcome
import WitCaller.Proofs.RelativePaths
import WitCaller.Proofs.Toml.StringForms

/-!
The paths by which a run makes projects depend on its crate. Each is the way from the project to the
directory of the crate. A manifest holds it between quotes as it is, so what is read from the manifest
leads to the crate only if the path needs no escapes.
-/

namespace WitCaller
open Steps Run

namespace Session

/-- That a session works where another one does. -/
def Beside (s s' : Session) : Prop := s'.cwd = s.cwd

instance : Frame Beside where
  refl _ := rfl
  trans h h' := Eq.trans h' h
  report _ _ := rfl

end Session

namespace Run
open Session
variable {ε α β : Type} {cwd : Place} {p : Path} {m n : Run ε α} {f g : α → Run ε β}

theorem beside_writeBytes {bytes : Bytes} : Keeps Beside (writeBytes p bytes) := by
  intro s
  rw [writeBytes, change_apply]
  split <;> rfl

theorem beside_makeDirectories {again : Bool} : Keeps Beside (makeDirectories p again) :=
  keeps_makeDirectories (Q := fun _ => True) (fun _ _ => rfl) id trivial

theorem beside_removeDirectory : Keeps Beside (removeDirectory p) :=
  keeps_removeDirectory fun _ _ _ _ => rfl

/-- That two runs are the same in every session that works in a certain directory. -/
def SameFrom (cwd : Place) (m n : Run ε α) : Prop := ∀ s, s.cwd = cwd → m s = n s

theorem SameFrom.refl (m : Run ε α) : SameFrom cwd m m := fun _ _ => rfl

theorem SameFrom.bind_left (h : SameFrom cwd m n) (f : α → Run ε β) :
    SameFrom cwd (m >>= f) (n >>= f) := by
  intro s hs
  have hs := h s hs
  rcases hm : m s with ⟨e | a, s₁⟩
  · rw [bind_error hm, bind_error (hs.symm.trans hm)]
  · rw [bind_ok hm, bind_ok (hs.symm.trans hm)]

theorem SameFrom.bind (hm : Keeps Beside m) (hf : ∀ a, SameFrom cwd (f a) (g a)) :
    SameFrom cwd (m >>= f) (m >>= g) := by
  intro s hs
  rcases h : m s with ⟨e | a, s₁⟩
  · rw [bind_error h, bind_error h]
  · rw [bind_ok h, bind_ok h]
    exact hf a s₁ ((hm.at h).trans hs)

end Run

namespace Crate
open Session
variable {crate : Crate} {base api target : Path} {source : String} {paths : List Path}

theorem beside_stage : Keeps Beside (stage api target) :=
  keeps_stage beside_removeDirectory beside_makeDirectories fun _ _ _ => beside_writeBytes

theorem beside_prepare : Keeps Beside (crate.prepare base) :=
  Keeps.report.bind fun _ => beside_makeDirectories

theorem beside_fill : Keeps Beside (crate.fill base api source) :=
  Keeps.ofExcept.bind fun _ => beside_writeBytes.bind fun _ => Keeps.report.bind fun _ =>
    beside_writeBytes.bind fun _ => beside_stage

end Crate

namespace Manifest
open Session Toml Reading
variable {base project : Path} {name path member : String} {text : List Char}

theorem beside_registerMember : Keeps Beside (registerMember base member) :=
  keeps_registerMember fun _ _ => rfl

theorem beside_addPathDependency : Keeps Beside (addPathDependency project name path) :=
  keeps_addPathDependency fun _ _ => rfl

/-- A manifest with one more dependency holds the path between quotes, as it is. -/
theorem infix_addDependency (name path : String) (text : List Char) :
    "path = \"".toList ++ path.toList ++ "\"".toList <:+: addDependency name path text := by
  have hline : "path = \"".toList ++ path.toList ++ "\"".toList <:+: dependencyLine name path :=
    ⟨name.toList ++ " = \x7b ".toList, " \x7d\n".toList, by simp [dependencyLine]⟩
  have htable : "path = \"".toList ++ path.toList ++ "\"".toList <:+: dependencyTable name path :=
    ⟨"\n[dependencies.".toList ++ name.toList ++ "]\n".toList, "\n".toList, by simp [dependencyTable]⟩
  unfold addDependency
  split
  · exact htable.trans (List.suffix_append _ _).isInfix
  · exact hline.trans ((List.infix_append _ _ _).trans (List.prefix_append _ _).isInfix)

/-- That a text between quotes is read as a path that leads from a project to a directory. -/
def Leads (cwd : Place) (project : Path) (text : String) (directory : Path) : Prop :=
  ∃ x, outcome (readText ('\x22' :: (text.toList ++ ['\x22']))) = some (x, []) ∧
    (project / String.ofList x).resolve cwd = directory.resolve cwd

theorem outcome_readText_point {r x t : List Char}
    (h : outcome (readText ('\x22' :: '.' :: r)) = some (x, t)) : x.head? = some '.' := by
  have hline : ¬ ['\x22', '\x22'] <+: '.' :: r := fun hp => nomatch (List.cons_prefix_cons.1 hp).1
  rw [outcome_readText_basic hline, outcome_basicTail_other (by decide) (by decide) (by decide)] at h
  obtain ⟨x, -, rfl⟩ := onValue_eq_some.1 h
  rfl

end Manifest

namespace Path
open Toml Reading
variable {cwd : Place} {target start : Path} {x : List Char}

/-- A path that leads back at first is not read as one from the root. -/
theorem head?_relativeTo_ne (hne : (relativeTo cwd target start).parts ≠ [])
    (hx : outcome (readText ('\x22' :: ((toString (relativeTo cwd target start)).toList ++ ['\x22']))) =
      some (x, []))
    (ha : (ofString (String.ofList x)).anchor ≠ .relative) :
    (relativeTo cwd target start).parts.head? ≠ some ".." := by
  intro hback
  obtain ⟨rest, hparts⟩ := List.head?_eq_some_iff.1 hback
  have hpoint : (toString (relativeTo cwd target start)).toList.head? = some '.' := by
    have htext : toString (relativeTo cwd target start) = Text.join "/" (relativeTo cwd target start).parts :=
      toString_relative hne
    rw [htext, hparts, head?_join (by decide)]
    rfl
  obtain ⟨r, hr⟩ := List.head?_eq_some_iff.1 hpoint
  rw [hr, List.cons_append] at hx
  refine ha (anchorOf_eq_relative_iff.2 ?_)
  rw [String.toList_ofList, Manifest.outcome_readText_point hx]
  decide

/-- Read from between quotes, the relative path leads to the target exactly if it needs no escapes: any
other text is read as one that is shorter, and no shorter one leads there. -/
theorem leads_relativeTo_iff (hcwd : ∀ name ∈ cwd, IsName name) (ht : target.Named) :
    Manifest.Leads cwd start (toString (relativeTo cwd target start)) target ↔
      Plain (toString (relativeTo cwd target start)).toList := by
  constructor
  · rintro ⟨x, hx, hresolve⟩
    by_cases hne : (relativeTo cwd target start).parts = []
    · have htext : toString (relativeTo cwd target start) = "." := if_pos ⟨rfl, hne⟩
      rw [htext]
      decide
    · refine plain_of_readText hx ?_
      have hle := length_toString_relativeTo_le hne hresolve
        (or_iff_not_imp_left.2 (head?_relativeTo_ne hne hx))
      rwa [String.length_ofList, ← String.length_toList] at hle
  · intro hp
    refine ⟨_, outcome_readText_plain hp (t := []) nofun, ?_⟩
    rw [String.ofList_toList]
    exact resolve_div_relativeTo hcwd ht

end Path

namespace Generation
open Session
variable {config : Option Config} {r : Request} {s s₁ : Session} {d : Draft} {cwd : Place}
  {crateDir : Path} {crate : String} {projects : List Path}

/-- The path by which a run in a directory makes a project depend on its crate. -/
def Draft.pathFrom (d : Draft) (cwd : Place) (project : Path) : String :=
  toString (Path.relativeTo cwd (d.crate.directory d.base) project)

/-- Write the crate of a draft and register it, with these paths for the projects. -/
def finishWith (path : Path → String) (d : Draft) : Run Failure Generation := do
  d.crate.prepare d.base
  let manifestTemplate ← Templates.loadManifest d.templatesDir
  let staged ← { d.crate with manifestTemplate }.fill d.base d.api d.source
  let workspaceUpdated ← Manifest.registerMember d.base d.crate.name
  let projectsUpdated ← d.projects.filterM fun project =>
    Manifest.addPathDependency project d.crate.name (path project)
  return { ofDraft d with staged, workspaceUpdated, projectsUpdated }

/-- Projects are updated one by one, each with the path from it to the crate. -/
theorem sameFrom_updateProjects : SameFrom cwd (updateProjects crateDir crate projects)
    (projects.filterM fun project =>
      Manifest.addPathDependency project crate (toString (Path.relativeTo cwd crateDir project))) := by
  -- What is found is gathered in front of what was found before.
  have key (found : List Path) : SameFrom cwd
      ((fun others => others.reverse ++ found) <$> updateProjects crateDir crate projects)
      (projects.filterAuxM (fun project =>
        Manifest.addPathDependency project crate (toString (Path.relativeTo cwd crateDir project))) found) := by
    induction projects generalizing found with
    | nil => exact .refl _
    | cons project rest ih =>
      intro s hs
      unfold updateProjects
      rw [List.filterAuxM, map_bind, bind_ok get_apply, hs, map_bind]
      refine SameFrom.bind Manifest.beside_addPathDependency (fun changed => ?_) s hs
      intro s₁ hs₁
      rw [map_bind, ← ih _ s₁ hs₁]
      cases changed with
      | false => simp
      | true => simp
  intro s hs
  refine Eq.trans ?_ ((key []).bind_left (fun found => pure found.reverse) s hs)
  simp

theorem sameFrom_finish : SameFrom cwd (finish d) (finishWith (d.pathFrom cwd) d) := by
  refine .bind Crate.beside_prepare fun _ => .bind Templates.keeps_loadManifest fun _ => ?_
  refine .bind Crate.beside_fill fun _ => .bind Manifest.beside_registerMember fun _ => ?_
  exact sameFrom_updateProjects.bind_left _

/-- A run that writes makes each project depend on its crate by the path that leads from the project to
the directory of the crate. The manifest holds the path between quotes as it is, and what is read from
there leads to the crate exactly if there are no quotes, backslashes or control characters in it. -/
theorem run_dependencies (hcwd : ∀ name ∈ s.cwd, Path.IsName name) (hwrites : r.dryRun = false)
    (h : draft config r s = (.ok d, s₁)) :
    run config r s = finishWith (d.pathFrom s.cwd) d s₁ ∧ ∀ project ∈ d.projects,
      (project / d.pathFrom s.cwd project).resolve s.cwd = (d.crate.directory d.base).resolve s.cwd ∧
      (∀ text, "path = \"".toList ++ (d.pathFrom s.cwd project).toList ++ "\"".toList <:+:
        Manifest.addDependency d.crate.name (d.pathFrom s.cwd project) text) ∧
      (Manifest.Leads s.cwd project (d.pathFrom s.cwd project) (d.crate.directory d.base) ↔
        Toml.Plain (d.pathFrom s.cwd project).toList) := by
  obtain ⟨c, -, hbase, -⟩ := settings_of_draft h
  have hs : s₁.cwd = s.cwd := (keeps_draft (R := Beside)).at h
  have hnamed : (d.crate.directory d.base).Named := by
    rw [hbase]
    exact ((Path.named_ofString r.base).resolve hcwd).div d.crate.name
  refine ⟨?_, fun project _ => ⟨?_, fun text => ?_, ?_⟩⟩
  · unfold run
    rw [bind_ok h, hwrites]
    exact sameFrom_finish s₁ hs
  · exact Path.resolve_div_relativeTo hcwd hnamed
  · exact Manifest.infix_addDependency d.crate.name (d.pathFrom s.cwd project) text
  · exact Path.leads_relativeTo_iff hcwd hnamed

/-- A directory with an interface file, beside a project. -/
def besideProject (name : String) : Session where
  cwd := []
  tree := ⟨[([name], .directory), ([name, "api"], .directory),
    ([name, "api", "w.wit"], .file (Utf8.encode "world a \x7b\n\x7d\n".toList)), (["p"], .directory),
    (["p", "Cargo.toml"], .file (Utf8.encode "[dependencies]\na = \"1\"\n".toList))]⟩

/-- The path from a project to a crate in a directory with a backslash leads there, but what is read from
the manifest does not. Without the backslash it does. -/
theorem run_dependencies_backslash :
    let c (name : String) : Config := { root := .absolute [name] }
    let r (name : String) : Request := { base := name, projects := ["p"] }
    let project := Path.absolute ["p"]
    (∃ d s₁, draft (some (c "w\\nd")) (r "w\\nd") (besideProject "w\\nd") = (.ok d, s₁) ∧
      run (some (c "w\\nd")) (r "w\\nd") (besideProject "w\\nd") = finishWith (d.pathFrom []) d s₁ ∧
      d.projects = [project] ∧ d.pathFrom [] project = "../w\\nd/caller-utils" ∧
      (project / d.pathFrom [] project).resolve [] = Path.absolute ["w\\nd", "caller-utils"] ∧
      ¬ Manifest.Leads [] project (d.pathFrom [] project) (Path.absolute ["w\\nd", "caller-utils"])) ∧
    ∃ d s₁, draft (some (c "w")) (r "w") (besideProject "w") = (.ok d, s₁) ∧
      Manifest.Leads [] project (d.pathFrom [] project) (Path.absolute ["w", "caller-utils"]) := by
  intro c r project
  have hdraft (name : String) (hd : (draft (some (c name)) (r name) (besideProject name)).1.isOk = true)
      (hbase : baseOf (besideProject name) (r name) = Path.absolute [name]) :
      ∃ d s₁, draft (some (c name)) (r name) (besideProject name) = (.ok d, s₁) ∧
        d.crate.directory d.base = Path.absolute [name, "caller-utils"] ∧ d.projects = [project] := by
    obtain ⟨d, s₁, h⟩ := exists_of_isOk hd
    obtain ⟨c', hc', hb, hname, -, hprojects⟩ := settings_of_draft h
    cases hc'
    refine ⟨d, s₁, h, ?_, hprojects⟩
    have hcrate : Path.ofString "caller-utils" = ⟨.relative, ["caller-utils"]⟩ := by decide +kernel
    rw [Crate.directory, hb, hbase, hname]
    exact Path.absolute_div hcrate
  constructor
  · obtain ⟨d, s₁, h, hcrate, hprojects⟩ := hdraft "w\\nd" (by decide +kernel) (by decide +kernel)
    have hpath : d.pathFrom [] project = "../w\\nd/caller-utils" := by
      rw [Draft.pathFrom, hcrate]
      decide +kernel
    obtain ⟨hrun, hlead⟩ := run_dependencies (List.forall_mem_nil _) rfl h
    obtain ⟨hresolve, -, hread⟩ := hlead project (hprojects ▸ List.mem_cons_self)
    rw [hcrate] at hresolve hread
    refine ⟨d, s₁, h, hrun, hprojects, hpath, hresolve, fun hleads => ?_⟩
    have hplain := hread.1 hleads
    change Toml.Plain (d.pathFrom [] project).toList at hplain
    rw [hpath] at hplain
    revert hplain
    decide
  · obtain ⟨d, s₁, h, hcrate, hprojects⟩ := hdraft "w" (by decide +kernel) (by decide +kernel)
    obtain ⟨-, hlead⟩ := run_dependencies (List.forall_mem_nil _) rfl h
    obtain ⟨-, -, hread⟩ := hlead project (hprojects ▸ List.mem_cons_self)
    rw [hcrate] at hread
    refine ⟨d, s₁, h, hread.2 ?_⟩
    change Toml.Plain (d.pathFrom [] project).toList
    rw [Draft.pathFrom, hcrate]
    decide +kernel

end Generation

end WitCaller
