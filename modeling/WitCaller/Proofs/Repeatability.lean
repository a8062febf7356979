import WitCaller.Proofs.LibraryText
import WitCaller.Proofs.SecondRun

/-!
Running the generator again. A run leaves a crate that holds just what its draft says, and the same
draft is made from what it leaves. So, once the crate is registered, running again changes nothing.
-/

namespace WitCaller.Generation
open Steps Run Session FileTree Manifest
variable {d : Draft} {s s' : Session} {g : Generation}

section
variable {config : Option Config} {r : Request} {c : Config}

/-- The place of the crate of a run. -/
def cratePlace (s : Session) (r : Request) (c : Config) : Place :=
  (baseOf s r).parts ++ [c.crateName]

/-- The crate of a run is called by one ordinary name, its copies have a directory of ordinary names
other than that of the source, and none of the directories that are given is the crate or lies in it. -/
structure Ordinary (s : Session) (r : Request) (c : Config) : Prop where
  name : Path.ofString c.crateName = ⟨.relative, [c.crateName]⟩ ∧ c.crateName ≠ ".."
  wit : ∃ names, Path.ofString c.witDir = ⟨.relative, names⟩ ∧ ".." ∉ names ∧ names ≠ [] ∧
    names ≠ ["src"]
  api : ¬ cratePlace s r c <+: interfacePlace s.cwd r c
  templates : ∀ dir ∈ c.templatesDir, ¬ cratePlace s r c <+: FileTree.target s.cwd dir
  projects : ∀ project ∈ projectsOf s.cwd r.projects c,
    ¬ cratePlace s r c <+: FileTree.target s.cwd project

/-- The settings call the crate by one ordinary name, and lead to the copies in it without going back. -/
structure Placed (c : Config) : Prop where
  name : Path.ofString c.crateName = ⟨.relative, [c.crateName]⟩ ∧ c.crateName ≠ ".."
  wit : (Path.ofString c.witDir).anchor = .relative ∧ ".." ∉ (Path.ofString c.witDir).parts

/-- After a run that returns and leaves the crate registered, the same run returns again without a
change. -/
def Repeatable (config : Option Config) (r : Request) (s : Session) (c : Config) : Prop :=
  ∀ g s', run config r s = (.ok g, s') →
    Registered s' (baseOf s r) (projectsOf s.cwd r.projects c) c.crateName →
    ∃ g' s'', run config r s' = (.ok g', s'') ∧ g'.workspaceUpdated = false ∧
      g'.projectsUpdated = [] ∧ ∀ p, s''.tree.get? p = s'.tree.get? p

theorem Ordinary.congr (hcwd : s'.cwd = s.cwd) (ho : Ordinary s r c) : Ordinary s' r c := by
  have hplace : cratePlace s' r c = cratePlace s r c := by
    rw [cratePlace, cratePlace, baseOf, baseOf, hcwd]
  constructor
  · exact ho.name
  · exact ho.wit
  · rw [hplace, hcwd]
    exact ho.api
  · rw [hplace, hcwd]
    exact ho.templates
  · rw [hplace, hcwd]
    exact ho.projects

theorem straight_baseOf : (baseOf s r).Straight := Path.straight_absolute Path.plain_normalize

theorem not_crate_above : ¬ cratePlace s r c <+: (baseOf s r).parts :=
  not_append_prefix (List.cons_ne_nil _ _)

theorem straight_apiDirectory {cwd : Place} {base : Path} {given : Option String}
    (hb : base.Straight) : (apiDirectory cwd base given c).Straight := by
  unfold apiDirectory
  split
  · exact Path.straight_absolute Path.plain_normalize
  · exact Path.straight_absolute Path.plain_normalize
  · exact hb.concat (by decide)

theorem Ordinary.api_outside (ho : Ordinary s r c) :
    ¬ cratePlace s r c <+: (apiDirectory s.cwd (baseOf s r) r.apiDir c).parts := by
  have hapi : (apiDirectory s.cwd (baseOf s r) r.apiDir c).Straight :=
    straight_apiDirectory straight_baseOf
  have hat : interfacePlace s.cwd r c = (apiDirectory s.cwd (baseOf s r) r.apiDir c).parts := by
    have htarget : FileTree.target s.cwd (apiDirectory s.cwd (baseOf s r) r.apiDir c) =
        (apiDirectory s.cwd (baseOf s r) r.apiDir c).parts := hapi.target
    rw [← htarget, target_eq_resolve hapi.anchored]
    rfl
  exact hat ▸ ho.api

/-- The crate of a run has its place in the base directory. -/
theorem Placed.lies {crate : Crate} (hc : Placed c) (hname : crate.name = c.crateName)
    (hwit : crate.witDir = c.witDir) :
    crate.LiesAt (baseOf s r) (cratePlace s r c) (Path.ofString c.witDir).parts := by
  have hdirectory : crate.directory (baseOf s r) = .absolute (cratePlace s r c) := by
    rw [Crate.directory, hname]
    exact Path.absolute_div hc.name.1
  have hstaging : crate.staging (baseOf s r) =
      .absolute (cratePlace s r c ++ (Path.ofString c.witDir).parts) := by
    rw [Crate.staging, hdirectory, hwit]
    refine Path.absolute_div ?_
    rw [← hc.wit.1]
  have hplace : (Path.absolute (cratePlace s r c)).Straight := straight_baseOf.concat hc.name.2
  exact ⟨hdirectory, hstaging, List.append_ne_nil_of_right_ne_nil _ (List.cons_ne_nil _ _),
    hplace.plain, hc.wit.2⟩

theorem Ordinary.lies (ho : Ordinary s r c) : ∃ wit,
    Crate.LiesAt ⟨c.crateName, c.witDir, .ok none⟩ (baseOf s r) (cratePlace s r c) wit ∧
      wit ≠ [] ∧ wit ≠ ["src"] := by
  obtain ⟨wit, hwit, hplain, hapart⟩ := ho.wit
  have hplaced : Placed c := ⟨ho.name, by rw [hwit], by rwa [hwit]⟩
  have hlies : Crate.LiesAt ⟨c.crateName, c.witDir, .ok none⟩ (baseOf s r) (cratePlace s r c)
      (Path.ofString c.witDir).parts := hplaced.lies rfl rfl
  rw [hwit] at hlies
  exact ⟨wit, hlies, hapart⟩

/-- What an ordinary run makes keeps clear of its crate. -/
theorem Ordinary.clear (ho : Ordinary s r c)
    (htemplates : ∀ dir ∈ c.templatesDir, dir.Avoids (cratePlace s r c) s.cwd)
    (hd : s.draft (baseOf s r) r c = .ok d) :
    ∃ wit, d.Clear (cratePlace s r c) wit s.cwd := by
  obtain ⟨_, _, _, _, _, -, -, -, -, -, rfl⟩ := draft_eq_ok_iff.1 hd
  obtain ⟨wit, hlies, hapart⟩ := ho.lies
  have hapi : (apiDirectory s.cwd (baseOf s r) r.apiDir c).Straight :=
    straight_apiDirectory straight_baseOf
  refine ⟨wit, hlies, straight_baseOf, not_crate_above, hapi, ?_, hapart, htemplates, ho.projects⟩
  exact ho.api_outside

theorem quiet_of_none {api : Path} (hk : s.sink = none) : s.Quiet api := fun _ _ => forall_sink hk

theorem templatesQuiet_of_none {directory : Option Path} (hk : s.sink = none) :
    Templates.Quiet s directory := fun _ _ _ _ => forall_sink hk

/-- The way to a crate is made of directories if its parent is one. -/
theorem wayTo_of_draft {s₁ : Session} (hdraft : draft config r s = (.ok d, s₁)) :
    s.WayTo (cratePlace s r c) := by
  have hparent : (cratePlace s r c).dropLast = (baseOf s r).parts := List.dropLast_concat
  intro p hp
  rw [hparent] at hp
  exact straight_baseOf.directory (base_of_draft hdraft) hp

theorem run_of_dryRun {s₁ : Session} (hd : r.dryRun = true)
    (h : draft config r s = (.ok d, s₁)) :
    ∃ s', run config r s = (.ok { ofDraft d with dryRun := true }, s') ∧ s₁.Reported s' := by
  unfold run
  rw [bind_ok h, if_pos hd]
  exact ⟨_, bind_ok report_apply, reported_report⟩

/-- A dry run finds the same again. -/
theorem repeatable_of_dryRun (hd : r.dryRun = true) (hk : s.sink = none)
    (hc : s.settings config (baseOf s r) = .ok c) : Repeatable config r s c := by
  intro g s' hrun _
  obtain ⟨d, s₁, hdraft, -⟩ := bind_eq_ok_iff.1 hrun
  obtain ⟨hkept, hreported⟩ :=
    draft_of_returns hc (quiet_of_none hk) (templatesQuiet_of_none hk) hdraft
  obtain ⟨_, hfirst, hreported'⟩ := run_of_dryRun hd hdraft
  cases hfirst.symm.trans hrun
  have hreports : s.Reported s' := Frame.trans hreported hreported'
  have hsame : s.Unchanged (cratePlace s r c) s' := hreports.unchanged hk
  have hbase : baseOf s' r = baseOf s r := by rw [baseOf, baseOf, hsame.cwd]
  -- The same draft is made from where the first run ended.
  obtain ⟨s₂, hreported₂, hyields⟩ :=
    yields_draftIn (quiet_of_none hk) (templatesQuiet_of_none hk) s' hreports
  rw [hkept, ← hbase, ← draft_apply] at hyields
  · obtain ⟨s'', hsecond, hreported''⟩ := run_of_dryRun hd hyields
    refine ⟨_, s'', hsecond, rfl, rfl, fun p => ?_⟩
    have hsame'' : s.Unchanged (cratePlace s r c) s'' :=
      (Frame.trans hreported₂ hreported'' : s.Reported s'').unchanged hk
    rw [hsame''.tree, hsame.tree]
  · rw [hbase, hsame.isDirectory, base_of_draft hdraft]
  · rw [hbase, hsame.settings, hc]

/-- A run that writes leaves the library that its draft says, and goes on in the same place. -/
theorem library_of_run (hd : r.dryRun = false) (hk : s.sink = none)
    (hc : s.settings config (baseOf s r) = .ok c) (ho : Ordinary s r c)
    (h : run config r s = (.ok g, s')) : (s'.cwd = s.cwd ∧ s'.sink = none) ∧
      ∃ d, s.draft (baseOf s r) r c = .ok d ∧
        s'.tree.get? (cratePlace s r c ++ ["src"] ++ ["lib.rs"]) =
          some (.file (Utf8.encode d.source.toList)) := by
  obtain ⟨d, s₁, hdraft, hfinish⟩ := run_returns hd h
  obtain ⟨hkept, hreported⟩ :=
    draft_of_returns hc (quiet_of_none hk) (templatesQuiet_of_none hk) hdraft
  have hsame : s.Unchanged (cratePlace s r c) s₁ := hreported.unchanged hk
  obtain ⟨_, _, _, _, _, -, -, -, -, -, rfl⟩ := draft_eq_ok_iff.1 hkept
  obtain ⟨wit, hlies, hapart⟩ := ho.lies
  have hb : (baseOf s r).anchor ≠ .relative := straight_baseOf.anchored
  obtain ⟨hcwd, hk'⟩ := unmoved_of_finish hb hsame.sink hfinish
  exact ⟨⟨hcwd.trans hsame.cwd, hk'⟩, _, hkept,
    libraryFile_of_finish hlies hb hapart hsame.sink hfinish⟩

/-- If a run is repeated without a change, the second one makes the same source. -/
theorem source_of_repeatable (hrepeats : Repeatable (some c) r s c) (hd : r.dryRun = false)
    (hk : s.sink = none) (ho : Ordinary s r c) (hreturns : (run (some c) r s).1.isOk = true)
    (hregistered : Registered (run (some c) r s).2 (baseOf s r) (projectsOf s.cwd r.projects c)
      c.crateName) :
    ∃ d d', s.draft (baseOf s r) r c = .ok d ∧
      (run (some c) r s).2.draft (baseOf s r) r c = .ok d' ∧ d.source = d'.source := by
  obtain ⟨g, s', h⟩ := exists_of_isOk hreturns
  rw [h] at hregistered ⊢
  obtain ⟨⟨hcwd, hk'⟩, d, hdraft, hfile⟩ := library_of_run hd hk rfl ho h
  have hbase : baseOf s' r = baseOf s r := by rw [baseOf, baseOf, hcwd]
  obtain ⟨g', s'', hagain, -, -, htree⟩ := hrepeats g s' h hregistered
  obtain ⟨-, d', hdraft', hfile'⟩ := library_of_run hd hk' rfl (ho.congr hcwd) hagain
  rw [cratePlace, hbase, htree] at hfile'
  have hbytes : Utf8.encode d.source.toList = Utf8.encode d'.source.toList := by
    have hcontent := Option.some.inj (hfile.symm.trans hfile')
    injection hcontent
  have htext := congrArg Utf8.decode hbytes
  rw [Utf8.decode_encode, Utf8.decode_encode] at htext
  exact ⟨d, d', hdraft, hbase ▸ hdraft', String.toList_inj.1 (Except.ok.inj htext)⟩

/-- Reports to a file change it with each dry run. -/
theorem not_repeatable_of_sink {k : Sink} {b : Bytes} (hd : r.dryRun = true)
    (hk : s.sink = some k) (hf : s.tree.get? k.place = some (.file b))
    (h : run config r s = (.ok g, s'))
    (hregistered : Registered s' (baseOf s r) (projectsOf s.cwd r.projects c) c.crateName) :
    ¬ Repeatable config r s c := by
  intro hrepeats
  obtain ⟨g', s'', hagain, -, -, htree⟩ := hrepeats g s' h hregistered
  have hreports : s.OnlyReports (run config r s).2 := onlyReports_run hd
  rw [h] at hreports
  obtain ⟨b', hf', -⟩ := file_of_dryRun hd hk hf h
  obtain ⟨b'', hf'', hlonger⟩ := file_of_dryRun hd (hreports.sink.trans hk) hf' hagain
  rw [htree, hf'] at hf''
  cases hf''
  exact Nat.lt_irrefl _ hlonger

section
variable (ho : Ordinary s r c)
  (htypes : ∀ p ∈ s.typesFile? (apiDirectory s.cwd (baseOf s r) r.apiDir c),
    p.Avoids (cratePlace s r c) s.cwd)
  (htemplates : ∀ dir ∈ c.templatesDir, dir.Avoids (cratePlace s r c) s.cwd)
  (hc : s.settings config (baseOf s r) = .ok c)
include ho htypes htemplates hc

/-- From what is left by changes that were confined to the crate, the same draft is made. -/
theorem draft_of_settled (hsettled : s.Settled (cratePlace s r c) s')
    (hb : s.tree.isDirectory s.cwd (baseOf s r) = true)
    (hkept : s.draft (baseOf s r) r c = .ok d) :
    ∃ s₂, draft config r s' = (.ok d, s₂) ∧ s'.Reported s₂ := by
  have hbase : baseOf s' r = baseOf s r := by rw [baseOf, baseOf, hsettled.confined.cwd]
  have hapi : (apiDirectory s.cwd (baseOf s r) r.apiDir c).Straight :=
    straight_apiDirectory straight_baseOf
  have hk' : s'.sink = none := hsettled.confined.quiet hsettled.quiet
  apply returns_of_draft (c := c) _ (quiet_of_none hk') (templatesQuiet_of_none hk')
  · rw [hbase, hsettled.isDirectory (straight_baseOf.avoids not_crate_above), hb]
  · rw [hbase]
    exact hsettled.draft (hapi.avoids ho.api_outside) htypes htemplates hkept
  · rw [hbase]
    exact hsettled.settings straight_baseOf.plain rfl hb hc

/-- A run that writes finds what it wrote. -/
theorem repeatable_of_write (hd : r.dryRun = false) (hs : s.Sound) (hk : s.sink = none) :
    Repeatable config r s c := by
  intro g s' hrun hregistered
  obtain ⟨d, s₁, hdraft, hfinish⟩ := run_returns hd hrun
  have hb := base_of_draft hdraft
  obtain ⟨hkept, hreported⟩ :=
    draft_of_returns hc (quiet_of_none hk) (templatesQuiet_of_none hk) hdraft
  obtain ⟨wit, hclear⟩ := ho.clear htemplates hkept
  obtain ⟨_, _, files, _, _, -, -, hfiles, -, -, hparts⟩ := draft_eq_ok_iff.1 hkept
  -- The first run makes a crate of what its draft says.
  have hsame : s.Unchanged (cratePlace s r c) s₁ := hreported.unchanged hk
  have hconfined : s.Confined (cratePlace s r c) AtManifest s₁ := hsame.confined
  have hfiles₁ : s₁.filesIn d.api = .ok files := by rw [hreported.filesIn, hparts, hfiles]
  obtain ⟨hsettled₁, hwritten⟩ := written_of_finish (hsame.cwd ▸ hclear) hsame.sink hfinish
    (hsame.sound hs.closed) (hconfined.wayTo (wayTo_of_draft hdraft)) hfiles₁
  have hsettled : s.Settled (cratePlace s r c) s' :=
    ⟨hconfined.trans hsettled₁.confined, hk, fun b => hsame.tree _ ▸ hsettled₁.noFile b,
      hsettled₁.directory⟩
  -- The second run makes the same draft, and writes it again.
  obtain ⟨s₂, hdraft₂, hreported₂⟩ := draft_of_settled ho htypes htemplates hc hsettled hb hkept
  have hregistered' : Registered s' d.base d.projects d.crate.name := by
    rw [hparts]
    exact hregistered
  obtain ⟨g', s'', ⟨hmember, hprojects⟩, hsame'', hagain⟩ :=
    repeats_finish hwritten hregistered' s₂ (hreported₂.unchanged (hsettled.confined.quiet hk))
  refine ⟨g', s'', ?_, hmember, hprojects, hsame''.tree⟩
  unfold run
  rw [bind_ok hdraft₂, if_neg (by rw [hd]; exact Bool.false_ne_true), hagain]

end

end

/-- A workspace with a project and an interface file. -/
def workspaceBefore : Session where
  cwd := ["w"]
  tree := ⟨[(["w"], .directory), (["w", "api"], .directory),
    (["w", "api", "a.wit"], .file (Utf8.encode "world a \x7b".toList)),
    (["w", "Cargo.toml"], .file (Utf8.encode "[workspace]\nmembers = []\n".toList)),
    (["w", "app"], .directory),
    (["w", "app", "Cargo.toml"], .file (Utf8.encode "[dependencies]\n".toList))]⟩

/-- A directory with an interface file, an empty template for the library, and an empty file. -/
def templateBefore : Session where
  cwd := ["w"]
  tree := ⟨[(["w"], .directory), (["w", "a.wit"], .file (Utf8.encode "world a \x7b".toList)),
    (["w", "tpl"], .directory), (["w", "tpl", "lib.rs.j2"], .file []), (["w", "log"], .file [])]⟩

end WitCaller.Generation
