import WitCaller.Proofs.DryRun
import WitCaller.Proofs.Manifest.Idempotence
import WitCaller.Proofs.Repeating

/-!
Writing a draft a second time. A crate that holds just what a draft says stays as it is, and so do the
manifests in which it is registered. The first writing leaves such a crate.
-/

namespace WitCaller
open Steps Run Session FileTree

namespace Manifest
variable {crate : Place} {s s₀ : Session} {base : Path} {projects : List Path} {name target : String}

/-- The table in the manifest of a directory, if it can be read. -/
def tableIn? (s : Session) (directory : Path) : Option Toml.Table :=
  (s.textAt (fileIn directory)).toOption.bind Toml.decode

/-- The workspace has no manifest, or one without members, or the crate is one of them; and the
manifest of each project has no dependencies, or the crate is one of them. -/
structure Registered (s : Session) (base : Path) (projects : List Path) (name : String) : Prop where
  member : s.tree.exists? s.cwd (fileIn base) = true →
    ∃ table ∈ tableIn? s base, ∀ members ∈ members? table, members.any (Toml.Value.isText name) = true
  dependency : ∀ project ∈ projects, ∃ table ∈ tableIn? s project,
    ∀ dependencies ∈ dependencies? table, (Assoc.get? name dependencies).isSome = true

theorem holds_of_tableIn? {directory : Path} {table : Toml.Table} (h : table ∈ tableIn? s directory) :
    Holds s (fileIn directory) table := by
  obtain ⟨text, htext, hdecode⟩ := Option.bind_eq_some_iff.1 h
  cases ht : s.textAt (fileIn directory) with
  | error e =>
    rw [ht] at htext
    cases htext
  | ok text' =>
    rw [ht] at htext
    cases htext
    exact ⟨text, ht, hdecode⟩

theorem Registered.unchanged (h : Registered s₀ base projects name) (hs : s₀.Unchanged crate s) :
    Registered s base projects name := by
  have htable (directory : Path) : tableIn? s directory = tableIn? s₀ directory := by
    rw [tableIn?, tableIn?, hs.textAt]
  constructor
  · rw [hs.exists?, htable]
    exact h.member
  · simp only [htable]
    exact h.dependency

/-- A crate that is a member already is not made one. -/
theorem yields_registerMember (hk : s.sink = none) (h : Registered s base projects name) :
    Yields s (registerMember base name) (.ok false) := by
  cases hfound : s.tree.exists? s.cwd (fileIn base) with
  | false =>
    have hexists : Yields s (Run.exists? (fileIn base) : Run Failure Bool) (.ok false) :=
      hfound ▸ Yields.exists?
    unfold registerMember
    exact Yields.report.andThen (hexists.andThen (Yields.report.andThen Yields.pure))
  | true =>
    obtain ⟨table, htable, hmembers⟩ := h.member hfound
    have hdeclines : Declines s (registerMember base name) _ :=
      declines_registerMember (forall_sink hk) (holds_of_tableIn? htable)
    exact yields_of_declines hdeclines (writes_registerMember base name) hmembers

/-- A crate that is a dependency already is not made one. -/
theorem yields_addPathDependency {project : Path} (hk : s.sink = none)
    (h : Registered s base projects name) (hp : project ∈ projects) :
    Yields s (addPathDependency project name target) (.ok false) := by
  obtain ⟨table, htable, hdependencies⟩ := h.dependency project hp
  have hdeclines : Declines s (addPathDependency project name target) _ :=
    declines_addPathDependency (forall_sink hk) (holds_of_tableIn? htable)
  exact yields_of_declines hdeclines (writes_addPathDependency project name target) hdependencies

end Manifest

namespace Generation
open Manifest
variable {s : Session} {base crateDir : Path} {projects : List Path} {name : String}

theorem yields_updateProjects (hk : s.sink = none) (h : Registered s base projects name) :
    Yields s (updateProjects crateDir name projects) (.ok []) := by
  induction projects with
  | nil => exact Yields.pure
  | cons project rest ih =>
    have hrest : Registered s base rest name :=
      ⟨h.member, fun p hp => h.dependency p (List.mem_cons_of_mem _ hp)⟩
    unfold updateProjects
    refine Yields.get fun _ _ => ?_
    exact (yields_addPathDependency hk h List.mem_cons_self).andThen ((ih hrest).andThen Yields.pure)

end Generation

namespace Crate.LiesAt
variable {crate : Crate} {base api : Path} {place : Place} {wit : List String} {s₀ : Session}
  {source : String} {files : List Path}

/-- A crate whose directory for the source is there needs no directories. -/
theorem repeats_prepare (h : crate.LiesAt base place wit) (hc : s₀.tree.Closed)
    (hd : s₀.tree.get? (place ++ ["src"]) = some .directory) :
    Repeats place s₀ (crate.prepare base) fun _ => True := by
  unfold prepare
  rw [h.sourceDirectory]
  refine Repeats.report.bind fun _ _ => ?_
  exact repeats_makeDirectories hc (h.straight (by decide)) hd

/-- A crate that is filled with the same files and copies stays as it is. -/
theorem repeats_fill {template : Option Template} (h : crate.LiesAt base place wit)
    (hc : s₀.tree.Closed) (ht : crate.manifestTemplate = .ok template)
    (hmanifest : s₀.tree.get? (place ++ ["Cargo.toml"]) =
      some (.file (Utf8.encode (Library.manifest template crate.name).toList)))
    (hlibrary : s₀.tree.get? (place ++ ["src"] ++ ["lib.rs"]) =
      some (.file (Utf8.encode source.toList)))
    (ha : api.Straight) (hout : ¬ place <+: api.parts) (hfiles : s₀.filesIn api = .ok files)
    (hcopies : HoldsCopies api.parts (place ++ wit) s₀.tree s₀.tree) :
    Repeats place s₀ (crate.fill base api source) fun _ => True := by
  have hwrite {parts : List String} {text : String} (hparts : ".." ∉ parts)
      (hf : s₀.tree.get? (place ++ parts) = some (.file (Utf8.encode text.toList))) :
      Repeats place s₀ (writeText (.absolute (place ++ parts)) text) fun _ => True :=
    repeats_writeText hc (h.straight hparts) h.ne_nil (List.prefix_append _ _) hf
  rw [List.append_assoc] at hlibrary
  unfold fill
  rw [h.manifest, h.libraryFile, h.staging, ht, List.append_assoc]
  refine (Repeats.pure (P := (· = template)) rfl).bind fun _ htemplate => ?_
  subst htemplate
  refine (hwrite (by decide) hmanifest).bind fun _ _ => Repeats.report.bind fun _ _ => ?_
  refine (hwrite (by decide) hlibrary).bind fun _ _ => ?_
  exact repeats_stage hc (h.straight h.plainWit) h.ne_nil (List.prefix_append _ _) ha hout hfiles
    hcopies

end Crate.LiesAt

namespace Session

/-- The template for the manifest of a crate. -/
def manifestTemplate (s : Session) :
    Option Path → Except Failure (Except Utf8Error (Option Template))
  | none => .ok (.ok none)
  | some dir => s.template (dir / "Cargo.toml.j2")

end Session

theorem Templates.yields_loadManifest {s : Session} {directory : Option Path} (hk : s.sink = none) :
    Yields s (loadManifest directory) (s.manifestTemplate directory) := by
  cases directory with
  | none => exact Yields.pure
  | some dir => exact yields_loadFile (forall_sink hk)

namespace Generation
open Manifest
variable {d : Draft} {place : Place} {wit : List String} {s s' s₀ : Session} {g : Generation}

/-- A draft whose ways lead past its crate, seen from a directory, and whose copies have a directory of
their own in the crate. -/
structure Draft.Clear (d : Draft) (place : Place) (wit : List String) (cwd : Place) : Prop where
  lies : d.crate.LiesAt d.base place wit
  base : d.base.Straight
  above : ¬ place <+: d.base.parts
  api : d.api.Straight
  outside : ¬ place <+: d.api.parts
  apart : wit ≠ [] ∧ wit ≠ ["src"]
  templates : ∀ dir ∈ d.templatesDir, dir.Avoids place cwd
  projects : ∀ project ∈ d.projects, ¬ place <+: FileTree.target cwd project

/-- A crate holds just what a draft says. -/
structure Written (d : Draft) (place : Place) (wit : List String) (s : Session) : Prop where
  closed : s.tree.Closed
  clear : d.Clear place wit s.cwd
  files : ∃ files, s.filesIn d.api = .ok files
  manifest : ∃ template, s.manifestTemplate d.templatesDir = .ok (.ok template) ∧
    s.tree.get? (place ++ ["Cargo.toml"]) =
      some (.file (Utf8.encode (Library.manifest template d.crate.name).toList))
  library : s.tree.get? (place ++ ["src"] ++ ["lib.rs"]) =
    some (.file (Utf8.encode d.source.toList))
  copies : HoldsCopies d.api.parts (place ++ wit) s.tree s.tree

/-- A draft that is written and registered is written again without a change. -/
theorem repeats_finish (h : Written d place wit s₀)
    (hr : Registered s₀ d.base d.projects d.crate.name) : Repeats place s₀ (finish d)
      fun g => g.workspaceUpdated = false ∧ g.projectsUpdated = [] := by
  obtain ⟨files, hfiles⟩ := h.files
  obtain ⟨template, htemplate, hmanifest⟩ := h.manifest
  have hsource : s₀.tree.get? (place ++ ["src"]) = some .directory := by
    have hd := h.closed _ _ h.library
    rwa [List.dropLast_concat] at hd
  have hload : Repeats place s₀ (Templates.loadManifest d.templatesDir) (· = .ok template) := by
    refine Repeats.of_yields rfl fun s hs => ?_
    have hsame : s.manifestTemplate d.templatesDir = s₀.manifestTemplate d.templatesDir := by
      cases d.templatesDir with
      | none => rfl
      | some dir => exact hs.template
    rw [← htemplate, ← hsame]
    exact Templates.yields_loadManifest hs.sink
  have hmember : Repeats place s₀ (registerMember d.base d.crate.name) (· = false) :=
    Repeats.of_yields rfl fun s hs => yields_registerMember hs.sink (hr.unchanged hs)
  have hprojects : Repeats place s₀
      (updateProjects (d.crate.directory d.base) d.crate.name d.projects) (· = []) :=
    Repeats.of_yields rfl fun s hs => yields_updateProjects hs.sink (hr.unchanged hs)
  unfold finish
  refine (h.clear.lies.repeats_prepare h.closed hsource).bind fun _ _ => hload.bind fun _ ht => ?_
  subst ht
  have hlies : Crate.LiesAt { d.crate with manifestTemplate := .ok template } d.base place wit :=
    h.clear.lies.withTemplate
  have hfill := hlies.repeats_fill h.closed rfl hmanifest h.library h.clear.api h.clear.outside hfiles
    h.copies
  refine hfill.bind fun _ _ => hmember.bind fun member hfalse => ?_
  exact hprojects.bind fun projects hnil => Repeats.pure ⟨hfalse, hnil⟩

end Generation

namespace Session
variable {W : Place → Prop} {s s' : Session} {p place : Place}

/-- Where a directory is now, no file was before. -/
theorem Grows.noFile (h : s.Grows W s') (hd : s'.tree.get? p = some .directory) :
    ∀ b, s.tree.get? p ≠ some (.file b) := by
  intro b hb
  rcases h.tree p with he | ⟨hn, -⟩ | ⟨-, -, b', hf⟩
  · rw [he, hb] at hd
    cases hd
  · rw [hn] at hb
    cases hb
  · rw [hf] at hd
    cases hd

/-- The interface files of a directory past which the crate lies are the same. -/
theorem Settled.interfaceIn_iff {directory : Place} {name : String} {bytes : Bytes}
    (h : s.Settled place s') (hout : ¬ place <+: directory) :
    s'.tree.InterfaceIn directory name bytes ↔ s.tree.InterfaceIn directory name bytes := by
  unfold InterfaceIn
  refine and_congr_right fun hn => ?_
  by_cases hp : place <+: directory ++ [name]
  · have he : place = directory ++ [name] := (List.prefix_concat_iff.1 hp).resolve_right hout
    rw [← he, h.directory]
    exact iff_of_false nofun (h.noFile bytes)
  · rcases h.get? hp with he | hm
    · rw [he]
    · exact absurd hm.aside (not_aside_concat hn)

theorem Settled.manifestTemplate {directory : Option Path} (h : s.Settled place s')
    (hp : ∀ dir ∈ directory, dir.Avoids place s.cwd) :
    s'.manifestTemplate directory = s.manifestTemplate directory := by
  cases directory with
  | none => rfl
  | some dir => exact h.template (hp dir rfl) (by decide)

theorem Reported.filesIn {api : Path} (h : s.Reported s') : s'.filesIn api = s.filesIn api := by
  have hfirst : Yields s (World.filesIn api) (s.filesIn api) := World.yields_filesIn
  have hsecond : Yields s' (World.filesIn api) (s'.filesIn api) := World.yields_filesIn
  obtain ⟨_, -, hyields⟩ := hfirst s' h
  obtain ⟨_, -, hyields'⟩ := hsecond s' (Frame.refl s')
  exact congrArg Prod.fst (hyields'.symm.trans hyields)

/-- Seen from one directory, some files have other bytes. -/
def RewritesFrom (cwd : Place) (W : Place → Prop) (s s' : Session) : Prop :=
  s.cwd = cwd → s.Rewrites W s'

instance {cwd : Place} : Frame (RewritesFrom cwd W) where
  refl _ _ := .refl
  trans h h' hc := (h hc).trans (h' ((h hc).cwd.trans hc))
  report _ _ _ := rewrites_report

end Session

theorem Manifest.retouches_rewritesFrom {cwd : Place} {W : Place → Prop} {directory : Path}
    (hw : W (FileTree.target cwd (fileIn directory))) :
    Retouches (RewritesFrom cwd W) directory := by
  intro s place b bytes hl hf hc
  refine .put hf ?_
  rwa [locate_eq_ok hl, hc]

theorem not_append_prefix {l m : List String} (hm : m ≠ []) : ¬ l ++ m <+: l := by
  intro h
  have hlen := h.length_le
  rw [List.length_append] at hlen
  exact hm (List.length_eq_zero_iff.1 (by omega))

namespace Generation
open Manifest
variable {d : Draft} {place : Place} {wit : List String} {s s' : Session} {g : Generation}
  {files : List Path}

section
variable {crate : Crate} {base api : Path} {source : String} {staged : List Path}

/-- A file can be written only in a directory. -/
theorem directory_of_fill (h : crate.LiesAt base place wit) (hc : s.tree.Closed)
    (hfill : crate.fill base api source s = (.ok staged, s')) :
    s.tree.get? place = some .directory := by
  obtain ⟨template, s₁, -, -, -, hmanifest, -⟩ := Crate.fill_returns hfill
  rw [h.manifest] at hmanifest
  unfold writeText writeBytes at hmanifest
  rw [change_apply] at hmanifest
  split at hmanifest
  · next t hw =>
    obtain ⟨q, hl, -, -⟩ := write_eq_ok hw
    have hmanifest : (Path.absolute (place ++ ["Cargo.toml"])).Straight := h.straight (by decide)
    have hparent := hc.locate hmanifest.anchored hl
    rwa [hmanifest.located hl, Path.absolute, List.dropLast_concat] at hparent
  · cases hmanifest

/-- The manifest that a filled crate has. -/
theorem holds_of_fill (h : crate.LiesAt base place wit) (hb : base.anchor ≠ .relative)
    (hwit : wit ≠ []) (hk : s.sink = none)
    (hfill : crate.fill base api source s = (.ok staged, s')) :
    ∃ template, crate.manifestTemplate = .ok template ∧
      Crate.Holds s' (place ++ ["Cargo.toml"])
        (Utf8.encode (Library.manifest template crate.name).toList) := by
  have hmanifest : (Path.absolute (place ++ ["Cargo.toml"])).Straight := h.straight (by decide)
  have hapart : ¬ FileTree.target s.cwd (crate.staging base) <+:
      FileTree.target s.cwd (crate.directory base) := by
    rw [h.staging, h.directory, (h.straight h.plainWit).target,
      (Path.straight_absolute h.plain).target]
    exact not_append_prefix hwit
  have hheld := Crate.manifest_of_fill hb hapart (forall_sink hk) hfill
  rw [h.manifest, hmanifest.target] at hheld
  exact hheld

end

theorem sound_of_finish (hb : d.base.anchor ≠ .relative) (hs : s.Sound)
    (h : finish d s = (.ok g, s')) : s'.Sound := by
  obtain ⟨s₁, s₂, staged, hg, hstage, hr⟩ := grows_finish hb h
  obtain ⟨s₃, hclear, hg'⟩ := Crate.stage_grows (Crate.anchored_append (Crate.anchored_append hb)) hstage
  exact hr.sound (hg'.sound (hclear.sound (hg.sound hs)))

/-- Writing a draft goes on in the same place, and without reports to a file if there were none. -/
theorem unmoved_of_finish (hb : d.base.anchor ≠ .relative) (hk : s.sink = none)
    (h : finish d s = (.ok g, s')) : s'.cwd = s.cwd ∧ s'.sink = none := by
  obtain ⟨s₁, s₂, staged, hg, hstage, hr⟩ := grows_finish hb h
  obtain ⟨s₃, hclear, hg'⟩ := Crate.stage_grows (Crate.anchored_append (Crate.anchored_append hb)) hstage
  refine ⟨by rw [hr.cwd, hg'.cwd, hclear.cwd, hg.cwd], ?_⟩
  rw [hr.sink, hg'.sink, Option.eq_none_iff_forall_ne_some]
  intro k hs
  have hs₁ := hclear.sink hs
  rw [hg.sink, hk] at hs₁
  cases hs₁

/-- Registering a crate leaves its own manifest alone. -/
theorem holds_of_register {s₁ : Session} {bytes : Bytes} {member : Bool} {changed : List Path}
    (hd : d.Clear place wit s.cwd) (h : Crate.Holds s (place ++ ["Cargo.toml"]) bytes)
    (hmember : registerMember d.base d.crate.name s = (.ok member, s₁))
    (hprojects : updateProjects (d.crate.directory d.base) d.crate.name d.projects s₁ =
      (.ok changed, s')) : Crate.Holds s' (place ++ ["Cargo.toml"]) bytes := by
  have hother {directory : Path} (hout : ¬ place <+: FileTree.target s.cwd directory) :
      Retouches (RewritesFrom s.cwd (· ≠ place ++ ["Cargo.toml"])) directory := by
    apply retouches_rewritesFrom
    have hfile : fileIn directory = ⟨directory.anchor, directory.parts ++ ["Cargo.toml"]⟩ := rfl
    rw [hfile, target_concat (by decide)]
    intro he
    exact hout ((List.append_inj' he rfl).1 ▸ List.prefix_rfl)
  have hbase : ¬ place <+: FileTree.target s.cwd d.base := by
    rw [hd.base.target]
    exact hd.above
  have h₁ : RewritesFrom s.cwd (· ≠ place ++ ["Cargo.toml"]) s s₁ :=
    (keeps_registerMember (hother hbase)).at hmember
  have h₂ : RewritesFrom s.cwd (· ≠ place ++ ["Cargo.toml"]) s₁ s' :=
    (keeps_updateProjects fun project hp => hother (hd.projects project hp)).at hprojects
  exact h.grows (Frame.trans h₁ h₂ rfl).grows fun hne => hne rfl

/-- The library that a written draft has. -/
theorem libraryFile_of_finish (hlies : d.crate.LiesAt d.base place wit)
    (hb : d.base.anchor ≠ .relative) (hapart : wit ≠ [] ∧ wit ≠ ["src"]) (hk : s.sink = none)
    (h : finish d s = (.ok g, s')) : s'.tree.get? (place ++ ["src"] ++ ["lib.rs"]) =
      some (.file (Utf8.encode d.source.toList)) := by
  have hstaging : FileTree.target s.cwd (.absolute (place ++ wit)) = place ++ wit :=
    (hlies.straight hlies.plainWit).target
  have hsource : (Path.absolute (place ++ ["src"])).Straight := hlies.straight (by decide)
  have hlibrary : (Path.absolute (place ++ ["src"] ++ ["lib.rs"])).Straight :=
    hsource.concat (by decide)
  have hout : ¬ FileTree.target s.cwd (d.crate.staging d.base) <+:
      FileTree.target s.cwd (d.crate.sourceDirectory d.base) := by
    rw [hlies.staging, hlies.sourceDirectory, hstaging, hsource.target]
    intro hin
    rcases List.prefix_concat_iff.1 hin with he | hin
    · exact hapart.2 (List.append_cancel_left he)
    · exact not_append_prefix hapart.1 hin
  have hfile := library_of_finish hb hout (forall_sink hk) h
  rwa [hlies.libraryFile, hlibrary.target] at hfile

section
variable (hd : d.Clear place wit s.cwd) (hk : s.sink = none) (h : finish d s = (.ok g, s'))
include hd hk h

/-- The copies that a written draft has. -/
theorem copies_of_finish (hs : s.Sound) (hsettled : s.Settled place s') :
    HoldsCopies d.api.parts (place ++ wit) s'.tree s'.tree := by
  have hb := hd.base.anchored
  obtain ⟨s₁, s₂, staged, hg, hstage, hr⟩ := grows_finish hb h
  rw [hd.lies.staging] at hstage
  have htarget := hd.lies.straight hd.lies.plainWit
  obtain ⟨-, hst, ⟨he, -⟩ | ⟨-, -, hholds⟩⟩ := Crate.stage_returns (hg.sound hs) htarget.anchored
    hd.api.target htarget.target (forall_sink (hg.sink.trans hk)) hstage
  · exact absurd (he ▸ List.prefix_append _ _) hd.outside
  · have hsame (name : String) (bytes : Bytes) :
        s₁.tree.InterfaceIn d.api.parts name bytes ↔ s'.tree.InterfaceIn d.api.parts name bytes :=
      (hg.interfaceIn_iff (forall_sink hk)).trans (hsettled.interfaceIn_iff hd.outside).symm
    have hkept := holdsCopies_of_rewrites hr hst hholds
    simp only [HoldsCopies, hsame] at hkept ⊢
    exact hkept

/-- Once a draft is written, its crate holds just what it says. All that is changed elsewhere are
manifests, and the crate was no file before. -/
theorem written_of_finish (hs : s.Sound) (hway : s.WayTo place) (hfiles : s.filesIn d.api = .ok files) :
    s.Settled place s' ∧ Written d place wit s' := by
  obtain ⟨s₁, template, s₂, staged, s₃, member, s₄, projects, hprepare, hload, hfill, hmember,
    hprojects, -⟩ := finish_returns h
  have hb := hd.base.anchored
  have hclosed := (sound_of_finish hb hs h).closed
  have hlibrary := libraryFile_of_finish hd.lies hb hd.apart hk h
  have hin : s'.tree.get? (place ++ ["src"]) = some .directory := by
    have hparent := hclosed _ _ hlibrary
    rwa [List.dropLast_concat] at hparent
  have hplace := hclosed.above hin (List.prefix_append _ _)
  -- The directories of the crate are made, and all that follows stays in it.
  have hprepared : s.Confined place AtManifest s₁ := hd.lies.staysIn_prepare.at hprepare hway
  have hg₁ : s.Grows Aside s₁ := (Crate.grows_prepare hb).at hprepare
  have hg₂ : s₁.Rewrites (fun _ => False) s₂ := Templates.keeps_loadManifest.at hload
  have hplace₁ : s₁.tree.get? place = some .directory :=
    hg₂.directory.1 (directory_of_fill hd.lies.withTemplate (hg₂.sound (hg₁.sound hs)).closed hfill)
  have hrest : s₁.Confined place AtManifest s' :=
    staysIn_of_returns hd.lies hload hfill hmember hprojects (hprepared.wayTo hway)
  have hsettled₁ : s₁.Settled place s' := ⟨hrest, hprepared.quiet hk, by simp [hplace₁], hplace⟩
  have hsettled : s.Settled place s' := ⟨hprepared.trans hrest, hk, hg₁.noFile hplace₁, hplace⟩
  have hcwd : s'.cwd = s.cwd := hsettled.confined.cwd
  obtain ⟨template', rfl, hheld⟩ := holds_of_fill hd.lies.withTemplate hb hd.apart.1
    (hg₂.sink.trans (hprepared.quiet hk)) hfill
  have hcwd₃ : s₃.cwd = s.cwd := (rewrites_register hmember hprojects).cwd.symm.trans hcwd
  have hheld' := holds_of_register (hcwd₃ ▸ hd) hheld hmember hprojects
  -- The template of the manifest is found again.
  have htemplate : s'.manifestTemplate d.templatesDir = .ok (.ok template') := by
    have hyieldsLoad : Yields s₁ (Templates.loadManifest d.templatesDir)
        (s₁.manifestTemplate d.templatesDir) := Templates.yields_loadManifest (hprepared.quiet hk)
    obtain ⟨_, -, hyields⟩ := hyieldsLoad s₁ (Frame.refl s₁)
    have hfound : s₁.manifestTemplate d.templatesDir = .ok (.ok template') :=
      congrArg Prod.fst (hyields.symm.trans hload)
    rw [← hfound]
    apply hsettled₁.manifestTemplate
    rw [hprepared.cwd]
    exact hd.templates
  refine ⟨hsettled, hclosed, hcwd ▸ hd, ⟨files, ?_⟩, ⟨template', htemplate, hheld'.1⟩, hlibrary, ?_⟩
  · exact hsettled.filesIn (hd.api.avoids hd.outside) hfiles
  · exact copies_of_finish hd hk h hs hsettled

end

end Generation

end WitCaller
