import WitCaller.Generation
import WitCaller.Proofs.InterfaceFiles

/-!
Drafts: up to the source of the library a run of the generator only looks and reports, and it goes
on only from a directory with an interface file.
-/

namespace WitCaller
open Steps Run Session

variable {R : Session → Session → Prop} {s s' : Session} {api path : Path} {paths : List Path}

namespace World

theorem keeps_filesIn [Frame R] : Keeps R (filesIn api) :=
  Keeps.list.bind fun _ => Keeps.filterM fun _ => Keeps.look.bind fun _ => .pure

theorem keeps_sourceAt? [Frame R] : Keeps R (sourceAt? path) := by
  refine (Keeps.attempt Keeps.readText).bind fun outcome => ?_
  cases outcome with
  | error e => exact Keeps.report.bind fun _ => .pure
  | ok cs =>
    simp only
    split
    · exact Keeps.report.bind fun _ => .pure
    · exact .pure

theorem keeps_namesIn [Frame R] : Keeps R (namesIn paths) := by
  induction paths with
  | nil => exact .pure
  | cons path rest ih =>
    refine keeps_sourceAt?.bind fun source => ?_
    cases source.bind name? with
    | some name => exact Keeps.report.bind fun _ => ih.bind fun _ => .pure
    | none => exact ih

theorem keeps_nameIn [Frame R] : Keeps R (nameIn api) := by
  refine keeps_filesIn.bind fun files => keeps_namesIn.bind fun names => ?_
  split
  · exact .pure
  · exact .throw
  · refine Keeps.look.bind fun found => ?_
    split
    · exact Keeps.report.bind fun _ => .pure
    · exact Keeps.report.bind fun _ => .pure

theorem keeps_importsOfFiles [Frame R] : Keeps R (importsOfFiles paths) := by
  induction paths with
  | nil => exact .pure
  | cons path rest ih =>
    exact keeps_sourceAt?.bind fun _ => Keeps.reportAll.bind fun _ => ih.bind fun _ => .pure

theorem keeps_resolve [Frame R] : Keeps R (resolve api) := by
  refine Keeps.look.bind fun found => ?_
  split
  · exact keeps_nameIn.bind fun _ =>
      (keeps_filesIn.bind fun _ => keeps_importsOfFiles).bind fun _ => .pure
  · exact .throw

/-- A world comes from an interface file. -/
theorem resolve_returns {world : World} (h : resolve api s = (.ok world, s')) :
    ∃ directory name bytes, s.tree.locate s.cwd api = .ok directory ∧
      s.tree.InterfaceIn directory name bytes := by
  unfold resolve at h
  rw [bind_ok isDirectory_apply] at h
  split at h
  · obtain ⟨world, s₁, h₁, -⟩ := bind_eq_ok_iff.1 h
    obtain ⟨files, s₂, h₂, h₃⟩ := bind_eq_ok_iff.1 h₁
    obtain ⟨directory, hl, -, hmem⟩ := mem_filesIn h₂
    cases files with
    | nil =>
      rw [namesIn, bind_ok pure_apply] at h₃
      cases h₃
    | cons p rest =>
      obtain ⟨name, bytes, -, hi⟩ := (hmem p).1 List.mem_cons_self
      exact ⟨directory, name, bytes, hl, hi⟩
  · cases h

end World

namespace Templates

theorem keeps_loadFile [Frame R] : Keeps R (loadFile path) := by
  refine Keeps.look.bind fun found => ?_
  split
  · refine (Keeps.attempt Keeps.readText).bind fun outcome => ?_
    rcases outcome with e | text
    · cases e <;> first | exact .pure | exact .throw
    · exact .pure
  · exact .pure

theorem keeps_load [Frame R] {directory : Option Path} : Keeps R (load directory) := by
  cases directory with
  | none => exact .pure
  | some d =>
    exact keeps_loadFile.bind fun _ => keeps_loadFile.bind fun _ => keeps_loadFile.bind fun _ => .pure

theorem keeps_loadManifest [Frame R] {directory : Option Path} : Keeps R (loadManifest directory) := by
  cases directory with
  | none => exact .pure
  | some d => exact keeps_loadFile

end Templates

theorem Config.keeps_load [Frame R] {base : Path} : Keeps R (Config.load base) := by
  have hfile : Keeps R (Config.fileFor base) := by
    refine Keeps.get.bind fun _ => Keeps.look.bind fun found => ?_
    split
    · exact .pure
    · split
      · exact .pure
      · exact .pure
  refine hfile.bind fun file => Keeps.look.bind fun found => ?_
  split
  · exact Keeps.readText.bind fun _ => .ofExcept
  · exact .pure

namespace Generation
variable {config : Option Config} {r : Request} {d : Draft}

theorem keeps_readInterface [Frame R] : Keeps R (readInterface path) :=
  Keeps.report.bind fun _ => Keeps.readText.bind fun _ => Keeps.reportAll.bind fun _ =>
    Keeps.report.bind fun _ => .pure

theorem keeps_interfaceAt? [Frame R] : Keeps R (interfaceAt? path) := by
  refine (Keeps.attempt Keeps.readText).bind fun outcome => ?_
  cases outcome with
  | error e => exact Keeps.report.bind fun _ => .pure
  | ok text =>
    simp only
    split
    · exact .pure
    · refine Keeps.report.bind fun _ => (Keeps.attempt keeps_readInterface).bind fun outcome => ?_
      cases outcome with
      | error e => exact Keeps.report.bind fun _ => .pure
      | ok i => exact .pure

theorem keeps_interfacesOf [Frame R] : Keeps R (interfacesOf paths) :=
  (Keeps.mapM fun _ => keeps_interfaceAt?).bind fun _ => Keeps.report.bind fun _ => .pure

theorem keeps_addAll [Frame R] {settings : StubSettings} {interfaces : List Interface}
    {lib : Library} : Keeps R (addAll settings lib interfaces) := by
  induction interfaces generalizing lib with
  | nil => exact .pure
  | cons i rest ih =>
    refine Keeps.reportAll.bind fun _ => ?_
    rcases (lib.add settings i).outcome with e | made
    · cases e with
      | template e => exact Keeps.throw.bind fun _ => ih.bind fun _ => .pure
      | type e =>
        exact Keeps.report.bind fun _ => Keeps.pure.bind fun _ => ih.bind fun _ => .pure
    · cases made with
      | true => exact Keeps.pure.bind fun _ => ih.bind fun _ => .pure
      | false => exact Keeps.pure.bind fun _ => ih.bind fun _ => .pure

theorem keeps_settings [Frame R] {base : Path} : Keeps R (settings config base) := by
  cases config with
  | none => exact Config.keeps_load
  | some c => exact .pure

theorem keeps_draftIn [Frame R] {base : Path} {c : Config} : Keeps R (draftIn base r c) :=
  Keeps.get.bind fun _ => Keeps.report.bind fun _ => World.keeps_resolve.bind fun _ =>
    Keeps.report.bind fun _ => Templates.keeps_load.bind fun _ => World.keeps_filesIn.bind fun _ =>
      keeps_interfacesOf.bind fun _ => keeps_addAll.bind fun _ => Keeps.ofExcept.bind fun _ => .pure

theorem keeps_draft [Frame R] : Keeps R (draft config r) := by
  refine Keeps.get.bind fun _ => Keeps.look.bind fun found => ?_
  split
  · exact keeps_settings.bind fun _ => keeps_draftIn
  · exact .throw

theorem draftIn_returns {base : Path} {c : Config} (h : draftIn base r c s = (.ok d, s')) :
    d.base = base ∧ d.api = apiDirectory s.cwd base r.apiDir c ∧ d.crate.name = c.crateName ∧
      d.crate.witDir = c.witDir ∧ d.projects = projectsOf s.cwd r.projects c ∧
      ∃ name bytes, s.tree.InterfaceIn (FileTree.target s.cwd d.api) name bytes := by
  unfold draftIn at h
  rw [bind_ok get_apply] at h
  obtain ⟨_, s₁, h₁, h₂⟩ := bind_eq_ok_iff.1 h
  obtain ⟨world, s₂, hw, h₃⟩ := bind_eq_ok_iff.1 h₂
  obtain ⟨_, _, _, h₄⟩ := bind_eq_ok_iff.1 h₃
  obtain ⟨templates, _, _, h₅⟩ := bind_eq_ok_iff.1 h₄
  obtain ⟨files, _, _, h₆⟩ := bind_eq_ok_iff.1 h₅
  obtain ⟨interfaces, _, _, h₇⟩ := bind_eq_ok_iff.1 h₆
  obtain ⟨⟨modules, lib⟩, _, _, h₈⟩ := bind_eq_ok_iff.1 h₇
  obtain ⟨template, _, _, h₉⟩ := bind_eq_ok_iff.1 h₈
  cases h₉
  have hs : s.Rewrites (fun _ => False) s₁ := by
    cases h₁
    exact rewrites_report
  obtain ⟨directory, name, bytes, hl, hi⟩ := World.resolve_returns hw
  obtain ⟨bytes', hi'⟩ := hs.interfaceIn hi
  refine ⟨rfl, rfl, rfl, rfl, rfl, name, bytes', ?_⟩
  rwa [FileTree.locate_eq_ok hl, hs.cwd] at hi'

/-- What a draft holds comes from the request and the settings; its interface files are there. -/
theorem draft_returns (h : draft config r s = (.ok d, s')) :
    d.base = (Path.ofString r.base).resolve s.cwd ∧ ∃ c s₁, settings config d.base s = (.ok c, s₁) ∧
      d.api = apiDirectory s.cwd d.base r.apiDir c ∧ d.crate.name = c.crateName ∧
      d.crate.witDir = c.witDir ∧ d.projects = projectsOf s.cwd r.projects c ∧
      ∃ name bytes, s.tree.InterfaceIn (FileTree.target s.cwd d.api) name bytes := by
  unfold draft at h
  rw [bind_ok get_apply, bind_ok isDirectory_apply] at h
  split at h
  · obtain ⟨c, s₁, hc, h₁⟩ := bind_eq_ok_iff.1 h
    obtain ⟨hb, ha, hn, hw, hp, name, bytes, hi⟩ := draftIn_returns h₁
    have hs : s.Rewrites (fun _ => False) s₁ := keeps_settings.at hc
    obtain ⟨bytes', hi'⟩ := hs.interfaceIn hi
    rw [hs.cwd] at ha hp hi'
    exact ⟨hb, c, s₁, hb ▸ hc, hb ▸ ha, hn, hw, hp, name, bytes', hi'⟩
  · cases h

end Generation

end WitCaller
