import WitCaller.Proofs.Footprint
import WitCaller.Proofs.Manifest.Registering
import WitCaller.Proofs.PassedOn

/-!
When the command line of the generator has an answer: not if the settings are no text or hold a value
that is none, and not if the run gets to a manifest that is no text. A run writes no such manifest
itself, so it was there at the start.
-/

namespace WitCaller
open Steps Run Session FileTree

namespace Session
variable {s s' : Session} {p : Path} {place : Place} {c : Content}

/-- That nothing but texts is written where manifests lie, unless reports go to a file. -/
def KeepsTexts (s s' : Session) : Prop := s.sink = none → s'.sink = none ∧ s'.cwd = s.cwd ∧
  ∀ place bytes, AtManifest place → s'.tree.get? place = some (.file bytes) →
    s.tree.get? place = some (.file bytes) ∨ ∃ text, Utf8.decode bytes = .ok text

instance : Frame KeepsTexts where
  refl _ hk := ⟨hk, rfl, fun _ _ _ hf => .inl hf⟩
  trans h h' hk := by
    obtain ⟨hk₁, hc₁, ht₁⟩ := h hk
    obtain ⟨hk₂, hc₂, ht₂⟩ := h' hk₁
    refine ⟨hk₂, hc₂.trans hc₁, fun place bytes hp hf => ?_⟩
    exact (ht₂ place bytes hp hf).elim (ht₁ place bytes hp) .inr
  report s e hk := by
    refine ⟨hk, rfl, fun place bytes _ hf => .inl ?_⟩
    rwa [tree_report hk] at hf

/-- A manifest that is no text after a run was the same file before. -/
theorem KeepsTexts.file_of_noText (h : KeepsTexts s s') (hk : s.sink = none) {directory : Path}
    (hn : s'.NoText (Manifest.fileIn directory)) : ∃ bytes e,
      s.tree.get? (FileTree.target s.cwd (Manifest.fileIn directory)) = some (.file bytes) ∧
        Utf8.decode bytes = .error e := by
  obtain ⟨-, hcwd, htexts⟩ := h hk
  obtain ⟨bytes, e, hread, hd⟩ := noText_iff.1 hn
  obtain ⟨place, hl, hf⟩ := read_eq_ok.1 hread
  rw [locate_eq_ok hl, hcwd] at hf
  refine ⟨bytes, e, (htexts _ _ Manifest.atManifest_target hf).resolve_right ?_, hd⟩
  rintro ⟨text, ht⟩
  rw [hd] at ht
  cases ht

theorem keepsTexts_put (hp : place ≠ []) (hc : ∀ bytes, AtManifest place → c = .file bytes →
    ∃ text, Utf8.decode bytes = .ok text) : KeepsTexts s { s with tree := s.tree.put place c } := by
  refine fun hk => ⟨hk, rfl, fun q bytes hq hf => ?_⟩
  rw [get?_put hp] at hf
  split at hf
  · next he =>
    subst he
    exact .inr (hc bytes hq (Option.some.inj hf))
  · exact .inl hf

theorem Reported.keepsTexts (h : s.Reported s') : KeepsTexts s s' := by
  intro hk
  refine ⟨h.rewrites.sink.trans hk, h.rewrites.cwd, fun place bytes _ hf => .inl ?_⟩
  rwa [h.get? (forall_sink hk)] at hf

end Session

namespace Run
variable {p : Path} {again : Bool} {bytes : Bytes} {text : String} {q : Place → Bool}

theorem keepsTexts_writeBytes (hp : ∀ cwd, AtManifest (FileTree.target cwd p) →
    ∃ text, Utf8.decode bytes = .ok text) : Keeps KeepsTexts (writeBytes p bytes) := by
  intro s
  unfold writeBytes
  rw [change_apply]
  split
  · next t ht =>
    obtain ⟨place, hl, hn, rfl⟩ := write_eq_ok ht
    refine keepsTexts_put (by rintro rfl; exact hn rfl) fun bytes' hm he => ?_
    cases he
    exact hp s.cwd (locate_eq_ok hl ▸ hm)
  · exact Frame.refl s

theorem keepsTexts_writeText : Keeps KeepsTexts (writeText p text) :=
  keepsTexts_writeBytes fun _ _ => ⟨_, Utf8.decode_encode _⟩

theorem keepsTexts_makeDirectories : Keeps KeepsTexts (makeDirectories p again) := by
  refine keeps_makeDirectories (Q := fun _ => True) (fun {p s t} _ h => ?_) id trivial
  obtain ⟨place, -, hn, rfl⟩ := makeDirectory_eq_ok h
  exact keepsTexts_put (by rintro rfl; cases hn) nofun

theorem keepsTexts_drop : Keeps KeepsTexts (drop q : Run Failure Unit) := by
  intro s hk
  rw [drop_apply]
  refine ⟨by simp [hk], rfl, fun place bytes hm hf => .inl ?_⟩
  have hne : place ≠ [] := by
    rintro rfl
    cases hf
  rw [get?_discard hne] at hf
  split at hf
  · cases hf
  · exact hf

theorem keepsTexts_removeDirectory : Keeps KeepsTexts (removeDirectory p) :=
  keeps_removeDirectory fun _ _ _ => keepsTexts_drop

end Run

namespace Crate
variable {crate : Crate} {base api target : Path} {paths : List Path} {source : String}

/-- A copy of an interface file lies where no manifest does. -/
theorem keepsTexts_stage : Keeps KeepsTexts (stage api target) := by
  refine keeps_stage keepsTexts_removeDirectory keepsTexts_makeDirectories fun name hname bytes => ?_
  refine keepsTexts_writeBytes fun cwd hm => ?_
  rw [target_concat (ne_parent_of_isInterfaceName hname)] at hm
  exact absurd hm.aside (not_aside_concat hname)

theorem keepsTexts_write : Keeps KeepsTexts (crate.write base api source) := by
  unfold write prepare fill
  refine (Keeps.report.bind fun _ => keepsTexts_makeDirectories).bind fun _ => ?_
  refine Keeps.ofExcept.bind fun _ => keepsTexts_writeText.bind fun _ => ?_
  exact Keeps.report.bind fun _ => keepsTexts_writeText.bind fun _ => keepsTexts_stage

end Crate

theorem Manifest.Call.keepsTexts (c : Call) : Keeps KeepsTexts c.run := by
  intro s
  rcases h : c.run s with ⟨r, s'⟩
  obtain ⟨-, hreported⟩ | ⟨s₁, s₂, text, -, h₁, hw, h₂⟩ := c.writes s r s' h
  · exact hreported.keepsTexts
  · have hwritten : KeepsTexts s₁ s₂ := by
      obtain ⟨hr, -⟩ | ⟨table, place, -, -, -, hn, rfl⟩ := writeChecked_cases hw
      · exact absurd rfl hr
      · refine keepsTexts_put (by rintro rfl; exact hn rfl) fun bytes _ he => ?_
        cases he
        exact ⟨_, Utf8.decode_encode _⟩
    exact Frame.trans (Frame.trans h₁.keepsTexts hwritten) h₂.keepsTexts

namespace Generation
open Manifest
variable {crateDir base : Path} {crate : String} {projects : List Path} {s s' : Session}

theorem keepsTexts_updateProjects : Keeps KeepsTexts (updateProjects crateDir crate projects) := by
  induction projects with
  | nil => exact .pure
  | cons project rest ih =>
    exact Keeps.get.bind fun _ => (Call.keepsTexts (.dependency project crate _)).bind fun _ =>
      ih.bind fun _ => .pure

/-- Whether a run that updates projects gets to one whose manifest is no text. -/
def MeetsNoText (crateDir : Path) (crate : String) (projects : List Path) (s : Session) : Prop :=
  ∃ front project rest updated s', projects = front ++ project :: rest ∧
    updateProjects crateDir crate front s = (.ok updated, s') ∧ s'.NoText (fileIn project)

theorem meetsNoText_cons {project : Path} : MeetsNoText crateDir crate (project :: projects) s ↔
    s.NoText (fileIn project) ∨ ∃ changed s',
      addPathDependency project crate (toString (Path.relativeTo s.cwd crateDir project)) s =
        (.ok changed, s') ∧ MeetsNoText crateDir crate projects s' := by
  constructor
  · rintro ⟨front, found, rest, updated, s', he, hrun, hn⟩
    cases front with
    | nil =>
      cases he
      cases hrun
      exact .inl hn
    | cons first front =>
      cases he
      unfold updateProjects at hrun
      rw [bind_ok get_apply] at hrun
      obtain ⟨changed, s₁, hfirst, hrun⟩ := bind_eq_ok_iff.1 hrun
      obtain ⟨others, s₂, hothers, hrun⟩ := bind_eq_ok_iff.1 hrun
      cases hrun
      exact .inr ⟨changed, s₁, hfirst, front, found, rest, others, s', rfl, hothers, hn⟩
  · rintro (hn | ⟨changed, s₁, hfirst, front, found, rest, others, s', rfl, hothers, hn⟩)
    · exact ⟨[], project, projects, [], s, rfl, rfl, hn⟩
    · refine ⟨project :: front, found, rest, if changed then project :: others else others, s', rfl,
        ?_, hn⟩
      unfold updateProjects
      rw [bind_ok get_apply, bind_ok hfirst, bind_ok hothers]
      rfl

theorem passesOn_updateProjects (hk : s.sink = none) :
    PassesOn (updateProjects crateDir crate projects s).1 ↔ MeetsNoText crateDir crate projects s := by
  induction projects generalizing s with
  | nil =>
    refine iff_of_false not_passesOn_ok ?_
    rintro ⟨front, project, rest, _, _, he, -⟩
    cases front <;> cases he
  | cons project rest ih =>
    rw [meetsNoText_cons, updateProjects, bind_ok get_apply, passesOn_step,
      passesOn_addPathDependency hk]
    refine or_congr_right (exists_congr fun changed => exists_congr fun s₁ =>
      and_congr_right fun h => ?_)
    have hk₁ : s₁.sink = none := ((Call.keepsTexts (.dependency project crate _)).at h hk).1
    rw [passesOn_step, ih hk₁]
    refine or_iff_left ?_
    rintro ⟨_, _, -, h⟩
    exact not_passesOn_ok h

/-- Whether a run, once it has written its crate, gets to a manifest that is no text. -/
def GetsToNoText (r : Request) (s : Session) : Prop :=
  r.dryRun = false ∧ ∃ d s₁ staged s₂, draft none r s = (.ok d, s₁) ∧
    d.crate.write d.base d.api d.source s₁ = (.ok staged, s₂) ∧
    (s₂.NoText (fileIn d.base) ∨ ∃ changed s₃,
      registerMember d.base d.crate.name s₂ = (.ok changed, s₃) ∧
      MeetsNoText (d.crate.directory d.base) d.crate.name d.projects s₃)

variable {r : Request} {d : Draft}

theorem passesOn_finish (hk : s.sink = none) (ht : d.templatesDir = none)
    (hm : d.crate.manifestTemplate = .ok none) : PassesOn (finish d s).1 ↔ ∃ staged s₁,
      d.crate.write d.base d.api d.source s = (.ok staged, s₁) ∧
      (s₁.NoText (fileIn d.base) ∨ ∃ changed s₂,
        registerMember d.base d.crate.name s₁ = (.ok changed, s₂) ∧
        MeetsNoText (d.crate.directory d.base) d.crate.name d.projects s₂) := by
  have hcrate : ({ d.crate with manifestTemplate := .ok none } : Crate) = d.crate := by rw [← hm]
  have hfinish : finish d = d.crate.write d.base d.api d.source >>= fun staged =>
      registerMember d.base d.crate.name >>= fun workspaceUpdated =>
        updateProjects (d.crate.directory d.base) d.crate.name d.projects >>= fun projectsUpdated =>
          pure { ofDraft d with staged, workspaceUpdated, projectsUpdated } := by
    simp only [finish, Crate.write, ht, Templates.loadManifest, bind_assoc, pure_bind, hcrate]
  rw [hfinish, passesOn_step, or_iff_right (Crate.answers_write hm s)]
  refine exists_congr fun staged => exists_congr fun s₁ => and_congr_right fun hwrite => ?_
  have hk₁ : s₁.sink = none := (Crate.keepsTexts_write.at hwrite hk).1
  rw [passesOn_step, passesOn_registerMember hk₁]
  refine or_congr_right (exists_congr fun changed => exists_congr fun s₂ =>
    and_congr_right fun h => ?_)
  have hk₂ : s₂.sink = none := ((Call.keepsTexts (.member d.base d.crate.name)).at h hk₁).1
  rw [passesOn_step, passesOn_updateProjects hk₂]
  refine or_iff_left ?_
  rintro ⟨_, _, -, h⟩
  exact not_passesOn_ok h

section
variable (hk : s.sink = none)
  (hbundled : ∀ c, s.settings none (baseOf s r) = .ok c → c.templatesDir = none)
include hk hbundled

theorem passesOn_draft : PassesOn (draft none r s).1 ↔
    s.tree.isDirectory s.cwd (baseOf s r) = true ∧ s.BadSettings (baseOf s r) := by
  unfold draft
  rw [bind_ok get_apply, bind_ok isDirectory_apply]
  change PassesOn ((if s.tree.isDirectory s.cwd (baseOf s r) = true then
    settings none (baseOf s r) >>= draftIn (baseOf s r) r else throw _ : Run Failure Draft) s).1 ↔ _
  split
  · next hd =>
    rw [passesOn_step, settings_apply, passesOn_settings, and_iff_right hd]
    refine or_iff_left ?_
    rintro ⟨c, s₁, he, h⟩
    obtain ⟨hc, rfl⟩ := Prod.mk.inj he
    have hdraft : Yields s (draftIn (baseOf s r) r c) (s.draft (baseOf s r) r c) :=
      yields_draftIn (quiet_of_none hk) (templatesQuiet_of_none hk)
    obtain ⟨s₁, -, hyields⟩ := hdraft s (Frame.refl s)
    rw [hyields] at h
    exact not_passesOn_draft (hbundled c hc) h
  · next hd => exact iff_of_false (fun h => nomatch passesOn_error.1 h) fun h => hd h.1

theorem draft_bundled {s₁ : Session} (h : draft none r s = (.ok d, s₁)) :
    d.templatesDir = none ∧ d.crate.manifestTemplate = .ok none ∧ s.Reported s₁ ∧
      ∃ c, s.settings none (baseOf s r) = .ok c ∧ d.base = baseOf s r ∧
        d.projects = projectsOf s.cwd r.projects c := by
  obtain ⟨c, hc, hbase, -, -, hprojects⟩ := settings_of_draft h
  obtain ⟨hd, hreported⟩ := draft_of_returns hc (quiet_of_none hk) (templatesQuiet_of_none hk) h
  obtain ⟨_, _, _, _, _, -, -, -, -, -, rfl⟩ := draft_eq_ok_iff.1 hd
  exact ⟨hbundled c hc, rfl, hreported, c, hc, hbase, hprojects⟩

/-- A failure is passed on in two cases only: the settings cannot be used, or the run gets to a
manifest that is no text. -/
theorem passesOn_run : PassesOn (run none r s).1 ↔
    (s.tree.isDirectory s.cwd (baseOf s r) = true ∧ s.BadSettings (baseOf s r)) ∨
      GetsToNoText r s := by
  unfold run GetsToNoText
  rw [passesOn_step, passesOn_draft hk hbundled]
  refine or_congr_right ?_
  have hrest {d : Draft} {s₁ : Session} (hdraft : draft none r s = (.ok d, s₁)) :=
    let ⟨ht, hm, hreported, _⟩ := draft_bundled hk hbundled hdraft
    passesOn_finish (hreported.rewrites.sink.trans hk) ht hm
  cases hdry : r.dryRun with
  | true =>
    refine iff_of_false ?_ nofun
    rintro ⟨d, s₁, -, h⟩
    exact not_passesOn_ok h
  | false =>
    constructor
    · rintro ⟨d, s₁, hdraft, h⟩
      obtain ⟨staged, s₂, hwrite, hmeets⟩ := (hrest hdraft).1 h
      exact ⟨rfl, d, s₁, staged, s₂, hdraft, hwrite, hmeets⟩
    · rintro ⟨-, d, s₁, staged, s₂, hdraft, hwrite, hmeets⟩
      exact ⟨d, s₁, hdraft, (hrest hdraft).2 ⟨staged, s₂, hwrite, hmeets⟩⟩

/-- A manifest that a run gets to and that is no text was there at the start. -/
theorem manifest_of_getsToNoText (h : GetsToNoText r s) : ∃ c place bytes e,
    s.settings none (baseOf s r) = .ok c ∧ ManifestOf s r c place ∧
      s.tree.get? place = some (.file bytes) ∧ Utf8.decode bytes = .error e := by
  obtain ⟨-, d, s₁, staged, s₂, hdraft, hwrite, hmeets⟩ := h
  obtain ⟨-, -, hreported, c, hc, hbase, hprojects⟩ := draft_bundled hk hbundled hdraft
  have hwritten : KeepsTexts s s₂ :=
    Frame.trans hreported.keepsTexts (Crate.keepsTexts_write.at hwrite)
  -- The run is at a directory that it registers the crate with, and has kept to texts so far.
  obtain ⟨directory, s', hdirectory, hkept, hn⟩ : ∃ directory s',
      directory ∈ baseOf s r :: projectsOf s.cwd r.projects c ∧ KeepsTexts s s' ∧
        s'.NoText (fileIn directory) := by
    rcases hmeets with hn | ⟨_, s₃, hmember, front, project, rest, _, s₄, he, hupdate, hn⟩
    · exact ⟨d.base, s₂, hbase ▸ List.mem_cons_self, hwritten, hn⟩
    · refine ⟨project, s₄, List.mem_cons_of_mem _ ?_, ?_, hn⟩
      · rw [← hprojects, he]
        exact List.mem_append_right _ List.mem_cons_self
      · exact Frame.trans (Frame.trans hwritten ((Call.keepsTexts (.member _ _)).at hmember))
          (keepsTexts_updateProjects.at hupdate)
  obtain ⟨bytes, e, hf, hd⟩ := hkept.file_of_noText hk hn
  exact ⟨c, _, bytes, e, hc, ⟨directory, hdirectory, rfl⟩, hf, hd⟩

end

end Generation

namespace CommandLine
variable {stamp last : String} {words : List String} {o : Options} {r : Request} {s : Session}
  {f : Failure}

/-- What stands before and after the cause in a last message. -/
def messageForms : List (String × String) := [("", "\n"), ("callergen generate failed: ", "\n"),
  ("callergen generate failed: ", "\nRun with --verbose for more details.\n")]

/-- That an answer says what came of a run of the generator: what it has done, or the one cause for
which it failed, in a message after the reports. -/
def Answer.Tells (a : Answer) (verbose : Bool) : Except Failure Generation × Session → Prop
  | (.ok g, s) => a = ⟨0, generateOutput s.cwd g, console verbose s.entries⟩
  | (.error f, s) => ∃ form ∈ messageForms,
      a = ⟨1, "", console verbose s.entries ++ (form.1 ++ f.message ++ form.2)⟩

theorem generateFailure?_eq_some (h : generateFailure? f = some last) :
    ∃ form ∈ messageForms, last = form.1 ++ f.message ++ form.2 := by
  have hplain (m : String) : ∃ form ∈ messageForms, m ++ "\n" = form.1 ++ m ++ form.2 :=
    ⟨("", "\n"), by simp [messageForms], by rw [String.empty_append]⟩
  have hfailed (m : String) : ∃ form ∈ messageForms,
      "callergen generate failed: " ++ m ++ "\n" = form.1 ++ m ++ form.2 :=
    ⟨("callergen generate failed: ", "\n"), by simp [messageForms], rfl⟩
  have hdetails (m : String) : ∃ form ∈ messageForms, "callergen generate failed: " ++ m ++ "\n" ++
      "Run with --verbose for more details.\n" = form.1 ++ m ++ form.2 :=
    ⟨("callergen generate failed: ", "\nRun with --verbose for more details.\n"),
      by simp [messageForms], by rw [String.append_assoc]; rfl⟩
  cases f with
  | os e =>
    obtain ⟨kind, path⟩ := e
    cases kind with
    | noEntry => exact Option.some.inj h ▸ hplain _
    | notDirectory => exact Option.some.inj h ▸ hplain _
    | alreadyThere => exact Option.some.inj h ▸ hdetails _
    | isDirectory => exact Option.some.inj h ▸ hdetails _
  | noBase given => exact Option.some.inj h ▸ hplain _
  | noApi path => exact Option.some.inj h ▸ hplain _
  | undecodable e => cases h
  | value message => cases h
  | _ => exact Option.some.inj h ▸ hfailed _

theorem run_generate (hp : parse words = .ok o) (hl : o.logFile = none)
    (hc : o.command = .generate r) : run stamp words s =
      match Generation.run none r s with
      | (.ok g, s') => (.ok ⟨0, generateOutput s'.cwd g, console o.verbose s'.entries⟩, s')
      | (.error f, s') =>
        match generateFailure? f with
        | some last => (.ok ⟨1, "", console o.verbose s'.entries ++ last⟩, s')
        | none => (.error f, s') := by
  unfold run
  rw [hp]
  change execute stamp o s = _
  unfold execute
  rw [hl, hc]
  change ((attempt (output (.generate r)) : Run Failure _) >>= _) s = _
  rw [bind_ok attempt_apply]
  rcases hrun : Generation.run none r s with ⟨f | g, s'⟩
  · have houtput : output (.generate r) s = (.error f, s') := bind_error hrun
    rw [houtput, bind_ok get_apply]
    simp only [failure?]
    cases generateFailure? f <;> rfl
  · have houtput : output (.generate r) s = (.ok (generateOutput s'.cwd g), s') := bind_ok hrun
    rw [houtput, bind_ok get_apply]
    rfl

/-- A directory with a world whose manifest is no text. -/
def muddledWorkspace : Session where
  cwd := ["w"]
  tree := ⟨[(["w"], .directory), (["w", "Cargo.toml"], .file [0xFF]), (["w", "api"], .directory),
    (["w", "api", "a.wit"], .file (Utf8.encode "world a".toList))]⟩

end CommandLine

end WitCaller
