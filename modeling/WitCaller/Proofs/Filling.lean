import WitCaller.Proofs.Manifest.Rewriting
import WitCaller.Proofs.Staging

/-!
What is in a crate once it is filled. Its two files have the bytes that were written, since making room
for the copies of the interface files and making these copies pass by other files.
-/

namespace WitCaller
open Steps Run Session FileTree

/-- The session after new bytes were written to a file. -/
theorem Run.writeText_returns {s s' : Session} {q : Path} {text : String}
    (h : writeText q text s = (.ok (), s')) : FileTree.target s.cwd q ≠ [] ∧
      s' = { s with tree := s.tree.put (FileTree.target s.cwd q) (.file (Utf8.encode text.toList)) } := by
  unfold writeText writeBytes at h
  rw [change_apply] at h
  split at h
  · next t hw =>
    cases h
    obtain ⟨place, hl, hn, rfl⟩ := write_eq_ok hw
    obtain rfl := locate_eq_ok hl
    refine ⟨?_, rfl⟩
    intro hroot
    rw [hroot] at hn
    exact hn rfl
  · cases h

namespace Crate
variable {s s' : Session} {p staging : Place} {b : Bytes} {api target : Path}

/-- Clearing a directory keeps a file that does not lie in it. -/
theorem Cleared.file (h : Cleared staging s s') (hp : ¬ staging <+: p.dropLast)
    (hk : ∀ k, s.sink = some k → k.place ≠ p) (hf : s.tree.get? p = some (.file b)) :
    s'.tree.get? p = some (.file b) := by
  rcases h with rfl | ⟨s₁, hr, hd, hrm⟩
  · exact hf
  · have hopen : ¬ s.Open (fun _ => False) p := by
      rintro (hw | ⟨k, hs, hkp⟩)
      · exact hw
      · exact hk k hs hkp
    have hf₁ := (hr.grows.file_iff hopen).2 hf
    have hne : p ≠ [] := by
      rintro rfl
      cases hf
    rw [hrm.tree p hne, if_neg, hf₁]
    intro hpre
    -- The directory is no file, so the file would lie in it.
    rw [← List.dropLast_concat_getLast hne, List.prefix_concat_iff,
      List.dropLast_concat_getLast hne] at hpre
    rcases hpre with he | hpre
    · rw [he, hf₁] at hd
      cases hd
    · exact hp hpre

/-- A frame that allows each copy allows all. -/
theorem keeps_copyAll {R : Session → Session → Prop} [Frame R] {paths : List Path}
    (hcopy : ∀ source ∈ paths, ∀ bytes,
      Keeps R (writeBytes ⟨target.anchor, target.parts ++ [source.name]⟩ bytes)) :
    Keeps R (copyAll target paths) := by
  induction paths with
  | nil => exact .pure
  | cons source rest ih =>
    obtain ⟨hsource, hrest⟩ := List.forall_mem_cons.1 hcopy
    exact Keeps.readBytes.bind fun bytes => (hsource bytes).bind fun _ => Keeps.report.bind fun _ =>
      (ih hrest).bind fun _ => .pure

/-- A frame that allows each step of staging, with copies of interface files only, allows staging. -/
theorem keeps_stage {R : Session → Session → Prop} [Frame R] (hremove : Keeps R (removeDirectory target))
    (hmake : Keeps R (makeDirectories target false))
    (hcopy : ∀ name, IsInterfaceName name → ∀ bytes,
      Keeps R (writeBytes ⟨target.anchor, target.parts ++ [name]⟩ bytes)) :
    Keeps R (stage api target) := by
  have hcopies : Keeps R (World.filesIn api >>= copyAll target) := by
    intro s
    refine frame_bind (World.keeps_filesIn s) fun files s₁ hfiles => ?_
    obtain ⟨directory, -, -, hmem⟩ := World.mem_filesIn hfiles
    refine keeps_copyAll (fun q hq bytes => ?_) s₁
    obtain ⟨name, _, rfl, hi⟩ := (hmem q).1 hq
    simpa [Path.name] using hcopy name hi.1 bytes
  have hrest : Keeps R (makeDirectories target false >>= fun _ => World.filesIn api >>= copyAll target) :=
    hmake.bind fun _ => hcopies
  refine Keeps.look.bind fun found => ?_
  split
  · exact Keeps.report.bind fun _ => hremove.bind fun _ => hrest
  · exact hrest

/-- Copies are written where interface files may stand, and nowhere else. -/
theorem grows_copyAll {paths : List Path} (ht : target.anchor ≠ .relative)
    (hpaths : ∀ p ∈ paths, IsInterfaceName p.name) :
    Keeps (Grows fun p => ¬ Aside p) (copyAll target paths) := by
  refine keeps_copyAll fun source hsource bytes _ => grows_write ht ?_
  rw [Path.normalize_concat (ne_parent_of_isInterfaceName (hpaths source hsource))]
  exact not_aside_concat (hpaths source hsource)

/-- Staging clears the directory for the copies, and after that only new things come. -/
theorem stage_grows {staged : List Path} (ht : target.anchor ≠ .relative)
    (h : stage api target s = (.ok staged, s')) :
    ∃ s₁, Cleared (FileTree.target s.cwd target) s s₁ ∧ s₁.Grows (fun p => ¬ Aside p) s' := by
  obtain ⟨s₁, s₂, s₃, files, hclear, hmake, hfiles, hcopy⟩ := stage_cleared h
  obtain ⟨rfl, -⟩ := World.filesIn_returns hfiles
  have hmade : s₁.Grows (fun p => ¬ Aside p) s₃ := (grows_makeDirectories ht).at hmake
  have hnames : ∀ q ∈ files, IsInterfaceName q.name := by
    obtain ⟨directory, -, -, hmem⟩ := World.mem_filesIn hfiles
    intro q hq
    obtain ⟨name, bytes, rfl, hi⟩ := (hmem q).1 hq
    simpa [Path.name] using hi.1
  exact ⟨s₁, hclear, hmade.trans ((grows_copyAll ht hnames).at hcopy)⟩

/-- That a file is there with these bytes, and reports go elsewhere. -/
def Holds (s : Session) (p : Place) (b : Bytes) : Prop :=
  s.tree.get? p = some (.file b) ∧ ∀ k, s.sink = some k → k.place ≠ p

theorem Holds.grows {W : Place → Prop} (h : Holds s p b) (hg : s.Grows W s') (hw : ¬ W p) :
    Holds s' p b := by
  have hopen : ¬ s.Open W p := by
    rintro (hp | ⟨k, hs, hkp⟩)
    · exact hw hp
    · exact h.2 k hs hkp
  exact ⟨(hg.file_iff hopen).2 h.1, fun k hs => h.2 k (hg.sink ▸ hs)⟩

/-- Staging keeps a file that is no interface file and does not lie in the directory for copies. -/
theorem Holds.stage {staged : List Path} (h : Holds s p b) (ht : target.anchor ≠ .relative)
    (ha : Aside p) (hp : ¬ FileTree.target s.cwd target <+: p.dropLast)
    (hs : stage api target s = (.ok staged, s')) : Holds s' p b := by
  obtain ⟨s₁, hclear, hg⟩ := stage_grows ht hs
  have hclear' : Holds s₁ p b := ⟨hclear.file hp h.2 h.1, fun k hs => h.2 k (hclear.sink hs)⟩
  exact hclear'.grows hg (not_not_intro ha)

theorem holds_writeText {text : String} {q : Path} (h : writeText q text s = (.ok (), s'))
    (hk : s.ReportsAside q) : Holds s' (FileTree.target s.cwd q) (Utf8.encode text.toList) := by
  obtain ⟨hne, rfl⟩ := writeText_returns h
  exact ⟨by rw [get?_put hne, if_pos rfl], hk⟩

theorem Holds.writeText {text : String} {q : Path} (hp : Holds s p b)
    (hq : FileTree.target s.cwd q ≠ p) (h : writeText q text s = (.ok (), s')) : Holds s' p b := by
  obtain ⟨hne, rfl⟩ := writeText_returns h
  exact ⟨by rw [get?_put hne, if_neg hq, hp.1], hp.2⟩

section
variable {crate : Crate} {base : Path} {source : String} {staged : List Path} {cwd : Place}

theorem target_manifest : FileTree.target cwd (crate.directory base / "Cargo.toml") =
    FileTree.target cwd (crate.directory base) ++ ["Cargo.toml"] :=
  target_concat (a := (crate.directory base).anchor) (by decide)

theorem target_libraryFile : FileTree.target cwd (crate.libraryFile base) =
    FileTree.target cwd (crate.sourceDirectory base) ++ ["lib.rs"] :=
  target_concat (a := (crate.sourceDirectory base).anchor) (by decide)

/-- A filled crate has its manifest, unless the directory for the copies contains that of the crate. -/
theorem manifest_of_fill (hb : base.anchor ≠ .relative)
    (hne : ¬ FileTree.target s.cwd (crate.staging base) <+: FileTree.target s.cwd (crate.directory base))
    (hk : s.ReportsAside (crate.directory base / "Cargo.toml"))
    (h : crate.fill base api source s = (.ok staged, s')) :
    ∃ template, crate.manifestTemplate = .ok template ∧
      Holds s' (FileTree.target s.cwd (crate.directory base / "Cargo.toml"))
        (Utf8.encode (Library.manifest template crate.name).toList) := by
  obtain ⟨template, s₁, s₂, s₃, ht, hmanifest, hnote, hlibrary, hstage⟩ := fill_returns h
  have hg : s₁.Grows (fun _ => False) s₂ := Keeps.report.at hnote
  have hcwd : s₂.cwd = s.cwd := by
    obtain ⟨-, rfl⟩ := writeText_returns hmanifest
    exact hg.cwd
  refine ⟨template, ht, ?_⟩
  have hheld := (holds_writeText hmanifest hk).grows hg id
  rw [target_manifest] at hheld ⊢
  have hother : FileTree.target s₂.cwd (crate.libraryFile base) ≠
      FileTree.target s.cwd (crate.directory base) ++ ["Cargo.toml"] := by
    rw [target_libraryFile]
    intro he
    exact absurd (List.append_inj' he rfl).2 (by decide)
  have hcwd₃ : s₃.cwd = s.cwd := by
    obtain ⟨-, rfl⟩ := writeText_returns hlibrary
    exact hcwd
  refine (hheld.writeText hother hlibrary).stage (anchored_append (anchored_append hb))
    (aside_concat (by decide)) ?_ hstage
  rw [List.dropLast_concat, hcwd₃]
  exact hne

/-- A filled crate has its library, unless the directory for the copies contains that of the source. -/
theorem library_of_fill (hb : base.anchor ≠ .relative)
    (hne : ¬ FileTree.target s.cwd (crate.staging base) <+:
      FileTree.target s.cwd (crate.sourceDirectory base))
    (hk : s.ReportsAside (crate.libraryFile base))
    (h : crate.fill base api source s = (.ok staged, s')) :
    Holds s' (FileTree.target s.cwd (crate.libraryFile base)) (Utf8.encode source.toList) := by
  obtain ⟨template, s₁, s₂, s₃, -, hmanifest, hnote, hlibrary, hstage⟩ := fill_returns h
  have hg : s₁.Grows (fun _ => False) s₂ := Keeps.report.at hnote
  obtain ⟨-, rfl⟩ := writeText_returns hmanifest
  have hcwd : s₂.cwd = s.cwd := hg.cwd
  have hsink : s₂.sink = s.sink := hg.sink
  have hheld := holds_writeText hlibrary (hk.congr hcwd hsink)
  have hcwd₃ : s₃.cwd = s.cwd := by
    obtain ⟨-, rfl⟩ := writeText_returns hlibrary
    exact hcwd
  rw [hcwd, target_libraryFile] at hheld
  rw [target_libraryFile]
  refine hheld.stage (anchored_append (anchored_append hb)) (aside_concat (by decide)) ?_ hstage
  rw [List.dropLast_concat, hcwd₃]
  exact hne

end

end Crate

end WitCaller
