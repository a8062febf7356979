import WitCaller.Generation
import WitCaller.Proofs.InterfaceFiles

/-!
Registering a crate changes manifests that are there, and nothing else.
-/

namespace WitCaller

/-- Whether a place is one for a manifest. -/
def AtManifest (p : Place) : Prop := p.getLast? = some "Cargo.toml"

theorem AtManifest.aside {p : Place} (h : AtManifest p) : Aside p := by
  intro name hn
  obtain rfl : name = "Cargo.toml" := Option.some.inj (hn.symm.trans h)
  decide

theorem Session.Rewrites.mono {W W' : Place → Prop} {s s' : Session} (h : s.Rewrites W s')
    (hw : ∀ p, W p → W' p) : s.Rewrites W' s' := by
  refine ⟨h.cwd, h.sink, fun p => ?_⟩
  rcases h.tree p with he | ⟨ho, hf⟩
  · exact .inl he
  · exact .inr ⟨ho.imp_left (hw p), hf⟩

namespace Manifest
open Steps Session Run FileTree
variable {base project : Path} {member name target : String} {s : Session}

theorem atManifest_target {directory : Path} {cwd : Place} :
    AtManifest (FileTree.target cwd (fileIn directory)) := by
  have he : fileIn directory = ⟨directory.anchor, directory.parts ++ ["Cargo.toml"]⟩ := rfl
  rw [he, target_concat (by decide)]
  exact List.getLast?_concat

/-- That a frame allows new bytes for the manifest of a directory, if there is one. -/
def Retouches (R : Session → Session → Prop) (directory : Path) : Prop :=
  ∀ {s : Session} {place : Place} {b bytes : Bytes},
    s.tree.locate s.cwd (fileIn directory) = .ok place → s.tree.get? place = some (.file b) →
      R s { s with tree := s.tree.put place (.file bytes) }

theorem retouches_rewrites {directory : Path} : Retouches (Rewrites AtManifest) directory :=
  fun hl hf => .put hf (locate_eq_ok hl ▸ atManifest_target)

section
variable {R : Session → Session → Prop} [Frame R]

theorem Retouches.writeChecked {directory : Path} {text text' : List Char}
    (hr : Retouches R directory) (h : s.textAt (fileIn directory) = .ok text) :
    R s (writeChecked (fileIn directory) text' s).2 := by
  obtain ⟨place, bytes, hl, hf, -⟩ := file_of_textAt h
  unfold Manifest.writeChecked
  cases Toml.decode text' with
  | some table =>
    change R s (writeBytes (fileIn directory) (Utf8.encode text') s).2
    unfold writeBytes
    rw [change_apply]
    split
    · next t ht =>
      obtain ⟨place', hl', -, rfl⟩ := write_eq_ok ht
      cases hl.symm.trans hl'
      exact hr hl hf
    · exact Frame.refl s
  | none => exact Frame.refl s

theorem keeps_registerMember (hr : Retouches R base) : Keeps R (registerMember base member) := by
  unfold registerMember
  refine Keeps.report.bind fun _ => Keeps.look.bind fun found => ?_
  split
  · exact Keeps.report.bind fun _ => .pure
  · intro s
    refine frame_bind (Keeps.readText s) fun text s₁ h₁ => ?_
    rw [readText_apply] at h₁
    obtain ⟨htext, rfl⟩ := Prod.mk.inj h₁
    refine frame_bind (Keeps.ofExcept _) fun table s₂ h₂ => ?_
    obtain ⟨-, rfl⟩ := ofExcept_eq_ok.1 h₂
    cases members? table with
    | none => exact (Keeps.report.bind fun _ => Keeps.pure) _
    | some members =>
      simp only
      split
      · exact (Keeps.report.bind fun _ => Keeps.pure) _
      · refine frame_bind (Keeps.ofExcept _) fun text' s₃ h₃ => ?_
        obtain ⟨-, rfl⟩ := ofExcept_eq_ok.1 h₃
        refine frame_bind (hr.writeChecked htext) fun _ s₄ _ => ?_
        exact (Keeps.report.bind fun _ => Keeps.pure) s₄

theorem readProject_returns {path : Path} {text : List Char} {s' : Session}
    (h : readProject path s = (.ok text, s')) : s.textAt path = .ok text ∧ s' = s := by
  unfold readProject at h
  rw [bind_ok attempt_apply, readText_apply] at h
  cases ht : s.textAt path with
  | ok cs =>
    rw [ht] at h
    cases h
    exact ⟨rfl, rfl⟩
  | error e =>
    rw [ht] at h
    cases e <;> cases h

theorem keeps_readProject {path : Path} : Keeps R (readProject path) := by
  refine (Keeps.attempt Keeps.readText).bind fun outcome => ?_
  cases outcome with
  | ok text => exact .pure
  | error e => cases e <;> exact .throw

theorem keeps_addPathDependency (hr : Retouches R project) :
    Keeps R (addPathDependency project name target) := by
  unfold addPathDependency
  refine Keeps.report.bind fun _ => ?_
  intro s
  refine frame_bind (R := R) (keeps_readProject s) fun text s₁ h₁ => ?_
  obtain ⟨htext, rfl⟩ := readProject_returns h₁
  refine frame_bind (Keeps.ofExcept _) fun table s₂ h₂ => ?_
  obtain ⟨-, rfl⟩ := ofExcept_eq_ok.1 h₂
  cases dependencies? table with
  | none => exact (Keeps.report.bind fun _ => Keeps.pure) _
  | some dependencies =>
    simp only
    split
    · exact (Keeps.report.bind fun _ => Keeps.pure) _
    · refine frame_bind (hr.writeChecked htext) fun _ s₃ _ => ?_
      split
      · exact (Keeps.report.bind fun _ => Keeps.pure) s₃
      · exact (Keeps.report.bind fun _ => Keeps.pure) s₃

end

end Manifest

namespace Generation
open Run Session Manifest
variable {crateDir base : Path} {crate : String} {projects : List Path}

theorem keeps_updateProjects {R : Session → Session → Prop} [Frame R]
    (hr : ∀ project ∈ projects, Retouches R project) :
    Keeps R (updateProjects crateDir crate projects) := by
  induction projects with
  | nil => exact .pure
  | cons project rest ih =>
    obtain ⟨hproject, hrest⟩ := List.forall_mem_cons.1 hr
    exact Keeps.get.bind fun _ => (keeps_addPathDependency hproject).bind fun _ =>
      (ih hrest).bind fun _ => .pure

/-- Registering a crate with the workspace and with projects rewrites manifests. -/
theorem rewrites_register {s s₁ s' : Session} {member : Bool} {changed : List Path}
    (hmember : registerMember base crate s = (.ok member, s₁))
    (hprojects : updateProjects crateDir crate projects s₁ = (.ok changed, s')) :
    s.Rewrites AtManifest s' :=
  ((keeps_registerMember retouches_rewrites).at hmember).trans
    ((keeps_updateProjects fun _ _ => retouches_rewrites).at hprojects)

end Generation

end WitCaller
