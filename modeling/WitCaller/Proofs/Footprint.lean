import WitCaller.Proofs.Repeatability

/-!
What a run of the generator can touch, wherever it ends: its crate, and the bytes of the manifests of
its base directory and its projects. The directories that lead to the crate are there before anything
is written, so none of them is made, and each step is followed from the working directory of the run,
which says where the paths of the projects lead.
-/

namespace WitCaller
open Steps Run Session FileTree

namespace Session
variable {cwd crate : Place} {V : Place → Prop}

/-- As `StaysIn`, for runs that work in a certain directory. -/
def StaysFrom (cwd crate : Place) (V : Place → Prop) (s s' : Session) : Prop :=
  s.cwd = cwd → StaysIn crate V s s'

instance : Frame (StaysFrom cwd crate V) where
  refl s _ := Frame.refl s
  trans h h' hc hw := by
    have hfirst := h hc hw
    exact hfirst.trans (h' (hfirst.cwd.trans hc) (hfirst.wayTo hw))
  report s e _ := Frame.report s e

end Session

theorem Run.Keeps.staysFrom {ε α : Type} {cwd crate : Place} {V : Place → Prop} {m : Run ε α}
    (hm : Keeps (StaysIn crate V) m) : Keeps (StaysFrom cwd crate V) m := fun s _ => hm s

theorem Manifest.retouches_staysFrom {cwd crate : Place} {V : Place → Prop} {directory : Path}
    (hv : V (FileTree.target cwd (fileIn directory))) :
    Retouches (StaysFrom cwd crate V) directory := by
  intro s place b bytes hl hf hc
  refine staysIn_rewrite hf ?_
  rwa [locate_eq_ok hl, hc]

namespace Generation
variable {config : Option Config} {r : Request} {s s₁ : Session} {c : Config} {d : Draft}
  {cwd place p : Place} {V : Place → Prop} {wit : List String}

/-- The places of the manifests that a run may register its crate in. -/
def ManifestOf (s : Session) (r : Request) (c : Config) (p : Place) : Prop :=
  ∃ directory ∈ baseOf s r :: projectsOf s.cwd r.projects c,
    p = FileTree.target s.cwd (Manifest.fileIn directory)

theorem keeps_finish (hlies : d.crate.LiesAt d.base place wit)
    (hv : ∀ directory ∈ d.base :: d.projects, V (FileTree.target cwd (Manifest.fileIn directory))) :
    Keeps (StaysFrom cwd place V) (finish d) := by
  obtain ⟨hbase, hprojects⟩ := List.forall_mem_cons.1 hv
  have hfill (template : Except Utf8Error (Option Template)) : Keeps (StaysFrom cwd place V)
      ({ d.crate with manifestTemplate := template }.fill d.base d.api d.source) :=
    hlies.withTemplate.staysIn_fill.staysFrom
  have hmember : Keeps (StaysFrom cwd place V) (Manifest.registerMember d.base d.crate.name) :=
    Manifest.keeps_registerMember (Manifest.retouches_staysFrom hbase)
  have hprojects : Keeps (StaysFrom cwd place V)
      (updateProjects (d.crate.directory d.base) d.crate.name d.projects) :=
    keeps_updateProjects fun project hp => Manifest.retouches_staysFrom (hprojects project hp)
  exact hlies.staysIn_prepare.staysFrom.bind fun _ => Templates.keeps_loadManifest.bind fun _ =>
    (hfill _).bind fun _ => hmember.bind fun _ => hprojects.bind fun _ => .pure

/-- Whatever comes of a draft, nothing but its crate and the manifests is touched. -/
theorem confined_of_draft (hdraft : draft config r s = (.ok d, s₁))
    (hc : s.settings config (baseOf s r) = .ok c) (hplaced : Placed c) :
    s.Confined (cratePlace s r c) (ManifestOf s r c) (run config r s).2 := by
  obtain ⟨c', hc', hbase, hname, hwit, hprojects⟩ := settings_of_draft hdraft
  obtain rfl : c' = c := Except.ok.inj (hc'.symm.trans hc)
  have hstart : StaysFrom s.cwd (cratePlace s r c') (ManifestOf s r c') s s₁ := keeps_draft.at hdraft
  have hrest : StaysFrom s.cwd (cratePlace s r c') (ManifestOf s r c') s₁ (run config r s).2 := by
    unfold run
    rw [bind_ok hdraft]
    split
    · exact Frame.report s₁ _
    · refine keeps_finish (hbase ▸ hplaced.lies hname hwit) (fun directory hd => ?_) s₁
      rw [hbase, hprojects] at hd
      exact ⟨directory, hd, rfl⟩
  exact Frame.trans hstart hrest rfl (wayTo_of_draft hdraft)

end Generation

end WitCaller
