import WitCaller.Proofs.DraftOutcome
import WitCaller.Proofs.Filling

/-!
Dry runs. Until the source of the library is made, a run only reports, and whether it is a dry one
makes no difference. So a dry run fails exactly as the run itself does before it writes, and what it
returns is what the run goes on to write. Nothing that is done afterwards touches the library again.
-/

namespace WitCaller
open Steps Run Session FileTree

theorem Sink.length_line_pos {k : Sink} {e : Entry} : 0 < (k.line e).length := by
  refine List.length_pos_iff.2 fun hnil => ?_
  have hdecoded : Utf8.decode (k.line e) = .ok (s!"{k.stamp} {e.line}\n").toList :=
    Utf8.decode_encode _
  rw [hnil] at hdecoded
  have hempty : [] = (s!"{k.stamp} {e.line}\n").toList := Except.ok.inj hdecoded
  rw [String.toList_append] at hempty
  exact absurd (List.append_eq_nil_iff.1 hempty.symm).2 (by decide)

namespace Session
variable {s s' : Session} {p : Place} {b : Bytes}

/-- Nothing was done but report. -/
def OnlyReports (s s' : Session) : Prop :=
  ∃ es : List Entry, s' = es.foldl (fun s e => s.report e) s

instance : Frame OnlyReports where
  refl _ := ⟨[], rfl⟩
  trans := by
    rintro s s₁ s₂ ⟨es, rfl⟩ ⟨es', rfl⟩
    exact ⟨es ++ es', (List.foldl_append ..).symm⟩
  report _ e := ⟨[e], rfl⟩

theorem OnlyReports.cwd (h : s.OnlyReports s') : s'.cwd = s.cwd := by
  obtain ⟨es, rfl⟩ := h
  induction es generalizing s with
  | nil => rfl
  | cons e es ih => exact ih

theorem OnlyReports.sink (h : s.OnlyReports s') : s'.sink = s.sink := by
  obtain ⟨es, rfl⟩ := h
  induction es generalizing s with
  | nil => rfl
  | cons e es ih => exact ih

/-- Reports that go to no file leave the files alone. -/
theorem OnlyReports.tree (h : s.OnlyReports s') (hk : s.sink = none) : s'.tree = s.tree := by
  obtain ⟨es, rfl⟩ := h
  induction es generalizing s with
  | nil => rfl
  | cons e es ih =>
    rw [List.foldl_cons, ih (s := s.report e) hk, tree_report hk]

/-- A report goes to the end of the file for reports. -/
theorem file_report {k : Sink} {e : Entry} (hk : s.sink = some k)
    (hf : s.tree.get? k.place = some (.file b)) :
    (s.report e).tree.get? k.place = some (.file (b ++ k.line e)) := by
  have ht : (s.report e).tree = k.append e s.tree := by
    rw [report, hk]
    rfl
  have hne : k.place ≠ [] := by
    intro he
    rw [he] at hf
    cases hf
  rw [ht, Sink.append, hf]
  exact (FileTree.get?_put hne).trans (if_pos rfl)

theorem OnlyReports.file {k : Sink} (h : s.OnlyReports s') (hk : s.sink = some k)
    (hf : s.tree.get? k.place = some (.file b)) :
    ∃ b', s'.tree.get? k.place = some (.file (b ++ b')) := by
  obtain ⟨es, rfl⟩ := h
  induction es generalizing s b with
  | nil => exact ⟨[], by rwa [List.append_nil]⟩
  | cons e es ih =>
    obtain ⟨b', hb'⟩ := ih (s := s.report e) hk (file_report hk hf)
    exact ⟨k.line e ++ b', by rwa [← List.append_assoc]⟩

end Session

namespace Generation
variable {config : Option Config} {r : Request} {s s' : Session} {g : Generation} {d : Draft}

/-- The place of the directory for the source of the crate of a run. -/
def sourcePlace (cwd : Place) (r : Request) (c : Config) : Place :=
  (((Path.ofString r.base).resolve cwd / c.crateName / "src").resolve cwd).parts

/-- A written draft has the library in its file, unless that was cleared for the copies. -/
theorem library_of_finish (hb : d.base.anchor ≠ .relative)
    (hne : ¬ FileTree.target s.cwd (d.crate.staging d.base) <+:
      FileTree.target s.cwd (d.crate.sourceDirectory d.base))
    (hk : s.ReportsAside (d.crate.libraryFile d.base)) (h : finish d s = (.ok g, s')) :
    s'.tree.get? (FileTree.target s.cwd (d.crate.libraryFile d.base)) =
      some (.file (Utf8.encode d.source.toList)) := by
  obtain ⟨s₁, template, s₂, staged, s₃, _, s₄, _, hprepare, hload, hfill, hmember, hprojects, -⟩ :=
    finish_returns h
  have hbefore : s.Grows Aside s₂ :=
    ((Crate.grows_prepare hb).at hprepare).trans (Templates.keeps_loadManifest.at hload)
  have hheld : Crate.Holds s₃ (FileTree.target s₂.cwd (d.crate.libraryFile d.base))
      (Utf8.encode d.source.toList) := by
    have hquiet : s₂.ReportsAside (d.crate.libraryFile d.base) := hk.congr hbefore.cwd hbefore.sink
    have hfilled := Crate.library_of_fill hb (by rw [hbefore.cwd]; exact hne) (by exact hquiet) hfill
    exact hfilled
  -- What follows writes manifests only, and the library is called otherwise.
  have hother : ¬ AtManifest (FileTree.target s₂.cwd (d.crate.libraryFile d.base)) := by
    rw [Crate.target_libraryFile, AtManifest, List.getLast?_concat]
    intro hm
    exact absurd (Option.some.inj hm) (by decide)
  rw [← hbefore.cwd]
  exact (hheld.grows (rewrites_register hmember hprojects).grows hother).1

theorem onlyReports_run (hd : r.dryRun = true) : s.OnlyReports (run config r s).2 := by
  unfold run
  refine frame_bind (keeps_draft s) fun d s₁ _ => ?_
  rw [if_pos hd]
  exact (Keeps.report.bind fun _ => Keeps.pure) s₁

/-- A dry run that reports to a file makes that longer. -/
theorem file_of_dryRun {k : Sink} {b : Bytes} (hd : r.dryRun = true) (hk : s.sink = some k)
    (hf : s.tree.get? k.place = some (.file b)) (h : run config r s = (.ok g, s')) :
    ∃ b', s'.tree.get? k.place = some (.file b') ∧ b.length < b'.length := by
  unfold run at h
  obtain ⟨d, s₁, hdraft, hrest⟩ := bind_eq_ok_iff.1 h
  have hreports : s.OnlyReports s₁ := keeps_draft.at hdraft
  obtain ⟨b₁, hf₁⟩ := hreports.file hk hf
  rw [if_pos hd] at hrest
  obtain ⟨_, s₂, hnote, hlast⟩ := bind_eq_ok_iff.1 hrest
  cases hlast
  cases hnote
  refine ⟨_, file_report (hreports.sink.trans hk) hf₁, ?_⟩
  rw [List.length_append, List.length_append, Nat.add_assoc]
  exact Nat.lt_add_of_pos_right (Nat.add_pos_right _ Sink.length_line_pos)

/-- A run that fails to make a draft fails with that, whether it is a dry one or not. -/
theorem run_of_draft_error {e : Failure} (h : draft config r s = (.error e, s')) (b : Bool) :
    run config { r with dryRun := b } s = (.error e, s') := bind_error h

theorem dryRun_of_draft (h : draft config r s = (.ok d, s')) :
    (run config { r with dryRun := true } s).1 = .ok { ofDraft d with dryRun := true } := by
  unfold run
  have h' : draft config { r with dryRun := true } s = (.ok d, s') := h
  rw [bind_ok h']
  rfl

theorem run_of_draft (h : draft config r s = (.ok d, s')) :
    run config { r with dryRun := false } s = finish d s' := by
  unfold run
  have h' : draft config { r with dryRun := false } s = (.ok d, s') := h
  exact bind_ok h'

/-- The library of a draft ends up in its file, unless the directory for copies contains that of the
source. -/
theorem library_of_draft {s₁ : Session} {c : Config} (hc : s.settings config (baseOf s r) = .ok c)
    (hdraft : draft config r s = (.ok d, s₁)) (hne : ¬ stagingPlace s.cwd r c <+: sourcePlace s.cwd r c)
    (hk : s.ReportsAside (d.crate.libraryFile d.base)) (hfinish : finish d s₁ = (.ok g, s')) :
    s'.tree.get? (FileTree.target s.cwd (d.crate.libraryFile d.base)) =
      some (.file (Utf8.encode d.source.toList)) := by
  have hreports : s.OnlyReports s₁ := keeps_draft.at hdraft
  obtain ⟨c', hc', hbase, hname, hwit, -⟩ := settings_of_draft hdraft
  obtain rfl : c' = c := Except.ok.inj (hc'.symm.trans hc)
  have hb : d.base.anchor ≠ .relative := by
    rw [hbase]
    exact nofun
  have hin (name : String) : (d.crate.directory d.base / name).anchor ≠ .relative :=
    Crate.anchored_append (Crate.anchored_append hb)
  have hstaging : FileTree.target s₁.cwd (d.crate.staging d.base) = stagingPlace s.cwd r c' := by
    rw [hreports.cwd, Crate.staging, target_eq_resolve (hin _), Crate.directory, hname, hwit, hbase]
    rfl
  have hsource :
      FileTree.target s₁.cwd (d.crate.sourceDirectory d.base) = sourcePlace s.cwd r c' := by
    rw [hreports.cwd, Crate.sourceDirectory, target_eq_resolve (hin _), Crate.directory, hname, hbase]
    rfl
  have hk₁ : s₁.ReportsAside (d.crate.libraryFile d.base) := hk.congr hreports.cwd hreports.sink
  have hlibrary := library_of_finish hb (by rwa [hstaging, hsource]) hk₁ hfinish
  rw [hreports.cwd] at hlibrary
  exact hlibrary

end Generation

end WitCaller
