import WitCaller.Proofs.Observing

/-!
Registrations one after the other. One that fails, or has nothing to do, leaves all files as they are;
one that changes a manifest leaves a document there and changes no other file. So a document stays one
however many registrations are attempted.
-/

namespace WitCaller

namespace FileTree

/-- That a file at a place holds a document, once its text is seen in some way. -/
def HasDocument (view : List Char → List Char) (t : FileTree) (place : Place) : Prop :=
  ∃ bytes text table, t.get? place = some (.file bytes) ∧ Utf8.decode bytes = .ok text ∧
    Toml.decode (view text) = some table

/-- The ways to see the text of a document: as it stands, and with its line ends made line feeds. -/
def views : List (List Char → List Char) := [id, Text.unifyLineEnds]

/-- A text that is a document as it stands is also one when its line ends are made line feeds. -/
theorem decode_of_mem_views {view : List Char → List Char} {text : List Char} {table : Toml.Table}
    (hv : view ∈ views) (h : Toml.decode text = some table) : Toml.decode (view text) = some table := by
  simp only [views, List.mem_cons, List.not_mem_nil, or_false] at hv
  rcases hv with rfl | rfl
  · exact h
  · exact Toml.decode_unifyLineEnds h

end FileTree

namespace Session
variable {s s' : Session} {place : Place}

/-- That a place receives no reports. -/
def Spares (s : Session) (place : Place) : Prop := ∀ k, s.sink = some k → k.place ≠ place

theorem Spares.congr (h : s.Spares place) (hs : s'.sink = s.sink) : s'.Spares place := by
  rw [Spares, hs]
  exact h

theorem Reported.get? (h : s.Reported s') (hp : s.Spares place) :
    s'.tree.get? place = s.tree.get? place := by
  rcases h.rewrites.tree place with he | ⟨ho, -⟩
  · exact he
  · rcases ho with hf | ⟨k, hk, hplace⟩
    · exact hf.elim
    · exact absurd hplace (hp k hk)

end Session

namespace Manifest
open Steps Run Session FileTree
variable {α : Type} {path : Path} {s s' : Session} {place : Place} {r : Except Failure Bool}

/-- That a run returns `true` exactly if it has written the manifest at a path, and that all it does
apart from this is to report. -/
def Writes (path : Path) (m : Run Failure Bool) : Prop := ∀ s r s', m s = (r, s') →
  (r ≠ .ok true ∧ s.Reported s') ∨ ∃ s₁ s₂ text, r = .ok true ∧ s.Reported s₁ ∧
    writeChecked path text s₁ = (.ok (), s₂) ∧ s₂.Reported s'

namespace Writes

theorem bind {m : Run Failure α} {f : α → Run Failure Bool} (hm : Keeps Reported m)
    (hf : ∀ a, Writes path (f a)) : Writes path (m >>= f) := by
  intro s r s' h
  rcases hs : m s with ⟨e | a, s₁⟩
  · rw [bind_error hs] at h
    cases h
    exact .inl ⟨by simp, hm.at hs⟩
  · rw [bind_ok hs] at h
    have h₁ : s.Reported s₁ := hm.at hs
    obtain ⟨hr, h₂⟩ | ⟨s₂, s₃, text, hr, h₂, hw, h₃⟩ := hf a s₁ r s' h
    · exact .inl ⟨hr, Frame.trans h₁ h₂⟩
    · exact .inr ⟨s₂, s₃, text, hr, Frame.trans h₁ h₂, hw, h₃⟩

theorem no {message : String} : Writes path (do info message; return false) := by
  intro s r s' h
  cases h
  exact .inl ⟨by simp, reported_report⟩

theorem yes {text : List Char} {m : Run Failure Bool}
    (hm : ∀ s, ∃ s', m s = (.ok true, s') ∧ s.Reported s') :
    Writes path (do writeChecked path text; m) := by
  intro s r s' h
  rcases hw : writeChecked path text s with ⟨e | ⟨⟩, s₁⟩
  · rw [bind_error hw] at h
    cases h
    obtain ⟨-, rfl⟩ | ⟨_, _, hr, -⟩ := writeChecked_cases hw
    · exact .inl ⟨by simp, Frame.refl s'⟩
    · cases hr
  · obtain ⟨s₂, h₂, hrep⟩ := hm s₁
    rw [bind_ok hw, h₂] at h
    cases h
    exact .inr ⟨s, s₁, text, rfl, Frame.refl s, hw, hrep⟩

end Writes

theorem writes_registerMember (base : Path) (member : String) :
    Writes (fileIn base) (registerMember base member) := by
  unfold registerMember
  refine .bind Keeps.report fun _ => .bind Keeps.look fun found => ?_
  split
  · exact .no
  · refine .bind Keeps.readText fun text => .bind Keeps.ofExcept fun table => ?_
    cases members? table with
    | none => exact .no
    | some members =>
      simp only
      split
      · exact .no
      · exact .bind Keeps.ofExcept fun text' => .yes fun s => ⟨_, rfl, reported_report⟩

theorem writes_addPathDependency (project : Path) (name target : String) :
    Writes (fileIn project) (addPathDependency project name target) := by
  unfold addPathDependency
  refine .bind Keeps.report fun _ => .bind keeps_readProject fun text =>
    .bind Keeps.ofExcept fun table => ?_
  cases dependencies? table with
  | none => exact .no
  | some dependencies =>
    simp only
    split
    · exact .no
    · refine .yes fun s => ?_
      split
      all_goals exact ⟨_, rfl, reported_report⟩

/-- A registration: of a member with a workspace, or of a dependency with a project. -/
inductive Call where
  | member (base : Path) (member : String)
  | dependency (project : Path) (name target : String)

namespace Call

def run : Call → Run Failure Bool
  | .member base crate => registerMember base crate
  | .dependency project name target => addPathDependency project name target

/-- The manifest that a registration names. -/
def manifest : Call → Path
  | .member base _ => fileIn base
  | .dependency project _ _ => fileIn project

/-- The session after some calls, each of which is made however those before it ended. -/
def after : List Call → Session → Session
  | [], s => s
  | c :: cs, s => after cs (c.run s).2

variable {c : Call}

theorem writes (c : Call) : Writes c.manifest c.run := by
  cases c with
  | member base crate => exact writes_registerMember base crate
  | dependency project name target => exact writes_addPathDependency project name target

theorem rewrites (c : Call) (s : Session) : s.Rewrites AtManifest (c.run s).2 := by
  cases c with
  | member => exact keeps_registerMember retouches_rewrites s
  | dependency => exact keeps_addPathDependency retouches_rewrites s

theorem atManifest (hl : s.tree.locate s.cwd c.manifest = .ok place) : AtManifest place := by
  rw [locate_eq_ok hl]
  cases c <;> exact atManifest_target

theorem unchanged (h : c.run s = (r, s')) (hr : r ≠ .ok true) (hp : s.Spares place) :
    s'.tree.get? place = s.tree.get? place := by
  obtain ⟨-, hrep⟩ | ⟨_, _, _, htrue, -⟩ := c.writes s r s' h
  · exact hrep.get? hp
  · exact absurd htrue hr

/-- What is written between reports is there afterwards, and nothing else has changed. -/
theorem get?_of_writeChecked {s₁ s₂ : Session} {text : List Char} (h₁ : s.Reported s₁)
    (hw : writeChecked path text s₁ = (.ok (), s₂)) (h₂ : s₂.Reported s') : ∃ named table,
    s.tree.locate s.cwd path = .ok named ∧ Toml.decode text = some table ∧
    ∀ place, s.Spares place → s'.tree.get? place =
      if named = place then some (.file (Utf8.encode text)) else s.tree.get? place := by
  obtain ⟨hr, -⟩ | ⟨table, named, -, hd, hl, hn, rfl⟩ := writeChecked_cases hw
  · exact absurd rfl hr
  have hne : named ≠ [] := by
    rintro rfl
    exact hn rfl
  refine ⟨named, table, h₁.rewrites.locate ▸ hl, hd, fun place hp => ?_⟩
  rw [h₂.get? (hp.congr h₁.rewrites.sink), get?_put hne, h₁.get? hp]

/-- The one place that a call changes that returns `true`. -/
theorem changed (h : c.run s = (.ok true, s')) : ∃ named text table,
    s.tree.locate s.cwd c.manifest = .ok named ∧ Toml.decode text = some table ∧
    ∀ place, s.Spares place → s'.tree.get? place =
      if named = place then some (.file (Utf8.encode text)) else s.tree.get? place := by
  obtain ⟨hr, -⟩ | ⟨s₁, s₂, text, -, h₁, hw, h₂⟩ := c.writes s _ s' h
  · exact absurd rfl hr
  obtain ⟨named, table, hchanged⟩ := get?_of_writeChecked h₁ hw h₂
  exact ⟨named, text, table, hchanged⟩

/-- The text that a registration makes of that of its manifest. -/
def edit : Call → List Char → Except EditFault (List Char)
  | .member _ crate, text => addMember crate text
  | .dependency _ name target, text => .ok (addDependency name target text)

theorem edits (h : c.run s = (.ok true, s')) : ∃ e e' text text' s₁,
    (s.report e).textAt c.manifest = .ok text ∧ c.edit text = .ok text' ∧
    writeChecked c.manifest text' (s.report e) = (.ok (), s₁) ∧ s' = s₁.report e' := by
  cases c with
  | member base crate =>
    obtain ⟨e, e', text, text', -, -, -, s₁, htext, hedit, -, -, -, -, hw, hs⟩ := registerMember_edits h
    exact ⟨e, e', text, text', s₁, htext, hedit, hw, hs⟩
  | dependency project name target =>
    obtain ⟨e, e', text, -, -, s₁, htext, -, -, -, hw, hs⟩ := addPathDependency_edits h
    exact ⟨e, e', text, _, s₁, htext, rfl, hw, hs⟩

/-- A call that returns `true` puts the text that it makes in the place of the one that it has read. -/
theorem edited (hk : s.ReportsAside c.manifest) (h : c.run s = (.ok true, s')) :
    ∃ named bytes raw text, s.tree.locate s.cwd c.manifest = .ok named ∧
      s.tree.get? named = some (.file bytes) ∧ Utf8.decode bytes = .ok raw ∧
      c.edit (Text.unifyLineEnds raw) = .ok text ∧ s'.tree.get? named = some (.file (Utf8.encode text)) := by
  obtain ⟨e, e', read, text, s₁, hread, hedit, hw, rfl⟩ := edits h
  rw [(reported_report (s := s)).textAt hk] at hread
  obtain ⟨named, bytes, hl, hf, raw, hraw, rfl⟩ := file_of_textAt hread
  obtain ⟨named', -, hl', -, hget⟩ := get?_of_writeChecked reported_report hw reported_report
  cases hl.symm.trans hl'
  have hspares : s.Spares named := fun k hsink => locate_eq_ok hl ▸ hk k hsink
  exact ⟨named, bytes, raw, text, hl, hf, hraw, hedit, (hget named hspares).trans (if_pos rfl)⟩

theorem keeps_document {view : List Char → List Char} (hv : view ∈ views) (hp : s.Spares place)
    (hd : s.tree.HasDocument view place) : (c.run s).2.tree.HasDocument view place := by
  rcases h : c.run s with ⟨r, s'⟩
  by_cases hr : r = .ok true
  · subst hr
    obtain ⟨named, text, table, -, htext, hget⟩ := changed h
    by_cases hn : named = place
    · refine ⟨Utf8.encode text, text, table, ?_, Utf8.decode_encode text, decode_of_mem_views hv htext⟩
      rw [hget place hp, if_pos hn]
    · obtain ⟨bytes, text', table', hf, hdecode⟩ := hd
      refine ⟨bytes, text', table', ?_, hdecode⟩
      rw [hget place hp, if_neg hn, hf]
  · obtain ⟨bytes, text, table, hf, hdecode⟩ := hd
    exact ⟨bytes, text, table, (unchanged h hr hp).trans hf, hdecode⟩

theorem sink_after (calls : List Call) (s : Session) : (after calls s).sink = s.sink := by
  induction calls generalizing s with
  | nil => rfl
  | cons c cs ih => exact (ih _).trans (c.rewrites s).sink

theorem after_keeps_document {view : List Char → List Char} (hv : view ∈ views) (calls : List Call)
    (hp : s.Spares place) (hd : s.tree.HasDocument view place) :
    (after calls s).tree.HasDocument view place := by
  induction calls generalizing s with
  | nil => exact hd
  | cons c cs ih => exact ih (hp.congr (c.rewrites s).sink) (keeps_document hv hp hd)

end Call

end Manifest

end WitCaller
