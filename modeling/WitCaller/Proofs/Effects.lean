import WitCaller.Proofs.Places
import WitCaller.Proofs.Steps
import WitCaller.Session

/-!
What runs do to a session. `Rewrites` is all that reports and changes of existing files do,
`Grows` allows new files and directories as well; both are kept by sequences of runs.
-/

namespace WitCaller

namespace Session
variable {W : Place → Prop} {s s₁ s₂ s' : Session} {p : Place} {b : Bytes}

/-- Every way in the tree is made of directories, and the file for reports is there. -/
structure Sound (s : Session) : Prop where
  closed : s.tree.Closed
  logged : ∀ k, s.sink = some k → ∃ b, s.tree.get? k.place = some (.file b)

/-- Where a run may write: at places with a property, and its reports. -/
def Open (W : Place → Prop) (s : Session) (p : Place) : Prop :=
  W p ∨ ∃ k, s.sink = some k ∧ k.place = p

/-- The text of a file, as a run reads it. -/
def textAt (s : Session) (p : Path) : Except Failure (List Char) := do
  let bytes ← (s.tree.read s.cwd p).mapError .os
  let text ← (Utf8.decode bytes).mapError .undecodable
  return Text.unifyLineEnds text

/-- Some files have other bytes; all else is as it was. -/
structure Rewrites (W : Place → Prop) (s s' : Session) : Prop where
  cwd : s'.cwd = s.cwd
  sink : s'.sink = s.sink
  tree : ∀ p, s'.tree.get? p = s.tree.get? p ∨
    s.Open W p ∧ ∃ b b', s.tree.get? p = some (.file b) ∧ s'.tree.get? p = some (.file b')

/-- There may be new directories, and new bytes at some places; nothing is gone. -/
structure Grows (W : Place → Prop) (s s' : Session) : Prop where
  cwd : s'.cwd = s.cwd
  sink : s'.sink = s.sink
  sound : s.Sound → s'.Sound
  tree : ∀ p, s'.tree.get? p = s.tree.get? p ∨
    (s.tree.get? p = none ∧ s'.tree.get? p = some .directory) ∨
    (s.Open W p ∧ s.tree.get? p ≠ some .directory ∧ ∃ b, s'.tree.get? p = some (.file b))

theorem Rewrites.refl : s.Rewrites W s := ⟨rfl, rfl, fun _ => .inl rfl⟩

theorem Rewrites.trans (h₁ : s.Rewrites W s₁) (h₂ : s₁.Rewrites W s₂) : s.Rewrites W s₂ := by
  refine ⟨h₂.cwd.trans h₁.cwd, h₂.sink.trans h₁.sink, fun p => ?_⟩
  rcases h₂.tree p with he | ⟨ho, b, b', hb, hb'⟩
  · rw [he]
    exact h₁.tree p
  · rcases h₁.tree p with he₁ | ⟨ho₁, b₁, b₁', hb₁, -⟩
    · refine .inr ⟨?_, b, b', he₁ ▸ hb, hb'⟩
      rwa [Open, h₁.sink] at ho
    · exact .inr ⟨ho₁, b₁, b', hb₁, hb'⟩

theorem Rewrites.directory (h : s.Rewrites W s') :
    s'.tree.get? p = some .directory ↔ s.tree.get? p = some .directory := by
  rcases h.tree p with he | ⟨-, b, b', hb, hb'⟩
  · rw [he]
  · simp [hb, hb']

theorem Rewrites.isSome (h : s.Rewrites W s') : (s'.tree.get? p).isSome = (s.tree.get? p).isSome := by
  rcases h.tree p with he | ⟨-, b, b', hb, hb'⟩
  · rw [he]
  · simp [hb, hb']

theorem Rewrites.file (h : s.Rewrites W s') (hf : s.tree.get? p = some (.file b)) :
    ∃ b', s'.tree.get? p = some (.file b') := by
  rcases h.tree p with he | ⟨-, -, b', -, hb'⟩
  · exact ⟨b, he.trans hf⟩
  · exact ⟨b', hb'⟩

theorem Rewrites.sound (h : s.Rewrites W s') (hs : s.Sound) : s'.Sound := by
  constructor
  · intro p c hp
    have hc : (s.tree.get? p).isSome := by
      rw [← h.isSome, hp]
      rfl
    obtain ⟨c', hc'⟩ := Option.isSome_iff_exists.1 hc
    exact h.directory.2 (hs.closed p c' hc')
  · intro k hk
    obtain ⟨b, hb⟩ := hs.logged k (h.sink ▸ hk)
    exact h.file hb

theorem Rewrites.grows (h : s.Rewrites W s') : s.Grows W s' := by
  refine ⟨h.cwd, h.sink, h.sound, fun p => ?_⟩
  rcases h.tree p with he | ⟨ho, b, b', hb, hb'⟩
  · exact .inl he
  · exact .inr (.inr ⟨ho, by simp [hb], b', hb'⟩)

theorem Grows.refl : s.Grows W s := Rewrites.refl.grows

theorem Grows.trans (h₁ : s.Grows W s₁) (h₂ : s₁.Grows W s₂) : s.Grows W s₂ := by
  refine ⟨h₂.cwd.trans h₁.cwd, h₂.sink.trans h₁.sink, h₂.sound ∘ h₁.sound, fun p => ?_⟩
  have hopen : s₁.Open W p ↔ s.Open W p := by rw [Open, Open, h₁.sink]
  rcases h₂.tree p with he | ⟨hn, hd⟩ | ⟨ho, hn, hf⟩
  · rw [he]
    exact h₁.tree p
  · rcases h₁.tree p with he₁ | ⟨-, hd₁⟩ | ⟨-, -, b, hf₁⟩
    · exact .inr (.inl ⟨he₁ ▸ hn, hd⟩)
    · simp [hd₁] at hn
    · simp [hf₁] at hn
  · rcases h₁.tree p with he₁ | ⟨-, hd₁⟩ | ⟨ho₁, hn₁, -⟩
    · exact .inr (.inr ⟨hopen.1 ho, he₁ ▸ hn, hf⟩)
    · exact absurd hd₁ hn
    · exact .inr (.inr ⟨ho₁, hn₁, hf⟩)

/-- A file that is neither written nor reported to has the same bytes before and after. -/
theorem Grows.file_iff (h : s.Grows W s') (ho : ¬ s.Open W p) :
    s'.tree.get? p = some (.file b) ↔ s.tree.get? p = some (.file b) := by
  rcases h.tree p with he | ⟨hn, hd⟩ | ⟨ho', -, -⟩
  · rw [he]
  · simp [hn, hd]
  · exact absurd ho' ho

/-- New content at a place whose parent is a directory, and that is none itself. -/
theorem Grows.put {c : Content} (hp : p ≠ []) (hd : s.Sound → s.tree.get? p.dropLast = some .directory)
    (hc : (s.tree.get? p = none ∧ c = .directory) ∨
      (W p ∧ s.tree.get? p ≠ some .directory ∧ ∃ b, c = .file b)) :
    s.Grows W { s with tree := s.tree.put p c } := by
  have hn : s.tree.get? p ≠ some .directory := by
    rcases hc with ⟨hn, -⟩ | ⟨-, hn, -⟩
    · simp [hn]
    · exact hn
  refine ⟨rfl, rfl, fun hs => ⟨hs.closed.put hp (hd hs) hn, ?_⟩, fun q => ?_⟩
  · intro k hk
    obtain ⟨b, hb⟩ := hs.logged k hk
    rw [FileTree.get?_put hp]
    split
    · next he =>
      rcases hc with ⟨hn, -⟩ | ⟨-, -, hf⟩
      · simp [he, hb] at hn
      · obtain ⟨b', rfl⟩ := hf
        exact ⟨b', rfl⟩
    · exact ⟨b, hb⟩
  · rw [FileTree.get?_put hp]
    split
    · next he =>
      subst he
      rcases hc with ⟨hn, rfl⟩ | ⟨hw, hn, b, rfl⟩
      · exact .inr (.inl ⟨hn, rfl⟩)
      · exact .inr (.inr ⟨.inl hw, hn, b, rfl⟩)
    · exact .inl rfl

/-- New bytes for a file that is there. -/
theorem Rewrites.put (hf : s.tree.get? p = some (.file b)) (hw : W p) {bytes : Bytes} :
    s.Rewrites W { s with tree := s.tree.put p (.file bytes) } := by
  have hne : p ≠ [] := by
    rintro rfl
    cases hf
  refine ⟨rfl, rfl, fun q => ?_⟩
  rw [FileTree.get?_put hne]
  split
  · next he => exact .inr ⟨.inl (he ▸ hw), b, bytes, he ▸ hf, rfl⟩
  · exact .inl rfl

theorem get?_append {k : Sink} {e : Entry} {t : FileTree} : (k.append e t).get? p = t.get? p ∨
    k.place = p ∧ ∃ b b', t.get? p = some (.file b) ∧ (k.append e t).get? p = some (.file b') := by
  unfold Sink.append
  split
  · next b hb =>
    have hne : k.place ≠ [] := by
      intro he
      rw [he] at hb
      cases hb
    simp only [FileTree.get?_put hne]
    split
    · next he => exact .inr ⟨he, b, _, he ▸ hb, rfl⟩
    · exact .inl rfl
  · exact .inl rfl

/-- A report that goes to no file leaves the files alone. -/
theorem tree_report {e : Entry} (hk : s.sink = none) : (s.report e).tree = s.tree := by
  rw [report, hk]
  rfl

theorem rewrites_report {e : Entry} : s.Rewrites W (s.report e) := by
  refine ⟨rfl, rfl, fun p => ?_⟩
  cases hk : s.sink with
  | none => exact .inl (by rw [tree_report hk])
  | some k =>
    have ht : (s.report e).tree = k.append e s.tree := by
      simp only [report, hk]
      rfl
    rw [ht]
    rcases get?_append (k := k) (e := e) (t := s.tree) (p := p) with he | ⟨hp, hf⟩
    · exact .inl he
    · exact .inr ⟨.inr ⟨k, hk, hp⟩, hf⟩

end Session

/-- Relations between the sessions before and after, which reports obey and sequences keep. -/
class Frame (R : Session → Session → Prop) : Prop where
  refl : ∀ s, R s s
  trans : ∀ {s s₁ s₂}, R s s₁ → R s₁ s₂ → R s s₂
  report : ∀ s e, R s (s.report e)

instance {W : Place → Prop} : Frame (Session.Rewrites W) :=
  ⟨fun _ => .refl, .trans, fun _ _ => Session.rewrites_report⟩

instance {W : Place → Prop} : Frame (Session.Grows W) :=
  ⟨fun _ => .refl, .trans, fun _ _ => Session.rewrites_report.grows⟩

namespace Run
open Steps Session
variable {ε ε' α β : Type} {R : Session → Session → Prop} {W : Place → Prop} {s s' : Session}
  {p : Path} {again : Bool}

theorem look_apply {f : FileTree → Place → α} : (look f : Run ε α) s = (.ok (f s.tree s.cwd), s) := rfl

theorem get_apply : (get : Run ε Session) s = (.ok s, s) := rfl

theorem exists?_apply : (exists? p : Run ε Bool) s = (.ok (s.tree.exists? s.cwd p), s) := rfl

theorem isDirectory_apply : (isDirectory p : Run ε Bool) s = (.ok (s.tree.isDirectory s.cwd p), s) :=
  rfl

theorem isFile_apply : (isFile p : Run ε Bool) s = (.ok (s.tree.isFile s.cwd p), s) := rfl

theorem ofExcept_apply {f : ε' → ε} {x : Except ε' α} : ofExcept f x s = (x.mapError f, s) := by
  cases x <;> rfl

theorem ofExcept_eq_ok {f : ε' → ε} {x : Except ε' α} {a : α} :
    ofExcept f x s = (.ok a, s') ↔ x = .ok a ∧ s' = s := by
  rw [ofExcept_apply]
  cases x with
  | error e => exact ⟨nofun, nofun⟩
  | ok b =>
    constructor
    · intro h
      cases h
      exact ⟨rfl, rfl⟩
    · rintro ⟨h, rfl⟩
      cases h
      rfl

theorem attempt_apply {m : Run ε α} : (attempt m : Run ε' (Except ε α)) s = (.ok (m s).1, (m s).2) := rfl

theorem report_apply {e : Entry} : (report e : Run ε Unit) s = (.ok (), s.report e) := rfl

theorem readBytes_apply : readBytes p s = ((s.tree.read s.cwd p).mapError .os, s) :=
  (bind_ok look_apply).trans ofExcept_apply

theorem readBytes_eq_ok {bytes : Bytes} :
    readBytes p s = (.ok bytes, s') ↔ s.tree.read s.cwd p = .ok bytes ∧ s' = s := by
  have h : readBytes p s = ofExcept .os (s.tree.read s.cwd p) s := bind_ok look_apply
  rw [h]
  exact ofExcept_eq_ok

theorem list_apply : Run.list p s = ((s.tree.list s.cwd p).mapError .os, s) :=
  (bind_ok look_apply).trans ofExcept_apply

theorem list_eq_ok {names : List String} :
    Run.list p s = (.ok names, s') ↔ s.tree.list s.cwd p = .ok names ∧ s' = s := by
  have h : Run.list p s = ofExcept .os (s.tree.list s.cwd p) s := bind_ok look_apply
  rw [h]
  exact ofExcept_eq_ok

theorem readText_apply : readText p s = (s.textAt p, s) := by
  unfold readText textAt
  cases hb : (s.tree.read s.cwd p).mapError Failure.os with
  | error e => rw [bind_error (readBytes_apply.trans (by rw [hb]))]; rfl
  | ok bytes =>
    rw [bind_ok (readBytes_apply.trans (by rw [hb]))]
    cases hd : (Utf8.decode bytes).mapError Failure.undecodable with
    | error e => rw [bind_error (ofExcept_apply.trans (by rw [hd]))]; simp [bind, Except.bind, hd]
    | ok text => rw [bind_ok (ofExcept_apply.trans (by rw [hd]))]; simp [bind, Except.bind, hd]; rfl

/-- The sequence of two runs obeys a frame if both do, the second where the first ends. -/
theorem frame_bind [Frame R] {m : Run ε α} {f : α → Run ε β} (hm : R s (m s).2)
    (hf : ∀ a s₁, m s = (.ok a, s₁) → R s₁ (f a s₁).2) : R s ((m >>= f) s).2 := by
  rcases h : m s with ⟨e | a, s₁⟩
  · rw [bind_error h]
    rwa [h] at hm
  · rw [bind_ok h]
    rw [h] at hm
    exact Frame.trans hm (hf a s₁ h)

/-- Wherever a run starts and however it ends, it obeys a frame. -/
def Keeps (R : Session → Session → Prop) (m : Run ε α) : Prop := ∀ s, R s (m s).2

theorem Keeps.at {m : Run ε α} {o : Except ε α} (hm : Keeps R m) (h : m s = (o, s')) : R s s' := by
  have hs := hm s
  rwa [h] at hs

namespace Keeps
variable [Frame R] {m : Run ε α} {f : α → Run ε β}

theorem pure {a : α} : Keeps R (Pure.pure a : Run ε α) := fun s => Frame.refl s

theorem throw {e : ε} : Keeps R (MonadExcept.throw e : Run ε α) := fun s => Frame.refl s

theorem look {g : FileTree → Place → α} : Keeps R (Run.look g : Run ε α) := fun s => Frame.refl s

theorem get : Keeps R (MonadState.get : Run ε Session) := fun s => Frame.refl s

theorem ofExcept {g : ε' → ε} {x : Except ε' α} : Keeps R (Run.ofExcept g x) := by
  intro s
  rw [ofExcept_apply]
  exact Frame.refl s

theorem bind (hm : Keeps R m) (hf : ∀ a, Keeps R (f a)) : Keeps R (m >>= f) :=
  fun s => frame_bind (hm s) fun a s₁ _ => hf a s₁

omit [Frame R] in
theorem attempt (hm : Keeps R m) : Keeps R (Run.attempt m : Run ε' (Except ε α)) := fun s => hm s

theorem report {e : Entry} : Keeps R (Run.report e : Run ε Unit) := fun s => Frame.report s e

theorem reportAll {es : List Entry} : Keeps R (Run.reportAll es : Run ε Unit) := by
  induction es with
  | nil => exact pure
  | cons e es ih => exact report.bind fun _ => ih

theorem readBytes : Keeps R (Run.readBytes p) := by
  intro s
  rw [readBytes_apply]
  exact Frame.refl s

theorem readText : Keeps R (Run.readText p) := by
  intro s
  rw [readText_apply]
  exact Frame.refl s

theorem list : Keeps R (Run.list p) := by
  intro s
  rw [list_apply]
  exact Frame.refl s

theorem mapM {g : β → Run ε α} (hg : ∀ b, Keeps R (g b)) {l : List β} : Keeps R (l.mapM g) := by
  induction l with
  | nil =>
    rw [List.mapM_nil]
    exact pure
  | cons b l ih =>
    rw [List.mapM_cons]
    exact (hg b).bind fun _ => ih.bind fun _ => pure

theorem filterM {g : β → Run ε Bool} (hg : ∀ b, Keeps R (g b)) {l : List β} :
    Keeps R (l.filterM g) := by
  have key (acc : List β) : Keeps R (l.filterAuxM g acc) := by
    induction l generalizing acc with
    | nil => exact pure
    | cons b l ih => exact (hg b).bind fun _ => ih _
  exact (key []).bind fun _ => pure

end Keeps

end Run

end WitCaller
