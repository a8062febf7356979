import WitCaller.CommandLine.Execute
import WitCaller.Proofs.Repeatability

/-!
Failures of the generator that have no last message and are passed on. Most steps of a run have none:
with the built-in templates, only reading settings and registering a crate may end in one.
-/

namespace WitCaller
open Steps Run Session FileTree

/-- Whether a failure of the generator has no last message. -/
def Failure.PassedOn (f : Failure) : Prop := CommandLine.generateFailure? f = none

theorem Failure.not_passedOn_os {e : OsError} : ¬ (os e).PassedOn := by
  obtain ⟨kind, path⟩ := e
  cases kind <;> simp [PassedOn, CommandLine.generateFailure?]

/-- Whether an outcome is a failure that is passed on. -/
def PassesOn {α : Type} (x : Except Failure α) : Prop := ∃ f, x = .error f ∧ f.PassedOn

section
variable {α β : Type} {x : Except Failure α} {g : α → Except Failure β} {a : α} {f : Failure}

theorem passesOn_error : PassesOn (.error f : Except Failure α) ↔ f.PassedOn :=
  ⟨fun ⟨_, he, hp⟩ => Except.error.inj he ▸ hp, fun hp => ⟨f, rfl, hp⟩⟩

theorem not_passesOn_ok : ¬ PassesOn (.ok a) := by
  rintro ⟨f, hf, -⟩
  cases hf

theorem passesOn_bind :
    PassesOn (x >>= g) ↔ PassesOn x ∨ ∃ a, x = .ok a ∧ PassesOn (g a) := by
  unfold PassesOn
  constructor
  · rintro ⟨f, hf, hp⟩
    exact (bind_eq_error.1 hf).imp (fun hx => ⟨f, hx, hp⟩) fun ⟨a, hx, hg⟩ => ⟨a, hx, f, hg, hp⟩
  · rintro (⟨f, hx, hp⟩ | ⟨a, hx, f, hg, hp⟩)
    · exact ⟨f, bind_eq_error.2 (.inl hx), hp⟩
    · exact ⟨f, bind_eq_error.2 (.inr ⟨a, hx, hg⟩), hp⟩

theorem not_passesOn_bind (hx : ¬ PassesOn x) (hg : ∀ a, x = .ok a → ¬ PassesOn (g a)) :
    ¬ PassesOn (x >>= g) := by
  rw [passesOn_bind]
  rintro (h | ⟨a, ha, h⟩)
  · exact hx h
  · exact hg a ha h

/-- What fails with failures of one kind, of which none is passed on. -/
theorem not_passesOn_mapError {ε : Type} {x : Except ε α} {f : ε → Failure}
    (hf : ∀ e, ¬ (f e).PassedOn) : ¬ PassesOn (x.mapError f) := by
  cases x with
  | ok a => exact not_passesOn_ok
  | error e => exact fun h => hf e (passesOn_error.1 h)

end

namespace Run
variable {α β : Type} {m : Run Failure α} {g : α → Run Failure β} {s : Session} {a : α} {p : Path}
  {again : Bool} {bytes : Bytes}

theorem passesOn_step : PassesOn ((m >>= g) s).1 ↔
    PassesOn (m s).1 ∨ ∃ a s₁, m s = (.ok a, s₁) ∧ PassesOn (g a s₁).1 := by
  rcases h : m s with ⟨f | a, s₁⟩
  · rw [bind_error h]
    constructor
    · exact fun hf => .inl (passesOn_error.2 (passesOn_error.1 hf))
    · rintro (hf | ⟨_, _, he, -⟩)
      · exact passesOn_error.2 (passesOn_error.1 hf)
      · cases he
  · rw [bind_ok h]
    constructor
    · exact fun hg => .inr ⟨a, s₁, rfl, hg⟩
    · rintro (hf | ⟨_, _, he, hg⟩)
      · exact absurd hf not_passesOn_ok
      · cases he
        exact hg

/-- No failure of a run is passed on. -/
def Answers (m : Run Failure α) : Prop := ∀ s, ¬ PassesOn (m s).1

namespace Answers

theorem bind (hm : Answers m) (hg : ∀ a, Answers (g a)) : Answers (m >>= g) := by
  intro s h
  rcases passesOn_step.1 h with h | ⟨a, s₁, -, h⟩
  · exact hm s h
  · exact hg a s₁ h

theorem pure : Answers (Pure.pure a : Run Failure α) := fun _ => not_passesOn_ok

theorem report {e : Entry} : Answers (Run.report e : Run Failure Unit) := fun _ => not_passesOn_ok

theorem look {f : FileTree → Place → α} : Answers (Run.look f : Run Failure α) :=
  fun _ => not_passesOn_ok

theorem throw {f : Failure} (hf : ¬ f.PassedOn) : Answers (MonadExcept.throw f : Run Failure α) :=
  fun _ h => hf (passesOn_error.1 h)

theorem ofExcept {ε : Type} {f : ε → Failure} {x : Except ε α} (hx : ¬ PassesOn (x.mapError f)) :
    Answers (Run.ofExcept f x) := by
  intro s
  rwa [ofExcept_apply]

theorem ofExcept_os {x : Except OsError α} : Answers (Run.ofExcept .os x) :=
  ofExcept (not_passesOn_mapError fun _ => Failure.not_passedOn_os)

theorem readBytes : Answers (Run.readBytes p) := by
  intro s
  rw [readBytes_apply]
  exact not_passesOn_mapError fun _ => Failure.not_passedOn_os

theorem writeBytes : Answers (Run.writeBytes p bytes) := by
  intro s
  unfold Run.writeBytes
  rw [change_apply]
  split
  · exact not_passesOn_ok
  · exact fun h => Failure.not_passedOn_os (passesOn_error.1 h)

theorem makeDirectory : Answers (Run.makeDirectory p again) := by
  intro s
  rw [makeDirectory_apply]
  split
  · exact not_passesOn_ok
  · split
    · exact not_passesOn_ok
    · exact fun h => Failure.not_passedOn_os (passesOn_error.1 h)

theorem makeDirectories : Answers (Run.makeDirectories p again) := by
  have hos {e : OsError} : ¬ PassesOn (.error (.os e) : Except Failure Unit) :=
    fun h => Failure.not_passedOn_os (passesOn_error.1 h)
  have key {p : Path} {again : Bool} (habove : p.parts ≠ [] →
      Answers (Run.makeDirectories p.parent true >>= fun _ => Run.makeDirectory p again)) :
      Answers (Run.makeDirectories p again) := by
    intro s
    rw [makeDirectories_apply]
    split
    · exact not_passesOn_ok
    · split
      · split
        · exact hos
        · next hn => exact habove hn s
      · split
        · exact not_passesOn_ok
        · exact hos
  induction hn : p.parts.length generalizing p again with
  | zero => exact key fun hne => absurd (List.length_eq_zero_iff.1 hn) hne
  | succ n ih => exact key fun _ => (ih (by simp [Path.parent, hn])).bind fun _ => makeDirectory

theorem removeDirectory : Answers (Run.removeDirectory p) := by
  have hdrop {q : Place → Bool} : Answers (drop q : Run Failure Unit) := fun _ => not_passesOn_ok
  unfold Run.removeDirectory
  refine look.bind fun _ => ofExcept_os.bind fun place => look.bind fun content => ?_
  split
  · exact throw Failure.not_passedOn_os
  · exact throw Failure.not_passedOn_os
  · exact hdrop.bind fun _ => look.bind fun _ => ofExcept_os.bind fun _ => hdrop

end Answers

end Run

namespace Session
variable {s : Session} {p api base : Path} {e : Entry}

/-- Whether a path leads to a file that is no text. -/
def NoText (s : Session) (p : Path) : Prop := ∃ e, s.textAt p = .error (.undecodable e)

theorem noText_iff : s.NoText p ↔ ∃ bytes e,
    s.tree.read s.cwd p = .ok bytes ∧ Utf8.decode bytes = .error e := by
  unfold NoText textAt
  cases s.tree.read s.cwd p with
  | error e => simp [Except.mapError, bind, Except.bind]
  | ok bytes =>
    cases hd : Utf8.decode bytes with
    | error e => simp [Except.mapError, bind, Except.bind, hd]
    | ok cs => simp [Except.mapError, bind, Except.bind, hd, pure, Except.pure]

theorem noText_report (hk : s.sink = none) : (s.report e).NoText p ↔ s.NoText p := by
  rw [noText_iff, noText_iff, tree_report hk]
  rfl

theorem exists?_of_noText (h : s.NoText p) : s.tree.exists? s.cwd p = true := by
  obtain ⟨bytes, -, hread, -⟩ := noText_iff.1 h
  obtain ⟨place, hl, hf⟩ := read_eq_ok.1 hread
  simp [FileTree.exists?, stat?, hl, hf]

theorem passesOn_textAt : PassesOn (s.textAt p) ↔ s.NoText p := by
  constructor
  · rintro ⟨f, hf, hp⟩
    rcases bind_eq_error.1 hf with h | ⟨bytes, -, h⟩
    · exact absurd ⟨f, h, hp⟩ (not_passesOn_mapError fun _ => Failure.not_passedOn_os)
    · rcases bind_eq_error.1 h with h | ⟨cs, -, h⟩
      · cases hd : Utf8.decode bytes with
        | ok cs =>
          rw [hd] at h
          cases h
        | error e =>
          rw [hd] at h
          cases h
          exact ⟨e, hf⟩
      · cases h
  · rintro ⟨e, he⟩
    exact ⟨_, he, rfl⟩

/-- Whether the file for the settings of a run is no text, or holds a value that is none. -/
def BadSettings (s : Session) (base : Path) : Prop :=
  s.NoText (s.configFile base) ∨ ∃ text message, s.textAt (s.configFile base) = .ok text ∧
    text.all Text.isBlank = false ∧ Yaml.decode text = .error (.value message)

theorem passesOn_ofText {root : Path} {text : List Char} : PassesOn (Config.ofText root text) ↔
    text.all Text.isBlank = false ∧ ∃ message, Yaml.decode text = .error (.value message) := by
  unfold Config.ofText
  have hconfig (e : ConfigError) : ¬ (Failure.config e).PassedOn := nofun
  cases text.all Text.isBlank with
  | true => simpa using not_passesOn_mapError hconfig
  | false =>
    cases hy : Yaml.decode text with
    | ok v => simpa using not_passesOn_mapError hconfig
    | error e =>
      cases e with
      | malformed => simpa using fun h => hconfig _ (passesOn_error.1 h)
      | value message => exact iff_of_true (passesOn_error.2 rfl) ⟨rfl, message, rfl⟩

theorem passesOn_settings : PassesOn (s.settings none base) ↔ s.BadSettings base := by
  unfold BadSettings
  change PassesOn (if s.tree.exists? s.cwd (s.configFile base) = true then _ else _) ↔ _
  split
  · rw [passesOn_bind, passesOn_textAt]
    simp only [passesOn_ofText]
    grind
  · next hn =>
    refine iff_of_false not_passesOn_ok ?_
    rintro (h | ⟨text, _, ht, -⟩)
    · exact hn (exists?_of_noText h)
    · exact hn (exists?_of_textAt ht)

theorem not_passesOn_filesIn : ¬ PassesOn (s.filesIn api) :=
  not_passesOn_bind (not_passesOn_mapError fun _ => Failure.not_passedOn_os) fun _ _ => not_passesOn_ok

theorem not_passesOn_world : ¬ PassesOn (s.world api) := by
  unfold world
  split
  · refine not_passesOn_bind not_passesOn_filesIn fun files _ => ?_
    refine not_passesOn_bind ?_ fun _ _ => not_passesOn_ok
    unfold worldName
    split
    · exact not_passesOn_ok
    · exact fun h => nomatch passesOn_error.1 h
    · exact not_passesOn_ok
  · exact fun h => nomatch passesOn_error.1 h

end Session

section
variable {st : StubSettings} {s : Session} {base : Path} {r : Request} {c : Config} {e : Utf8Error}

theorem exists_of_mapM_error {ε α β : Type} {f : α → Except ε β} {l : List α} {e : ε}
    (h : l.mapM f = .error e) : ∃ a ∈ l, f a = .error e := by
  induction l with
  | nil => cases h
  | cons a l ih =>
    rw [List.mapM_cons] at h
    rcases bind_eq_error.1 h with ha | ⟨_, -, h⟩
    · exact ⟨a, List.mem_cons_self, ha⟩
    · rcases bind_eq_error.1 h with hl | ⟨_, -, h⟩
      · obtain ⟨a', ha', he⟩ := ih hl
        exact ⟨a', List.mem_cons_of_mem _ ha', he⟩
      · cases h

/-- Built-in templates are texts. -/
theorem StubPlan.code_ne_template (ht : st.templates = {}) {p : StubPlan} :
    p.code st ≠ .error (.template e) := by
  intro h
  unfold StubPlan.code at h
  rw [ht] at h
  split at h
  · rcases bind_eq_error.1 h with h | ⟨_, -, h⟩
    · cases h
    · rcases bind_eq_error.1 h with h | ⟨_, -, h⟩
      · cases hd : TypeExpr.defaultText p.result with
        | ok value =>
          rw [hd] at h
          cases h
        | error e =>
          rw [hd] at h
          cases h
      · cases h
  · cases h

theorem Library.templateError?_eq_none (ht : st.templates = {}) {i : Interface} :
    Library.templateError? st i = none := by
  unfold Library.templateError?
  split
  · next e ho =>
    unfold Library.outcomeOf at ho
    split at ho
    · cases ho
    · cases hstubs : i.stubs st with
      | ok stubs =>
        rw [hstubs] at ho
        cases ho
      | error e' =>
        rw [hstubs] at ho
        cases ho
        obtain ⟨sig, -, hsig⟩ := exists_of_mapM_error hstubs
        rw [Signature.stub, Logged.collect_bind fun _ =>
          Logged.oblivious_mk.bind fun _ => Logged.oblivious_pure] at hsig
        rcases bind_eq_error.1 hsig with h | ⟨p, -, h⟩
        · change ((sig.plan st.strict).collect.1.mapError StubError.type) = _ at h
          cases hp : (sig.plan st.strict).collect.1 with
          | ok p =>
            rw [hp] at h
            cases h
          | error e' =>
            rw [hp] at h
            cases h
        · rw [Logged.collect_bind fun _ => Logged.oblivious_pure] at h
          rcases bind_eq_error.1 h with h | ⟨_, -, h⟩
          · exact absurd h (StubPlan.code_ne_template ht)
          · cases h
  · rfl

/-- With the built-in templates, a draft that cannot be made has a failure with a message. -/
theorem Session.not_passesOn_draft (ht : c.templatesDir = none) : ¬ PassesOn (s.draft base r c) := by
  have hst : s.stubSettings c = .ok { timeout := c.timeout, strict := c.strict } := by
    rw [stubSettings, ht]
    rfl
  unfold Session.draft
  refine not_passesOn_bind not_passesOn_world fun _ _ => ?_
  refine not_passesOn_bind (hst ▸ not_passesOn_ok) fun st he => ?_
  cases hst.symm.trans he
  refine not_passesOn_bind not_passesOn_filesIn fun files _ => ?_
  refine not_passesOn_bind ?_ fun _ _ => not_passesOn_ok
  have hnone : (files.filterMap s.interfaceAt?).findSome? (Library.templateError?
      { timeout := c.timeout, strict := c.strict }) = none :=
    List.findSome?_eq_none_iff.2 fun _ _ => Library.templateError?_eq_none rfl
  rw [Library.collectAll, hnone]
  exact not_passesOn_ok

end

namespace Crate
variable {crate : Crate} {base api target : Path} {paths : List Path} {source : String}

theorem answers_copyAll : Answers (copyAll target paths) := by
  induction paths with
  | nil => exact .pure
  | cons path rest ih =>
    exact Answers.readBytes.bind fun _ => Answers.writeBytes.bind fun _ => Answers.report.bind fun _ =>
      ih.bind fun _ => .pure

theorem answers_stage : Answers (stage api target) := by
  have hfiles : Answers (World.filesIn api) := by
    intro s
    have hyields : Yields s (World.filesIn api) (s.filesIn api) := World.yields_filesIn
    obtain ⟨s', -, h⟩ := hyields s (Frame.refl s)
    rw [h]
    exact not_passesOn_filesIn
  have hrest :
      Answers (makeDirectories target false >>= fun _ => World.filesIn api >>= copyAll target) :=
    Answers.makeDirectories.bind fun _ => hfiles.bind fun _ => answers_copyAll
  unfold stage
  refine Answers.look.bind fun found => ?_
  split
  · exact Answers.report.bind fun _ => Answers.removeDirectory.bind fun _ => hrest
  · exact hrest

theorem answers_write (ht : crate.manifestTemplate = .ok none) :
    Answers (crate.write base api source) := by
  unfold write prepare fill
  rw [ht]
  refine (Answers.report.bind fun _ => Answers.makeDirectories).bind fun _ => ?_
  have htemplate : Answers (Run.ofExcept .undecodable (.ok none : Except Utf8Error (Option Template))) :=
    .ofExcept not_passesOn_ok
  refine htemplate.bind fun _ => Answers.writeBytes.bind fun _ => ?_
  exact Answers.report.bind fun _ => Answers.writeBytes.bind fun _ => answers_stage

end Crate

namespace Manifest
variable {α : Type} {base project path : Path} {member name target : String} {text : List Char}
  {s : Session} {g : List Char → Run Failure α}

theorem not_passesOn_load : ¬ PassesOn ((load path text).mapError id) := by
  unfold load
  cases Toml.decode text with
  | some table => exact not_passesOn_ok
  | none => exact fun h => nomatch passesOn_error.1 h

theorem answers_writeChecked : Answers (writeChecked path text) := by
  unfold writeChecked
  split
  · exact .writeBytes
  · exact .throw nofun

theorem info_apply {message : String} :
    info message s = (.ok (), s.report ⟨.info, .manifest, message⟩) := rfl

theorem answers_info {message : String} : Answers (do info message; return false) :=
  Answers.report.bind fun _ => .pure

/-- Registering with a workspace passes a failure on exactly if the manifest is no text. -/
theorem passesOn_registerMember (hk : s.sink = none) :
    PassesOn (registerMember base member s).1 ↔ s.NoText (fileIn base) := by
  unfold registerMember
  rw [bind_ok info_apply, bind_ok exists?_apply]
  cases hex : (s.report _).tree.exists? (s.report _).cwd (fileIn base) with
  | false =>
    refine iff_of_false (answers_info _) fun h => ?_
    cases hex.symm.trans (exists?_of_noText ((noText_report hk).2 h))
  | true =>
    simp only [Bool.not_true, Bool.false_eq_true, if_false]
    rw [passesOn_step, readText_apply, passesOn_textAt, noText_report hk]
    refine or_iff_left ?_
    rintro ⟨text, s₁, -, h⟩
    revert h
    refine Answers.bind (.ofExcept not_passesOn_load) (fun table => ?_) s₁
    cases members? table with
    | none => exact answers_info
    | some members =>
      simp only
      split
      · exact answers_info
      · refine (Answers.ofExcept (not_passesOn_mapError fun f => ?_)).bind fun _ =>
          answers_writeChecked.bind fun _ => Answers.report.bind fun _ => .pure
        rcases f with _ | _ | (_ | _) <;> exact nofun

theorem passesOn_readProject : PassesOn (readProject path s).1 ↔ s.NoText path := by
  unfold readProject
  rw [bind_ok attempt_apply, readText_apply, ← passesOn_textAt]
  cases ht : s.textAt path with
  | ok cs => exact iff_of_false not_passesOn_ok not_passesOn_ok
  | error e =>
    cases e with
    | os cause =>
      refine iff_of_false (fun h => nomatch passesOn_error.1 h) fun h => ?_
      exact Failure.not_passedOn_os (passesOn_error.1 h)
    | _ => exact passesOn_error.trans passesOn_error.symm

/-- Registering with a project passes a failure on exactly if the manifest is no text. -/
theorem passesOn_addPathDependency (hk : s.sink = none) :
    PassesOn (addPathDependency project name target s).1 ↔ s.NoText (fileIn project) := by
  unfold addPathDependency
  rw [bind_ok info_apply, passesOn_step, passesOn_readProject, noText_report hk]
  refine or_iff_left ?_
  rintro ⟨text, s₁, -, h⟩
  revert h
  refine Answers.bind (.ofExcept not_passesOn_load) (fun table => ?_) s₁
  cases dependencies? table with
  | none => exact answers_info
  | some dependencies =>
    simp only
    split
    · exact answers_info
    · refine answers_writeChecked.bind fun _ => ?_
      split
      all_goals exact Answers.report.bind fun _ => .pure

end Manifest

end WitCaller
