import WitCaller.Proofs.Associations
import WitCaller.Proofs.Manifest.Rewriting

/-!
Runs that only look at files and report. Reports change what is seen in the file for reports only, so
apart from that such a run has an outcome that depends on the session it starts from, and on nothing
that it reports on its way.
-/

namespace WitCaller

namespace FileTree
open Path (advance)
variable {t t' : FileTree} {p here cwd : Place} {names : List String} {path : Path}

theorem places_put {c : Content} (h : (t.get? p).isSome) (hp : p ≠ []) :
    (t.put p c).entries.map Prod.fst = t.entries.map Prod.fst := by
  obtain ⟨c', hc⟩ := Option.isSome_iff_exists.1 h
  rw [get?, if_neg hp] at hc
  rw [put, Assoc.keys_insert, if_pos (Assoc.mem_keys_of_get? hc)]

theorem namesIn_eq_places : t.namesIn p = sortNames ((t.entries.map Prod.fst).filterMap fun q =>
    if q.dropLast = p then q.getLast? else none) := by
  rw [namesIn, List.filterMap_map]
  rfl

/-- At a place there is the same in two trees, or a file in both. -/
def Resembles (t t' : FileTree) (p : Place) : Prop :=
  t'.get? p = t.get? p ∨ ∃ b b', t.get? p = some (.file b) ∧ t'.get? p = some (.file b')

/-- All that a walk asks of the places on its way is whether they are directories. -/
theorem walk_congr (h : ∀ front, front <+: names → t.Resembles t' (front.foldl advance here)) :
    t'.walk here names = t.walk here names := by
  induction names generalizing here with
  | nil => rfl
  | cons name names ih =>
    have hrest : t'.walk (advance here name) names = t.walk (advance here name) names := by
      apply ih
      intro front hfront
      exact h (name :: front) (List.cons_prefix_cons.2 ⟨rfl, hfront⟩)
    rw [walk_cons, walk_cons]
    rcases h [] List.nil_prefix with he | ⟨b, b', hb, hb'⟩
    · change t'.get? here = t.get? here at he
      simp only [he, hrest]
    · change t.get? here = _ at hb
      change t'.get? here = _ at hb'
      simp only [hb, hb']

section
variable (h : ∀ front, front <+: path.parts → t.Resembles t' (target cwd ⟨path.anchor, front⟩))
include h

theorem locate_congr : t'.locate cwd path = t.locate cwd path := by
  rw [locate, locate, walk_congr h]

theorem stat?_congr : t'.stat? cwd path = t.stat? cwd path ∨
    ∃ b b', t.stat? cwd path = some (.file b) ∧ t'.stat? cwd path = some (.file b') := by
  unfold stat?
  rw [locate_congr h]
  cases hl : t.locate cwd path with
  | error e => exact .inl rfl
  | ok place => exact locate_eq_ok hl ▸ h path.parts List.prefix_rfl

theorem exists?_congr : t'.exists? cwd path = t.exists? cwd path := by
  rcases stat?_congr h with he | ⟨b, b', hb, hb'⟩
  · rw [exists?, exists?, he]
  · simp [exists?, hb, hb']

theorem isDirectory_congr : t'.isDirectory cwd path = t.isDirectory cwd path := by
  rcases stat?_congr h with he | ⟨b, b', hb, hb'⟩
  · rw [isDirectory, isDirectory, he]
  · rw [isDirectory, isDirectory, hb, hb']
    rfl

theorem isFile_congr : t'.isFile cwd path = t.isFile cwd path := by
  rcases stat?_congr h with he | ⟨b, b', hb, hb'⟩
  · rw [isFile, isFile, he]
  · simp [isFile, hb, hb']

end

end FileTree

namespace Session
open FileTree
variable {W : Place → Prop} {s₀ s s₁ : Session} {p : Path}

/-- Nothing but reports was made since. -/
structure Reported (s₀ s : Session) : Prop where
  rewrites : s₀.Rewrites (fun _ => False) s
  places : s.tree.entries.map Prod.fst = s₀.tree.entries.map Prod.fst

theorem reported_report {e : Entry} : s.Reported (s.report e) := by
  refine ⟨rewrites_report, ?_⟩
  cases hk : s.sink with
  | none =>
    simp only [report, hk]
    rfl
  | some k =>
    simp only [report, hk]
    change (k.append e s.tree).entries.map Prod.fst = _
    unfold Sink.append
    split
    · next b hb =>
      refine places_put (by rw [hb]; rfl) ?_
      intro he
      rw [he] at hb
      cases hb
    · rfl

instance : Frame Reported where
  refl _ := ⟨.refl, rfl⟩
  trans h h' := ⟨h.rewrites.trans h'.rewrites, h'.places.trans h.places⟩
  report _ _ := reported_report

theorem Rewrites.resembles (h : s₀.Rewrites W s) (place : Place) :
    s₀.tree.Resembles s.tree place := (h.tree place).imp_right And.right

theorem Rewrites.locate (h : s₀.Rewrites W s) : s.tree.locate s.cwd p = s₀.tree.locate s₀.cwd p := by
  rw [h.cwd]
  exact locate_congr fun _ _ => h.resembles _

theorem Rewrites.exists? (h : s₀.Rewrites W s) :
    s.tree.exists? s.cwd p = s₀.tree.exists? s₀.cwd p := by
  rw [h.cwd]
  exact exists?_congr fun _ _ => h.resembles _

theorem Rewrites.isDirectory (h : s₀.Rewrites W s) :
    s.tree.isDirectory s.cwd p = s₀.tree.isDirectory s₀.cwd p := by
  rw [h.cwd]
  exact isDirectory_congr fun _ _ => h.resembles _

theorem Rewrites.isFile (h : s₀.Rewrites W s) :
    s.tree.isFile s.cwd p = s₀.tree.isFile s₀.cwd p := by
  rw [h.cwd]
  exact isFile_congr fun _ _ => h.resembles _

theorem Reported.textAt (h : s₀.Reported s) (hk : s₀.ReportsAside p) : s.textAt p = s₀.textAt p := by
  have hread : s.tree.read s.cwd p = s₀.tree.read s₀.cwd p := by
    unfold FileTree.read
    rw [h.rewrites.locate]
    cases hl : s₀.tree.locate s₀.cwd p with
    | error e => rfl
    | ok place =>
      rcases h.rewrites.tree place with he | ⟨ho, -⟩
      · simp only [bind, Except.bind, he]
      · rcases ho with hf | ⟨k, hs, hp⟩
        · exact hf.elim
        · exact absurd (hp.trans (locate_eq_ok hl)) (hk k hs)
  rw [Session.textAt, Session.textAt, hread]

theorem Reported.list (h : s₀.Reported s) : s.tree.list s.cwd p = s₀.tree.list s₀.cwd p := by
  unfold FileTree.list
  rw [h.rewrites.locate]
  cases s₀.tree.locate s₀.cwd p with
  | error e => rfl
  | ok place =>
    have hn : s.tree.namesIn place = s₀.tree.namesIn place := by
      rw [namesIn_eq_places, namesIn_eq_places, h.places]
    rcases h.rewrites.tree place with he | ⟨-, b, b', hb, hb'⟩
    · simp only [bind, Except.bind, he, hn]
    · simp only [bind, Except.bind, hb, hb']

end Session

namespace Run
open Steps Session
variable {ε ε' α β : Type} {s₀ s s' : Session} {m : Run ε α} {f : α → Run ε β} {x : Except ε α}
  {g : α → Except ε β} {p : Path}

/-- Wherever nothing but reports was made since `s₀`, a run has this outcome and makes reports only. -/
def Yields (s₀ : Session) (m : Run ε α) (x : Except ε α) : Prop :=
  ∀ s, s₀.Reported s → ∃ s', s₀.Reported s' ∧ m s = (x, s')

namespace Yields

theorem of_apply (h : ∀ s, s₀.Reported s → m s = (x, s)) : Yields s₀ m x :=
  fun s hs => ⟨s, hs, h s hs⟩

theorem pure {a : α} : Yields s₀ (Pure.pure a : Run ε α) (.ok a) := of_apply fun _ _ => rfl

theorem throw {e : ε} : Yields s₀ (MonadExcept.throw e : Run ε α) (.error e) :=
  of_apply fun _ _ => rfl

theorem bind (hm : Yields s₀ m x) (hf : ∀ a, x = .ok a → Yields s₀ (f a) (g a)) :
    Yields s₀ (m >>= f) (x >>= g) := by
  intro s hs
  obtain ⟨s₁, hs₁, h₁⟩ := hm s hs
  cases x with
  | error e => exact ⟨s₁, hs₁, bind_error h₁⟩
  | ok a =>
    obtain ⟨s₂, hs₂, h₂⟩ := hf a rfl s₁ hs₁
    exact ⟨s₂, hs₂, (bind_ok h₁).trans h₂⟩

/-- A run that returns, and then another. -/
theorem andThen {a : α} {y : Except ε β} (hm : Yields s₀ m (.ok a)) (hf : Yields s₀ (f a) y) :
    Yields s₀ (m >>= f) y := by
  intro s hs
  obtain ⟨s₁, hs₁, h₁⟩ := hm s hs
  obtain ⟨s₂, hs₂, h₂⟩ := hf s₁ hs₁
  exact ⟨s₂, hs₂, (bind_ok h₁).trans h₂⟩

theorem report {e : Entry} : Yields s₀ (Run.report e : Run ε Unit) (.ok ()) :=
  fun s hs => ⟨s.report e, Frame.trans hs (Frame.report s e), rfl⟩

theorem reportAll {es : List Entry} : Yields s₀ (Run.reportAll es : Run ε Unit) (.ok ()) := by
  induction es with
  | nil => exact pure
  | cons e es ih => exact report.andThen ih

theorem attempt (hm : Yields s₀ m x) : Yields s₀ (Run.attempt m : Run ε' (Except ε α)) (.ok x) := by
  intro s hs
  obtain ⟨s₁, hs₁, h₁⟩ := hm s hs
  exact ⟨s₁, hs₁, by rw [attempt_apply, h₁]⟩

theorem ofExcept {h : ε' → ε} {y : Except ε' α} : Yields s₀ (Run.ofExcept h y) (y.mapError h) :=
  of_apply fun _ _ => ofExcept_apply

/-- A run that starts from where it is. -/
theorem get {f : Session → Run ε β} {y : Except ε β} (hf : ∀ s, s₀.Reported s → Yields s₀ (f s) y) :
    Yields s₀ (MonadState.get >>= f) y := by
  intro s hs
  obtain ⟨s', hs', h⟩ := hf s hs s hs
  exact ⟨s', hs', (bind_ok get_apply).trans h⟩

theorem exists? : Yields s₀ (Run.exists? p : Run ε Bool) (.ok (s₀.tree.exists? s₀.cwd p)) :=
  of_apply fun s hs => by rw [exists?_apply, hs.rewrites.exists?]

theorem isDirectory :
    Yields s₀ (Run.isDirectory p : Run ε Bool) (.ok (s₀.tree.isDirectory s₀.cwd p)) :=
  of_apply fun s hs => by rw [isDirectory_apply, hs.rewrites.isDirectory]

theorem isFile : Yields s₀ (Run.isFile p : Run ε Bool) (.ok (s₀.tree.isFile s₀.cwd p)) :=
  of_apply fun s hs => by rw [isFile_apply, hs.rewrites.isFile]

theorem readText (hk : s₀.ReportsAside p) : Yields s₀ (Run.readText p) (s₀.textAt p) :=
  of_apply fun s hs => by rw [readText_apply, hs.textAt hk]

theorem list : Yields s₀ (Run.list p) ((s₀.tree.list s₀.cwd p).mapError .os) :=
  of_apply fun s hs => by rw [list_apply, hs.list]

theorem mapM {f : β → Run ε α} {g : β → α} {l : List β} (hf : ∀ b ∈ l, Yields s₀ (f b) (.ok (g b))) :
    Yields s₀ (l.mapM f) (.ok (l.map g)) := by
  induction l with
  | nil => exact pure
  | cons b l ih =>
    rw [List.mapM_cons]
    obtain ⟨hb, hl⟩ := List.forall_mem_cons.1 hf
    exact hb.andThen ((ih hl).andThen pure)

end Yields

end Run

end WitCaller
