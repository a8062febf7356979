import WitCaller.Proofs.Effects

/-!
The runs that change files: what writing, making directories and removing one do to a session.
-/

namespace WitCaller

namespace FileTree
variable {t t' : FileTree} {cwd : Place} {p : Path} {bytes : Bytes}

theorem write_eq_ok (h : t.write cwd p bytes = .ok t') : ∃ place, t.locate cwd p = .ok place ∧
    t.get? place ≠ some .directory ∧ t' = t.put place (.file bytes) := by
  unfold write at h
  obtain ⟨place, hl, h⟩ := bind_eq_ok.1 h
  split at h
  · cases h
  · next hn =>
    cases h
    exact ⟨place, hl, hn, rfl⟩

theorem makeDirectory_eq_ok (h : t.makeDirectory cwd p = .ok t') : ∃ place,
    t.locate cwd p = .ok place ∧ t.get? place = none ∧ t' = t.put place .directory := by
  unfold makeDirectory at h
  obtain ⟨place, hl, h⟩ := bind_eq_ok.1 h
  split at h
  · cases h
  · next hn =>
    cases h
    exact ⟨place, hl, hn, rfl⟩

theorem read_eq_ok : t.read cwd p = .ok bytes ↔
    ∃ place, t.locate cwd p = .ok place ∧ t.get? place = some (.file bytes) := by
  unfold read
  cases hl : t.locate cwd p with
  | error e => simp [bind, Except.bind]
  | ok place =>
    simp only [bind, Except.bind]
    cases hg : t.get? place with
    | none => simp [hg]
    | some c => cases c <;> simp [hg]

theorem list_eq_ok {names : List String} (h : t.list cwd p = .ok names) : ∃ place,
    t.locate cwd p = .ok place ∧ t.get? place = some .directory ∧ names = t.namesIn place := by
  unfold list at h
  obtain ⟨place, hl, h⟩ := bind_eq_ok.1 h
  split at h
  · cases h
  · cases h
  · next hd =>
    cases h
    exact ⟨place, hl, hd, rfl⟩

end FileTree

namespace Session
variable {s : Session} {p : Path}

/-- A text is read from a file. -/
theorem file_of_textAt {text : List Char} (h : s.textAt p = .ok text) : ∃ place bytes,
    s.tree.locate s.cwd p = .ok place ∧ s.tree.get? place = some (.file bytes) ∧
      ∃ cs, Utf8.decode bytes = .ok cs ∧ text = Text.unifyLineEnds cs := by
  unfold textAt at h
  cases hr : s.tree.read s.cwd p with
  | error e =>
    rw [hr] at h
    cases h
  | ok bytes =>
    rw [hr] at h
    cases hd : Utf8.decode bytes with
    | error e =>
      change ((Utf8.decode bytes).mapError _ >>= _) = _ at h
      rw [hd] at h
      cases h
    | ok cs =>
      change ((Utf8.decode bytes).mapError _ >>= _) = _ at h
      rw [hd] at h
      cases h
      obtain ⟨place, hl, hf⟩ := FileTree.read_eq_ok.1 hr
      exact ⟨place, bytes, hl, hf, cs, hd, rfl⟩

end Session

namespace Run
open Steps Session FileTree
variable {W : Place → Prop} {s s' : Session} {p : Path} {again : Bool} {bytes : Bytes}

theorem change_apply {f : FileTree → Place → Except OsError FileTree} : change f s =
    match f s.tree s.cwd with
    | .ok t => (.ok (), { s with tree := t })
    | .error e => (.error (.os e), s) := by
  unfold change
  rw [bind_ok get_apply]
  cases f s.tree s.cwd <;> rfl

theorem makeDirectory_apply : makeDirectory p again s =
    match s.tree.makeDirectory s.cwd p with
    | .ok t => (.ok (), { s with tree := t })
    | .error e =>
      if e.kind ≠ .noEntry ∧ again ∧ s.tree.isDirectory s.cwd p then (.ok (), s)
      else (.error (.os e), s) := by
  unfold makeDirectory
  rw [bind_ok look_apply]
  cases s.tree.makeDirectory s.cwd p with
  | ok t => rfl
  | error e =>
    change (isDirectory p >>= _) s = _
    rw [bind_ok isDirectory_apply]
    by_cases hc : e.kind ≠ .noEntry ∧ again ∧ s.tree.isDirectory s.cwd p
    · rw [if_pos hc]
      simp only [if_pos hc]
      rfl
    · rw [if_neg hc]
      simp only [if_neg hc]
      rfl

theorem makeDirectories_apply : makeDirectories p again s =
    match s.tree.makeDirectory s.cwd p with
    | .ok t => (.ok (), { s with tree := t })
    | .error e =>
      if e.kind = .noEntry then
        if p.parts = [] then (.error (.os e), s)
        else (makeDirectories p.parent true >>= fun _ => makeDirectory p again) s
      else if again ∧ s.tree.isDirectory s.cwd p then (.ok (), s)
      else (.error (.os e), s) := by
  rw [makeDirectories, bind_ok look_apply]
  cases s.tree.makeDirectory s.cwd p with
  | ok t => rfl
  | error e =>
    by_cases hk : e.kind = .noEntry
    · simp only [hk, if_true]
      by_cases hp : p.parts = []
      · simp only [hp, if_true]
        rfl
      · simp only [hp, if_false]
    · simp only [hk, if_false]
      rw [bind_ok isDirectory_apply]
      by_cases hc : again ∧ s.tree.isDirectory s.cwd p
      · rw [if_pos hc, if_pos hc]
        rfl
      · rw [if_neg hc, if_neg hc]
        rfl

/-- Where a path from the root leads, the parent is a directory. -/
theorem parent_of_locate {place : Place} (ha : p.anchor ≠ .relative)
    (hl : s.tree.locate s.cwd p = .ok place) (hs : s.Sound) :
    s.tree.get? place.dropLast = some .directory := hs.closed.locate ha hl

theorem grows_write (ha : p.anchor ≠ .relative) (hw : W (Path.normalize p.parts)) :
    s.Grows W (writeBytes p bytes s).2 := by
  unfold writeBytes
  rw [change_apply]
  split
  · next t ht =>
    obtain ⟨place, hl, hn, rfl⟩ := write_eq_ok ht
    have hne : place ≠ [] := by
      rintro rfl
      exact hn rfl
    have hplace := (locate_eq_ok hl).trans (target_of_anchored ha)
    exact .put hne (parent_of_locate ha hl) (.inr ⟨hplace ▸ hw, hn, bytes, rfl⟩)
  · exact .refl

theorem grows_of_makeDirectory {t : FileTree} (ha : p.anchor ≠ .relative)
    (h : s.tree.makeDirectory s.cwd p = .ok t) : s.Grows W { s with tree := t } := by
  obtain ⟨place, hl, hn, rfl⟩ := makeDirectory_eq_ok h
  have hne : place ≠ [] := by
    rintro rfl
    cases hn
  exact .put hne (parent_of_locate ha hl) (.inl ⟨hn, rfl⟩)

section
variable {R : Session → Session → Prop} [Frame R] {Q : Path → Prop}
  (hmake : ∀ {p : Path} {s : Session} {t : FileTree}, Q p → s.tree.makeDirectory s.cwd p = .ok t →
    R s { s with tree := t })
include hmake

theorem keeps_makeDirectory (hp : Q p) : Keeps R (makeDirectory p again) := by
  intro s
  rw [makeDirectory_apply]
  split
  · next t h => exact hmake hp h
  · split <;> exact Frame.refl s

/-- A frame that allows each of the directories on the way allows all that are made. -/
theorem keeps_makeDirectories (hparent : ∀ {p : Path}, Q p → Q p.parent) (hp : Q p) :
    Keeps R (makeDirectories p again) := by
  intro s
  induction hn : p.parts.length generalizing p again s with
  | zero =>
    rw [makeDirectories_apply]
    split
    · next t h => exact hmake hp h
    · rw [if_pos (List.length_eq_zero_iff.1 hn)]
      split
      · exact Frame.refl s
      · split <;> exact Frame.refl s
  | succ n ih =>
    rw [makeDirectories_apply]
    split
    · next t h => exact hmake hp h
    · split
      · split
        · exact Frame.refl s
        · apply frame_bind
          · exact ih (hparent hp) s (by simp [Path.parent, hn])
          · exact fun _ s₁ _ => keeps_makeDirectory hmake hp s₁
      · split <;> exact Frame.refl s

end

theorem grows_makeDirectories (ha : p.anchor ≠ .relative) :
    Keeps (Grows W) (makeDirectories p again) :=
  keeps_makeDirectories grows_of_makeDirectory (fun ha => ha) ha

/-- A directory that must be new was not there, after all above it was made. -/
theorem makeDirectories_new (ha : p.anchor ≠ .relative)
    (h : makeDirectories p false s = (.ok (), s')) : ∃ s₁ place, s.Grows W s₁ ∧
      s₁.tree.locate s₁.cwd p = .ok place ∧ s₁.tree.get? place = none ∧
      s' = { s₁ with tree := s₁.tree.put place .directory } := by
  have direct {s₁ : Session} {t : FileTree} (hg : s.Grows W s₁)
      (hm : s₁.tree.makeDirectory s₁.cwd p = .ok t) : ∃ s₂ place, s.Grows W s₂ ∧
        s₂.tree.locate s₂.cwd p = .ok place ∧ s₂.tree.get? place = none ∧
        { s₁ with tree := t } = { s₂ with tree := s₂.tree.put place .directory } := by
    obtain ⟨place, hl, hn, rfl⟩ := makeDirectory_eq_ok hm
    exact ⟨s₁, place, hg, hl, hn, rfl⟩
  rw [makeDirectories_apply] at h
  split at h
  · next t hm =>
    cases h
    exact direct .refl hm
  · split at h
    · split at h
      · cases h
      · obtain ⟨_, s₁, h₁, h₂⟩ := bind_eq_ok_iff.1 h
        have hg : s.Grows W s₁ := (grows_makeDirectories (p := p.parent) ha).at h₁
        rw [makeDirectory_apply] at h₂
        split at h₂
        · next t hm =>
          cases h₂
          exact direct hg hm
        · rw [if_neg (by simp)] at h₂
          cases h₂
    · rw [if_neg (by simp)] at h
      cases h

/-- A directory that must be new is empty. -/
theorem makeDirectories_empty (ha : p.anchor ≠ .relative) (hs : s.Sound)
    (h : makeDirectories p false s = (.ok (), s')) :
    s.Grows W s' ∧ s'.tree.get? (FileTree.target s.cwd p) = some .directory ∧
      ∀ q, q ≠ [] → s'.tree.get? (FileTree.target s.cwd p ++ q) = none := by
  have hg : s.Grows W s' := (grows_makeDirectories ha).at h
  obtain ⟨s₁, place, hg₁, hl, hn, rfl⟩ := makeDirectories_new (W := W) ha h
  have hplace : place = FileTree.target s.cwd p := by rw [locate_eq_ok hl, hg₁.cwd]
  have hne : place ≠ [] := by
    rintro rfl
    cases hn
  subst hplace
  refine ⟨hg, ?_, fun q hq => ?_⟩
  · rw [get?_put hne, if_pos rfl]
  · rw [get?_put hne, if_neg (fun he => hq (List.self_eq_append_right.1 he))]
    cases hc : s₁.tree.get? (FileTree.target s.cwd p ++ q) with
    | none => rfl
    | some c =>
      have hd := (hg₁.sound hs).closed.directory_of_append hq (by rw [hc]; rfl)
      rw [hn] at hd
      cases hd

theorem drop_apply {q : Place → Bool} : (drop q : Run Failure Unit) s =
    (.ok (), { s with
      tree := s.tree.discard q
      sink := s.sink.filter fun k => !q k.place }) := rfl

/-- What is at a place and below it is gone, the file for reports included. -/
structure Removed (place : Place) (s s' : Session) : Prop where
  cwd : s'.cwd = s.cwd
  tree : ∀ p, p ≠ [] → s'.tree.get? p = if place <+: p then none else s.tree.get? p
  sink : ∀ k, s'.sink = some k ↔ s.sink = some k ∧ ¬ place <+: k.place

theorem Removed.sound {place : Place} (h : Removed place s s') (hs : s.Sound) : s'.Sound := by
  constructor
  · intro p c hp
    by_cases hd : p.dropLast = []
    · rw [hd]
      rfl
    · have hne : p ≠ [] := by
        rintro rfl
        exact hd rfl
      rw [h.tree p hne] at hp
      split at hp
      · cases hp
      · next hn =>
        have hn' : ¬ place <+: p.dropLast := fun hpre => hn (hpre.trans (List.dropLast_prefix p))
        rw [h.tree _ hd, if_neg hn', hs.closed p c hp]
  · intro k hk
    obtain ⟨hk, hn⟩ := (h.sink k).1 hk
    obtain ⟨b, hb⟩ := hs.logged k hk
    have hne : k.place ≠ [] := by
      intro he
      rw [he] at hb
      cases hb
    exact ⟨b, by rw [h.tree _ hne, if_neg hn, hb]⟩

theorem isBelow_iff {p q : Place} : isBelow p q = true ↔ p <+: q ∧ p ≠ q := by
  simp [isBelow]

/-- A frame that allows to drop what lies in the directory allows to remove it. -/
theorem keeps_removeDirectory {R : Session → Session → Prop} [Frame R]
    (hdrop : ∀ {s : Session} {place : Place}, s.tree.locate s.cwd p = .ok place →
      ∀ q : Place → Bool, (∀ x, q x = true → place <+: x) → Keeps R (drop q : Run Failure Unit)) :
    Keeps R (removeDirectory p) := by
  intro s
  unfold removeDirectory
  refine frame_bind (Keeps.look s) fun found s₁ h₁ => ?_
  cases h₁
  refine frame_bind (Keeps.ofExcept s) fun place s₂ h₂ => ?_
  obtain ⟨hl, rfl⟩ := ofExcept_eq_ok.1 h₂
  refine Keeps.look.bind (fun content => ?_) s₂
  split
  · exact .throw
  · exact .throw
  · have hbelow := hdrop hl (isBelow place) fun x hx => (isBelow_iff.1 hx).1
    have hat := hdrop hl (· = place) fun x hx => of_decide_eq_true hx ▸ List.prefix_rfl
    exact hbelow.bind fun _ => Keeps.look.bind fun _ => Keeps.ofExcept.bind fun _ => hat

theorem removeDirectory_returns (h : removeDirectory p s = (.ok (), s')) : ∃ place,
    s.tree.locate s.cwd p = .ok place ∧ s.tree.get? place = some .directory ∧
      Removed place s s' := by
  unfold removeDirectory at h
  rw [bind_ok look_apply] at h
  obtain ⟨place, s₀, h₀, h₁⟩ := bind_eq_ok_iff.1 h
  obtain ⟨hl, rfl⟩ := ofExcept_eq_ok.1 h₀
  rw [bind_ok look_apply] at h₁
  cases hg : s₀.tree.get? place with
  | none =>
    rw [hg] at h₁
    cases h₁
  | some c =>
    rw [hg] at h₁
    cases c with
    | file b => cases h₁
    | directory =>
      simp only at h₁
      rw [bind_ok drop_apply, bind_ok look_apply] at h₁
      obtain ⟨_, s₁, h₂, h₃⟩ := bind_eq_ok_iff.1 h₁
      obtain ⟨-, rfl⟩ := ofExcept_eq_ok.1 h₂
      rw [drop_apply] at h₃
      cases h₃
      refine ⟨place, hl, hg, rfl, fun q hq => ?_, fun k => ?_⟩
      · simp only [get?_discard hq, isBelow_iff, decide_eq_true_eq]
        by_cases he : q = place
        · simp [he]
        · by_cases hp : place <+: q
          · simp [hp, he, Ne.symm he]
          · simp [hp, he]
      · simp only [Option.filter_eq_some_iff, Bool.not_eq_true', Bool.eq_false_iff, ne_eq,
          isBelow_iff, decide_eq_true_eq]
        constructor
        · rintro ⟨⟨hk, hb⟩, hn⟩
          exact ⟨hk, fun hp => hb ⟨hp, Ne.symm hn⟩⟩
        · rintro ⟨hk, hn⟩
          refine ⟨⟨hk, fun hb => hn hb.1⟩, fun he => hn ?_⟩
          exact he ▸ List.prefix_rfl

end Run

end WitCaller
