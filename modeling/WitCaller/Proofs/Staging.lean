import WitCaller.Proofs.Drafting
import WitCaller.Proofs.Registration

/-!
Copies of the interface files. A run that returns keeps the interface files and makes the crate hold
copies of them exactly if the directory for the copies is another one than theirs.
-/

namespace WitCaller
open Steps Run Session FileTree

/-- The interface files of a directory have the bytes they had. -/
def InterfacesKept (api : Place) (t t' : FileTree) : Prop :=
  ∀ name bytes, t.InterfaceIn api name bytes → t'.InterfaceIn api name bytes

/-- A directory holds copies of the interface files that another one had, and nothing else. -/
def HoldsCopies (api staging : Place) (t t' : FileTree) : Prop :=
  t'.get? staging = some .directory ∧ ∀ p c, p ≠ [] → (t'.get? (staging ++ p) = some c ↔
    ∃ name bytes, p = [name] ∧ c = .file bytes ∧ t.InterfaceIn api name bytes)

/-- The file for reports, if there is one, is no interface file of the directory. -/
def LogsAside (api : Place) (s : Session) : Prop :=
  ∀ k, s.sink = some k → ∀ name, IsInterfaceName name → k.place ≠ api ++ [name]

variable {s s₁ s' : Session} {api target : Path} {place staging : Place} {name : String}
  {bytes : Bytes} {W : Place → Prop}

theorem LogsAside.not_open (hk : LogsAside place s) (hn : IsInterfaceName name) :
    ¬ s.Open Aside (place ++ [name]) := by
  rintro (ha | ⟨k, hs, hp⟩)
  · exact not_aside_concat hn ha
  · exact hk k hs name hn hp

theorem Session.Grows.interfaceIn_iff (h : s.Grows Aside s') (hk : LogsAside place s) :
    s'.tree.InterfaceIn place name bytes ↔ s.tree.InterfaceIn place name bytes := by
  constructor
  · rintro ⟨hn, hb⟩
    exact ⟨hn, (h.file_iff (hk.not_open hn)).1 hb⟩
  · rintro ⟨hn, hb⟩
    exact ⟨hn, (h.file_iff (hk.not_open hn)).2 hb⟩

theorem Session.Grows.mono {W' : Place → Prop} (h : s.Grows W s') (hw : ∀ p, W p → W' p) :
    s.Grows W' s' := by
  refine ⟨h.cwd, h.sink, h.sound, fun p => ?_⟩
  rcases h.tree p with he | hd | ⟨ho, hf⟩
  · exact .inl he
  · exact .inr (.inl hd)
  · exact .inr (.inr ⟨ho.imp_left (hw p), hf⟩)

namespace Crate

/-- Interface files with some names are copied from one directory to another one, and all else but
the file for reports is as it was. -/
structure Copied (api staging : Place) (P : String → Prop) (s s' : Session) : Prop where
  cwd : s'.cwd = s.cwd
  sink : s'.sink = s.sink
  copy : ∀ name bytes, P name → s.tree.InterfaceIn api name bytes →
    s'.tree.get? (staging ++ [name]) = some (.file bytes)
  rest : ∀ p, (∀ name, P name → p ≠ staging ++ [name]) → (∀ k, s.sink = some k → k.place ≠ p) →
    s'.tree.get? p = s.tree.get? p

theorem Copied.interfaceIn {P : String → Prop} (h : Copied place staging P s s')
    (hne : staging ≠ place) (hk : LogsAside place s) (hi : s.tree.InterfaceIn place name bytes) :
    s'.tree.InterfaceIn place name bytes := by
  refine ⟨hi.1, ?_⟩
  rw [h.rest, hi.2]
  · intro other _ he
    exact hne (List.append_inj' he rfl).1.symm
  · exact fun k hs => hk k hs name hi.1

/-- One file, written under its name and reported. -/
theorem copied_one {e : Entry} {s₂ : Session} (hn : IsInterfaceName name)
    (ht : FileTree.target s.cwd target = staging)
    (hread : s.tree.get? (place ++ [name]) = some (.file bytes)) (hst : LogsAside staging s)
    (hwrite : writeBytes ⟨target.anchor, target.parts ++ [name]⟩ bytes s = (.ok (), s₁))
    (hnote : (report e : Run Failure Unit) s₁ = (.ok (), s₂)) :
    Copied place staging (· = name) s s₂ := by
  unfold writeBytes at hwrite
  rw [change_apply] at hwrite
  split at hwrite
  · next t hw =>
    cases hwrite
    cases hnote
    obtain ⟨copy, hl, -, rfl⟩ := write_eq_ok hw
    have hp : copy = staging ++ [name] := by
      rw [locate_eq_ok hl, target_concat (ne_parent_of_isInterfaceName hn), ht]
    have hne : copy ≠ [] := by
      rw [hp]
      exact List.append_ne_nil_of_right_ne_nil _ (List.cons_ne_nil _ _)
    have same {p : Place} (hs : ∀ k, s.sink = some k → k.place ≠ p) :
        (Session.report e { s with tree := s.tree.put copy (.file bytes) }).tree.get? p =
        (s.tree.put copy (.file bytes)).get? p := by
      rcases (rewrites_report (W := fun _ => False) (e := e)
        (s := { s with tree := s.tree.put copy (.file bytes) })).tree p with he | ⟨hf | ⟨k, hk, hp⟩, -⟩
      · exact he
      · exact hf.elim
      · exact absurd hp (hs k hk)
    refine ⟨rfl, rfl, ?_, ?_⟩
    · rintro _ bytes' rfl hi
      rw [same fun k hs => hst k hs _ hn, get?_put hne, if_pos hp]
      exact hread ▸ hi.2
    · intro p hp' hs
      rw [same hs, get?_put hne, if_neg]
      rintro rfl
      exact hp' name rfl hp
  · cases hwrite

theorem Copied.trans {P Q : String → Prop} {s₂ : Session} (h₁ : Copied place staging P s s₁)
    (h₂ : Copied place staging Q s₁ s₂) (hne : staging ≠ place) (hk : LogsAside place s)
    (hst : LogsAside staging s) : Copied place staging (fun name => P name ∨ Q name) s s₂ := by
  refine ⟨h₂.cwd.trans h₁.cwd, h₂.sink.trans h₁.sink, fun name bytes hp hi => ?_, fun p hp hs => ?_⟩
  · have hi₁ := h₁.interfaceIn hne hk hi
    by_cases hq : Q name
    · exact h₂.copy name bytes hq hi₁
    · rw [h₂.rest]
      · exact h₁.copy name bytes (hp.resolve_right hq) hi
      · intro other ho he
        cases (List.append_inj' he rfl).2
        exact hq ho
      · intro k hs
        exact hst k (h₁.sink ▸ hs) name hi.1
  · rw [h₂.rest p (fun name hq => hp name (.inr hq)) (fun k hk => hs k (h₁.sink ▸ hk))]
    exact h₁.rest p (fun name hq => hp name (.inl hq)) hs

theorem copyAll_returns {paths staged : List Path} (ht : FileTree.target s.cwd target = staging)
    (ha : FileTree.target s.cwd api = place) (hne : staging ≠ place) (hk : LogsAside place s)
    (hst : LogsAside staging s)
    (hpaths : ∀ p ∈ paths, ∃ name, p = ⟨api.anchor, api.parts ++ [name]⟩ ∧ IsInterfaceName name)
    (h : copyAll target paths s = (.ok staged, s')) :
    Copied place staging (fun name => ⟨api.anchor, api.parts ++ [name]⟩ ∈ paths) s s' := by
  induction paths generalizing s staged with
  | nil =>
    cases h
    exact ⟨rfl, rfl, fun _ _ hm => absurd hm List.not_mem_nil, fun _ _ _ => rfl⟩
  | cons source rest ih =>
    obtain ⟨name, rfl, hin⟩ := hpaths source List.mem_cons_self
    unfold copyAll at h
    obtain ⟨bytes, _, hread, h₁⟩ := bind_eq_ok_iff.1 h
    obtain ⟨hread, rfl⟩ := readBytes_eq_ok.1 hread
    obtain ⟨from', hl, hb⟩ := read_eq_ok.1 hread
    rw [locate_eq_ok hl, target_concat (ne_parent_of_isInterfaceName hin), ha] at hb
    obtain ⟨⟨⟩, s₁, hwrite, h₂⟩ := bind_eq_ok_iff.1 h₁
    obtain ⟨⟨⟩, s₂, hnote, h₃⟩ := bind_eq_ok_iff.1 h₂
    obtain ⟨staged', _, hrest, h₄⟩ := bind_eq_ok_iff.1 h₃
    cases h₄
    have hname : Path.name ⟨api.anchor, api.parts ++ [name]⟩ = name := by simp [Path.name]
    rw [hname] at hwrite
    have hone := copied_one hin ht hb hst hwrite hnote
    have hrest' := ih (hone.cwd ▸ ht) (hone.cwd ▸ ha) (fun k hs => hk k (hone.sink ▸ hs))
      (fun k hs => hst k (hone.sink ▸ hs)) (fun p hp => hpaths p (List.mem_cons_of_mem _ hp)) hrest
    have hall := hone.trans hrest' hne hk hst
    have hmem (other : String) : other = name ∨ (⟨api.anchor, api.parts ++ [other]⟩ : Path) ∈ rest ↔
        (⟨api.anchor, api.parts ++ [other]⟩ : Path) ∈ ⟨api.anchor, api.parts ++ [name]⟩ :: rest := by
      simp
    simp only [hmem] at hall
    exact hall

/-- A directory that was there is gone with all that was in it; otherwise nothing happened. -/
def Cleared (place : Place) (s s' : Session) : Prop :=
  s' = s ∨ ∃ s₁, s.Rewrites (fun _ => False) s₁ ∧ s₁.tree.get? place = some .directory ∧
    Removed place s₁ s'

theorem Cleared.cwd (h : Cleared place s s') : s'.cwd = s.cwd := by
  rcases h with rfl | ⟨s₁, hr, -, hrm⟩
  · rfl
  · exact hrm.cwd.trans hr.cwd

theorem Cleared.sound (h : Cleared place s s') (hs : s.Sound) : s'.Sound := by
  rcases h with rfl | ⟨s₁, hr, -, hrm⟩
  · exact hs
  · exact hrm.sound (hr.sound hs)

theorem Cleared.sink {k : Sink} (h : Cleared place s s') (hk : s'.sink = some k) :
    s.sink = some k := by
  rcases h with rfl | ⟨s₁, hr, -, hrm⟩
  · exact hk
  · exact hr.sink ▸ ((hrm.sink k).1 hk).1

/-- Clearing a directory keeps the interface files of one that does not lie in it. -/
theorem Cleared.interfaceIn_iff (h : Cleared staging s s') (hk : LogsAside place s)
    (hp : ¬ staging <+: place) :
    s'.tree.InterfaceIn place name bytes ↔ s.tree.InterfaceIn place name bytes := by
  rcases h with rfl | ⟨s₁, hr, hd, hrm⟩
  · rfl
  · have hne : place ++ [name] ≠ [] := List.append_ne_nil_of_right_ne_nil _ (List.cons_ne_nil _ _)
    have h₁ : s₁.tree.InterfaceIn place name bytes ↔ s.tree.InterfaceIn place name bytes :=
      (Grows.mono hr.grows fun _ => False.elim).interfaceIn_iff hk
    rw [← h₁]
    unfold InterfaceIn
    rw [hrm.tree _ hne]
    split
    · next hpre =>
      rcases List.prefix_concat_iff.1 hpre with he | he
      · rw [← he, hd]
        simp
      · exact absurd he hp
    · rfl

theorem stage_cleared {staged : List Path} (h : stage api target s = (.ok staged, s')) :
    ∃ s₁ s₂ s₃ files, Cleared (FileTree.target s.cwd target) s s₁ ∧
      makeDirectories target false s₁ = (.ok (), s₂) ∧ World.filesIn api s₂ = (.ok files, s₃) ∧
      copyAll target files s₃ = (.ok staged, s') := by
  have hrest {s₁ : Session} (hc : Cleared (FileTree.target s.cwd target) s s₁)
      (hm : (makeDirectories target false >>= fun _ => World.filesIn api >>= copyAll target) s₁ =
        (.ok staged, s')) : ∃ s₁ s₂ s₃ files, Cleared (FileTree.target s.cwd target) s s₁ ∧
      makeDirectories target false s₁ = (.ok (), s₂) ∧ World.filesIn api s₂ = (.ok files, s₃) ∧
      copyAll target files s₃ = (.ok staged, s') := by
    obtain ⟨⟨⟩, s₂, h₂, h₃⟩ := bind_eq_ok_iff.1 hm
    obtain ⟨files, s₃, h₄, h₅⟩ := bind_eq_ok_iff.1 h₃
    exact ⟨s₁, s₂, s₃, files, hc, h₂, h₄, h₅⟩
  unfold stage at h
  rw [bind_ok exists?_apply] at h
  split at h
  · obtain ⟨_, s₁, h₁, h₂⟩ := bind_eq_ok_iff.1 h
    obtain ⟨⟨⟩, s₂, h₃, h₄⟩ := bind_eq_ok_iff.1 h₂
    have hr : s.Rewrites (fun _ => False) s₁ := Keeps.report.at h₁
    obtain ⟨place, hl, hd, hrm⟩ := removeDirectory_returns h₃
    rw [locate_eq_ok hl, hr.cwd] at hd hrm
    exact hrest (.inr ⟨s₁, hr, hd, hrm⟩) h₄
  · exact hrest (.inl rfl) h

/-- Where nothing lies below the target, the copies are all that lies there afterwards. -/
theorem Copied.holdsCopies {P : String → Prop} (h : Copied place staging P s s')
    (hs : s.Sound) (hd : s.tree.get? staging = some .directory)
    (hempty : ∀ p, p ≠ [] → s.tree.get? (staging ++ p) = none)
    (hP : ∀ name, P name ↔ ∃ bytes, s.tree.InterfaceIn place name bytes) :
    HoldsCopies place staging s.tree s'.tree := by
  have apart {p : Place} : ∀ k, s.sink = some k → k.place ≠ staging ++ p := by
    intro k hk he
    obtain ⟨b, hb⟩ := hs.logged k hk
    rw [he] at hb
    by_cases hp : p = []
    · rw [hp, List.append_nil, hd] at hb
      cases hb
    · rw [hempty p hp] at hb
      cases hb
  constructor
  · have apart' := apart (p := [])
    rw [List.append_nil] at apart'
    rw [h.rest staging _ apart', hd]
    intro name _ he
    exact absurd (List.self_eq_append_right.1 he) (List.cons_ne_nil _ _)
  · intro p c hp
    constructor
    · intro hc
      by_cases hcopy : ∃ name, P name ∧ p = [name]
      · obtain ⟨name, hname, rfl⟩ := hcopy
        obtain ⟨bytes, hi⟩ := (hP name).1 hname
        rw [h.copy name bytes hname hi] at hc
        exact ⟨name, bytes, rfl, (Option.some.inj hc).symm, hi⟩
      · rw [h.rest _ _ apart, hempty p hp] at hc
        · cases hc
        · intro name hname he
          exact hcopy ⟨name, hname, List.append_cancel_left he⟩
    · rintro ⟨name, bytes, rfl, rfl, hi⟩
      exact h.copy name bytes ((hP name).2 ⟨bytes, hi⟩) hi

/-- Staging either clears the directory of the interface files, or keeps them and makes copies. -/
theorem stage_returns {staged : List Path} (hs : s.Sound) (ht : target.anchor ≠ .relative)
    (hplace : FileTree.target s.cwd api = place) (hstaging : FileTree.target s.cwd target = staging)
    (hk : LogsAside place s) (h : stage api target s = (.ok staged, s')) :
    LogsAside place s' ∧ LogsAside staging s' ∧
      (staging = place ∧ (∀ name bytes, ¬ s'.tree.InterfaceIn place name bytes) ∨
        staging ≠ place ∧ InterfacesKept place s.tree s'.tree ∧
          HoldsCopies place staging s.tree s'.tree) := by
  obtain ⟨s₁, s₂, s₃, files, hclear, hmake, hfiles, hcopy⟩ := stage_cleared h
  obtain ⟨hg, hd, hempty⟩ := makeDirectories_empty (W := Aside) ht (hclear.sound hs) hmake
  obtain ⟨rfl, -⟩ := World.filesIn_returns hfiles
  have hs₂ := hg.sound (hclear.sound hs)
  have hcwd : s₃.cwd = s.cwd := hg.cwd.trans hclear.cwd
  rw [hstaging] at hclear
  rw [hclear.cwd, hstaging] at hd hempty
  have hk₁ : LogsAside place s₁ := fun k hs => hk k (hclear.sink hs)
  have hk₂ : LogsAside place s₃ := fun k hs => hk₁ k (hg.sink ▸ hs)
  have hst : LogsAside staging s₃ := by
    intro k hsink name _ he
    obtain ⟨b, hb⟩ := hs₂.logged k hsink
    rw [he, hempty _ (List.cons_ne_nil _ _)] at hb
    cases hb
  obtain ⟨directory, hl, hdir, hmem⟩ := World.mem_filesIn hfiles
  have hdirectory : directory = place := by rw [locate_eq_ok hl, hcwd, hplace]
  subst hdirectory
  by_cases hne : staging = directory
  · have hnone : ∀ name bytes, ¬ s₃.tree.InterfaceIn directory name bytes := by
      rintro name bytes ⟨-, hb⟩
      rw [← hne, hempty _ (List.cons_ne_nil _ _)] at hb
      cases hb
    have hnil : files = [] := by
      rw [List.eq_nil_iff_forall_not_mem]
      intro p hp
      obtain ⟨name, bytes, -, hi⟩ := (hmem p).1 hp
      exact hnone name bytes hi
    rw [hnil] at hcopy
    cases hcopy
    exact ⟨hk₂, hst, .inl ⟨hne, hnone⟩⟩
  · have hnp : ¬ staging <+: directory := by
      rintro ⟨p, rfl⟩
      rw [hempty p (fun he => hne (by rw [he, List.append_nil]))] at hdir
      cases hdir
    have hsame (name : String) (bytes : Bytes) :
        s₃.tree.InterfaceIn directory name bytes ↔ s.tree.InterfaceIn directory name bytes :=
      (hg.interfaceIn_iff hk₁).trans (hclear.interfaceIn_iff hk hnp)
    have hcopied := copyAll_returns (hcwd ▸ hstaging) (hcwd ▸ hplace) hne hk₂ hst
      (fun p hp => by
        obtain ⟨name, bytes, he, hi⟩ := (hmem p).1 hp
        exact ⟨name, he, hi.1⟩) hcopy
    have hholds := hcopied.holdsCopies hs₂ hd hempty fun name => by
      rw [hmem]
      constructor
      · rintro ⟨other, bytes, he, hi⟩
        cases List.append_cancel_left (Path.mk.inj he).2
        exact ⟨bytes, hi⟩
      · rintro ⟨bytes, hi⟩
        exact ⟨name, bytes, rfl, hi⟩
    refine ⟨fun k hs => hk₂ k (hcopied.sink ▸ hs), fun k hs => hst k (hcopied.sink ▸ hs),
      .inr ⟨hne, ?_, ?_⟩⟩
    · intro name bytes hi
      exact hcopied.interfaceIn hne hk₂ ((hsame name bytes).2 hi)
    · simp only [HoldsCopies, hsame] at hholds ⊢
      exact hholds

theorem anchored_append {p q : Path} (hp : p.anchor ≠ .relative) : (p.append q).anchor ≠ .relative := by
  unfold Path.append
  split
  · exact hp
  · assumption

/-- The files of the crate itself are no interface files. -/
theorem grows_writeText {text : String} {p q : Path} (hp : p.anchor ≠ .relative)
    (hn : ¬ IsInterfaceName name) (hname : name ≠ "..")
    (hq : q = ⟨p.anchor, p.parts ++ [name]⟩) : Keeps (Grows Aside) (writeText q text) := by
  subst hq
  refine fun _ => grows_write hp ?_
  rw [Path.normalize_concat hname]
  exact aside_concat hn

theorem grows_prepare {crate : Crate} {base : Path} (hb : base.anchor ≠ .relative) :
    Keeps (Grows Aside) (crate.prepare base) := by
  have hsrc : (crate.sourceDirectory base).anchor ≠ .relative := anchored_append (anchored_append hb)
  exact Keeps.report.bind fun _ => grows_makeDirectories hsrc

/-- What is done to fill a crate whose directories are there: two files are written, and then the
interface files are staged. -/
theorem fill_returns {crate : Crate} {base : Path} {source : String} {staged : List Path}
    (h : crate.fill base api source s = (.ok staged, s')) : ∃ template s₁ s₂ s₃,
      crate.manifestTemplate = .ok template ∧
      writeText (crate.directory base / "Cargo.toml") (Library.manifest template crate.name) s =
        (.ok (), s₁) ∧
      note .info s!"Writing lib.rs to {crate.libraryFile base}" s₁ = (.ok (), s₂) ∧
      writeText (crate.libraryFile base) source s₂ = (.ok (), s₃) ∧
      stage api (crate.staging base) s₃ = (.ok staged, s') := by
  unfold fill at h
  obtain ⟨template, s₀, h₀, hfiles⟩ := bind_eq_ok_iff.1 h
  obtain ⟨ht, rfl⟩ := ofExcept_eq_ok.1 h₀
  obtain ⟨⟨⟩, s₁, h₁, hsource⟩ := bind_eq_ok_iff.1 hfiles
  obtain ⟨⟨⟩, s₂, h₂, hwrite⟩ := bind_eq_ok_iff.1 hsource
  obtain ⟨⟨⟩, s₃, h₃, hstage⟩ := bind_eq_ok_iff.1 hwrite
  exact ⟨template, s₁, s₂, s₃, ht, h₁, h₂, h₃, hstage⟩

/-- Before the interface files are staged, what is written is aside of them. -/
theorem grows_fill {crate : Crate} {base : Path} {source : String} {staged : List Path}
    (hb : base.anchor ≠ .relative) (h : crate.fill base api source s = (.ok staged, s')) :
    ∃ s₁, s.Grows Aside s₁ ∧ stage api (crate.staging base) s₁ = (.ok staged, s') := by
  have hdir : (crate.directory base).anchor ≠ .relative := anchored_append hb
  have hsrc : (crate.sourceDirectory base).anchor ≠ .relative := anchored_append hdir
  obtain ⟨template, s₁, s₂, s₃, -, h₁, h₂, h₃, hstage⟩ := fill_returns h
  have hg₁ : s.Grows Aside s₁ := (grows_writeText hdir (by decide) (by decide) rfl).at h₁
  have hg₂ : s₁.Grows Aside s₂ := Keeps.report.at h₂
  have hg₃ : s₂.Grows Aside s₃ := (grows_writeText hsrc (by decide) (by decide) rfl).at h₃
  exact ⟨s₃, (hg₁.trans hg₂).trans hg₃, hstage⟩

end Crate

namespace Generation
variable {config : Option Config} {r : Request} {g : Generation} {c : Config} {d : Draft}

/-- The place of the interface files of a run. -/
def interfacePlace (cwd : Place) (r : Request) (c : Config) : Place :=
  ((apiDirectory cwd ((Path.ofString r.base).resolve cwd) r.apiDir c).resolve cwd).parts

/-- The place of the copies that a run makes of them. -/
def stagingPlace (cwd : Place) (r : Request) (c : Config) : Place :=
  (((Path.ofString r.base).resolve cwd / c.crateName / c.witDir).resolve cwd).parts

theorem target_eq_resolve {cwd : Place} {p : Path} (hp : p.anchor ≠ .relative) :
    FileTree.target cwd p = (p.resolve cwd).parts := by
  rw [target_of_anchored hp, Path.resolve, Path.fullParts, if_neg hp]
  rfl

theorem anchored_apiDirectory {cwd : Place} {base : Path} {given : Option String}
    (hb : base.anchor ≠ .relative) : (apiDirectory cwd base given c).anchor ≠ .relative := by
  unfold apiDirectory
  split
  · exact nofun
  · exact nofun
  · exact Crate.anchored_append hb

/-- What follows on staging changes neither the interface files nor their copies. -/
theorem holdsCopies_of_rewrites {place staging : Place} {t : FileTree} (h : s.Rewrites Aside s')
    (hst : LogsAside staging s) (hc : HoldsCopies place staging t s.tree) :
    HoldsCopies place staging t s'.tree := by
  refine ⟨h.directory.2 hc.1, fun p c hp => ?_⟩
  rw [← hc.2 p c hp]
  rcases h.tree (staging ++ p) with he | ⟨ho, b, b', hb, -⟩
  · rw [he]
  · obtain ⟨name, bytes, rfl, -, hi⟩ := (hc.2 p _ hp).1 hb
    exact absurd ho (hst.not_open hi.1)

/-- The steps in which a draft is written and registered. -/
theorem finish_returns (h : finish d s = (.ok g, s')) :
    ∃ s₁ manifestTemplate s₂ staged s₃ workspaceUpdated s₄ projectsUpdated,
      d.crate.prepare d.base s = (.ok (), s₁) ∧
      Templates.loadManifest d.templatesDir s₁ = (.ok manifestTemplate, s₂) ∧
      { d.crate with manifestTemplate }.fill d.base d.api d.source s₂ = (.ok staged, s₃) ∧
      Manifest.registerMember d.base d.crate.name s₃ = (.ok workspaceUpdated, s₄) ∧
      updateProjects (d.crate.directory d.base) d.crate.name d.projects s₄ =
        (.ok projectsUpdated, s') ∧
      g = { ofDraft d with staged, workspaceUpdated, projectsUpdated } := by
  unfold finish at h
  obtain ⟨⟨⟩, s₁, h₁, h⟩ := bind_eq_ok_iff.1 h
  obtain ⟨template, s₂, h₂, h⟩ := bind_eq_ok_iff.1 h
  obtain ⟨staged, s₃, h₃, h⟩ := bind_eq_ok_iff.1 h
  obtain ⟨member, s₄, h₄, h⟩ := bind_eq_ok_iff.1 h
  obtain ⟨projects, s₅, h₅, h⟩ := bind_eq_ok_iff.1 h
  cases h
  exact ⟨s₁, template, s₂, staged, s₃, member, s₄, projects, h₁, h₂, h₃, h₄, h₅, rfl⟩

/-- Writing a draft says more about what it amounts to, but nothing else. -/
theorem finish_eq_ofDraft (h : finish d s = (.ok g, s')) :
    ∃ staged workspaceUpdated projectsUpdated,
      g = { ofDraft d with staged, workspaceUpdated, projectsUpdated } := by
  obtain ⟨_, _, _, staged, _, member, _, projects, -, -, -, -, -, hg⟩ := finish_returns h
  exact ⟨staged, member, projects, hg⟩

theorem run_returns (hd : r.dryRun = false) (h : run config r s = (.ok g, s')) :
    ∃ d s₁, draft config r s = (.ok d, s₁) ∧ finish d s₁ = (.ok g, s') := by
  unfold run at h
  obtain ⟨d, s₁, hdraft, h₁⟩ := bind_eq_ok_iff.1 h
  rw [if_neg (by rw [hd]; exact Bool.false_ne_true)] at h₁
  exact ⟨d, s₁, hdraft, h₁⟩

/-- What is done to write a draft: some of it grows aside of the interface files, then these are
staged, and then manifests are rewritten. -/
theorem grows_finish (hb : d.base.anchor ≠ .relative) (h : finish d s = (.ok g, s')) :
    ∃ s₁ s₂ staged, s.Grows Aside s₁ ∧
      Crate.stage d.api (d.crate.staging d.base) s₁ = (.ok staged, s₂) ∧ s₂.Rewrites Aside s' := by
  obtain ⟨s₁, template, s₂, staged, s₃, member, s₄, projects, h₁, h₂, h₃, h₄, h₅, -⟩ :=
    finish_returns h
  have hg₁ : s.Grows Aside s₁ := (Crate.grows_prepare hb).at h₁
  have hg₂ : s₁.Grows Aside s₂ := Templates.keeps_loadManifest.at h₂
  obtain ⟨s₂', hg₃, hstage⟩ := Crate.grows_fill hb h₃
  exact ⟨s₂', s₃, staged, (hg₁.trans hg₂).trans hg₃, hstage,
    (rewrites_register h₄ h₅).mono fun _ => AtManifest.aside⟩

/-- A run that returns keeps the interface files and makes copies of them if and only if the copies
have a directory of their own; otherwise the interface files are gone. -/
theorem run_stages_iff {s₀ : Session} (hs : s.Sound) (hd : r.dryRun = false)
    (hc : settings config ((Path.ofString r.base).resolve s.cwd) s = (.ok c, s₀))
    (hk : LogsAside (interfacePlace s.cwd r c) s) (h : run config r s = (.ok g, s')) :
    InterfacesKept (interfacePlace s.cwd r c) s.tree s'.tree ∧
      HoldsCopies (interfacePlace s.cwd r c) (stagingPlace s.cwd r c) s.tree s'.tree ↔
    stagingPlace s.cwd r c ≠ interfacePlace s.cwd r c := by
  obtain ⟨d, s₁, hdraft, hfinish⟩ := run_returns hd h
  obtain ⟨hbase, c', s₁', hc', hapi, hname, hwit, -, name, bytes, hi⟩ := draft_returns hdraft
  rw [hbase, hc] at hc'
  cases hc'
  have hb : d.base.anchor ≠ .relative := by
    rw [hbase]
    exact nofun
  have ha : d.api.anchor ≠ .relative := hapi ▸ anchored_apiDirectory hb
  have hg₁ : s.Grows Aside s₁ := (keeps_draft (R := Grows Aside)).at hdraft
  obtain ⟨s₄, s₂, staged, hg₂, hstage, hregister⟩ := grows_finish hb hfinish
  have hg := hg₁.trans hg₂
  have hplace : FileTree.target s₄.cwd d.api = interfacePlace s.cwd r c := by
    rw [hg.cwd, target_eq_resolve ha, hapi, hbase]
    rfl
  have hs' : (d.crate.staging d.base).anchor ≠ .relative :=
    Crate.anchored_append (Crate.anchored_append hb)
  have hstaging : FileTree.target s₄.cwd (d.crate.staging d.base) = stagingPlace s.cwd r c := by
    rw [hg.cwd, target_eq_resolve hs', Crate.staging, Crate.directory, hname, hwit, hbase]
    rfl
  have hsame (name : String) (bytes : Bytes) :
      s₄.tree.InterfaceIn (interfacePlace s.cwd r c) name bytes ↔
        s.tree.InterfaceIn (interfacePlace s.cwd r c) name bytes := hg.interfaceIn_iff hk
  obtain ⟨hk₂, hst₂, ⟨he, hnone⟩ | ⟨hne, hkept, hholds⟩⟩ := Crate.stage_returns (hg.sound hs)
    hs' hplace hstaging (fun k hs => hk k (hg.sink ▸ hs)) hstage
  · refine iff_of_false (fun hboth => ?_) (fun hne => hne he)
    rw [← hg.cwd, hplace] at hi
    obtain ⟨bytes', hi₂⟩ := hregister.interfaceIn (hboth.1 name bytes hi)
    exact hnone name bytes' hi₂
  · refine iff_of_true ⟨?_, ?_⟩ hne
    · intro name bytes hi
      have hi₂ := hkept name bytes ((hsame name bytes).2 hi)
      exact (hregister.grows.interfaceIn_iff hk₂).2 hi₂
    · simp only [HoldsCopies, hsame] at hholds
      exact holdsCopies_of_rewrites hregister hst₂ hholds

/-- A crate directory that holds an interface file where copies go by default. -/
def stagedBefore : Session where
  cwd := ["w"]
  tree := ⟨[(["w"], .directory), (["w", "caller-utils"], .directory),
    (["w", "caller-utils", "target"], .directory), (["w", "caller-utils", "target", "wit"], .directory),
    (["w", "caller-utils", "target", "wit", "a.wit"], .file (Utf8.encode "world a;".toList))]⟩

theorem run_stages_iff_stagedBefore :
    let r : Request := { apiDir := some "caller-utils/target/wit" }
    let place := ["w", "caller-utils", "target", "wit"]
    (∃ g s', run (some { root := .absolute ["w"], crateName := "calls" }) r stagedBefore = (.ok g, s') ∧
      InterfacesKept place stagedBefore.tree s'.tree ∧
      HoldsCopies place ["w", "calls", "target", "wit"] stagedBefore.tree s'.tree) ∧
    ∃ g s', run (some { root := .absolute ["w"] }) r stagedBefore = (.ok g, s') ∧
      ¬ (InterfacesKept place stagedBefore.tree s'.tree ∧
        HoldsCopies place place stagedBefore.tree s'.tree) := by
  intro r place
  have hs : stagedBefore.Sound := ⟨closed_of_entries (by decide), nofun⟩
  have key (c : Config) (staging : Place) (hreturns : (run (some c) r stagedBefore).1.isOk = true)
      (hplace : interfacePlace stagedBefore.cwd r c = place)
      (hstaging : stagingPlace stagedBefore.cwd r c = staging) :
      ∃ g s', run (some c) r stagedBefore = (.ok g, s') ∧
        (InterfacesKept place stagedBefore.tree s'.tree ∧
          HoldsCopies place staging stagedBefore.tree s'.tree ↔ staging ≠ place) := by
    obtain ⟨g, s', h⟩ := exists_of_isOk hreturns
    have hiff := run_stages_iff hs rfl rfl nofun h
    rw [hplace, hstaging] at hiff
    exact ⟨g, s', h, hiff⟩
  constructor
  · obtain ⟨g, s', h, hiff⟩ := key { root := .absolute ["w"], crateName := "calls" }
      ["w", "calls", "target", "wit"] (by decide +kernel) (by decide +kernel) (by decide +kernel)
    exact ⟨g, s', h, hiff.2 (by decide)⟩
  · obtain ⟨g, s', h, hiff⟩ := key { root := .absolute ["w"] } place (by decide +kernel)
      (by decide +kernel) (by decide +kernel)
    exact ⟨g, s', h, fun hboth => hiff.1 hboth rfl⟩

end Generation

end WitCaller
