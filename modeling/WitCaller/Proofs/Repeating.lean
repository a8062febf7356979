import WitCaller.Proofs.Rereading

/-!
Steps that find what they would make. Where a directory is there already, or a file with the bytes that
are written, or the copies that staging makes, nothing is changed by making them again. Each step is
shown to return, and to leave every place as it was.
-/

namespace WitCaller
open Steps Run Session FileTree

namespace FileTree
variable {t : FileTree} {cwd here p q : Place} {path : Path} {names : List String}

theorem Closed.above (hc : t.Closed) (hp : t.get? p = some .directory) (hq : q <+: p) :
    t.get? q = some .directory := by
  obtain ⟨rest, rfl⟩ := hq
  by_cases hrest : rest = []
  · rwa [hrest, List.append_nil] at hp
  · exact hc.directory_of_append hrest (by rw [hp]; rfl)

theorem walk_straight (hplain : ".." ∉ names)
    (h : ∀ front, front <+: names → front ≠ names → t.get? (here ++ front) = some .directory) :
    t.walk here names = .ok (here ++ names) := by
  induction names generalizing here with
  | nil => rw [List.append_nil, walk]
  | cons name names ih =>
    have hhere := h [] List.nil_prefix (List.cons_ne_nil _ _).symm
    rw [List.append_nil] at hhere
    have hname : name ≠ ".." := fun he => hplain (he ▸ List.mem_cons_self)
    have hrest : t.walk (here ++ [name]) names = .ok (here ++ [name] ++ names) := by
      refine ih (fun hm => hplain (List.mem_cons_of_mem _ hm)) fun front hfront hne => ?_
      rw [List.append_assoc]
      exact h (name :: front) (List.cons_prefix_cons.2 ⟨rfl, hfront⟩)
        fun he => hne (List.cons.inj he).2
    rw [walk_cons, hhere]
    simp only [Path.advance, if_neg hname, hrest, List.append_assoc, List.singleton_append]

/-- A path from the root without `..` leads where it says, if the way is made of directories. -/
theorem locate_straight (hp : path.Straight)
    (h : ∀ q, q <+: path.parts.dropLast → t.get? q = some .directory) :
    t.locate cwd path = .ok path.parts := by
  rw [locate_eq_ok_iff, if_neg hp.anchored]
  have hwalk : t.walk [] path.parts = .ok ([] ++ path.parts) :=
    walk_straight hp.plain fun front hfront hne => h front (prefix_dropLast_of_ne hfront hne)
  exact hwalk

theorem Closed.locate_straight (hc : t.Closed) (hp : path.Straight)
    (hd : t.get? path.parts.dropLast = some .directory) : t.locate cwd path = .ok path.parts :=
  FileTree.locate_straight hp fun _ hq => hc.above hd hq

end FileTree

namespace Session
variable {crate p : Place} {V : Place → Prop} {s₀ s s' : Session} {c : Content} {path : Path}

theorem WayTo.of_directory (hc : s.tree.Closed) (hd : s.tree.get? p = some .directory)
    (hin : crate.dropLast <+: p) : s.WayTo crate :=
  fun _ hq => hc.above hd (hq.trans hin)

/-- Without a file for reports, nothing is to be asked of it. -/
theorem forall_sink {P : Sink → Prop} (hk : s.sink = none) : ∀ k, s.sink = some k → P k := by
  intro k hsink
  rw [hk] at hsink
  cases hsink

/-- Every place is as it was, the places outside the crate are listed as they were, and no reports go
to a file. -/
structure Unchanged (crate : Place) (s₀ s : Session) : Prop where
  cwd : s.cwd = s₀.cwd
  quiet : s₀.sink = none
  sink : s.sink = none
  tree : ∀ p, s.tree.get? p = s₀.tree.get? p
  places : s.tree.outside crate = s₀.tree.outside crate

namespace Unchanged

theorem trans (h : s₀.Unchanged crate s) (h' : s.Unchanged crate s') : s₀.Unchanged crate s' :=
  ⟨h'.cwd.trans h.cwd, h.quiet, h'.sink, fun p => (h'.tree p).trans (h.tree p), h'.places.trans h.places⟩

theorem confined (h : s₀.Unchanged crate s) : s₀.Confined crate V s :=
  ⟨h.cwd, forall_sink h.sink, fun p _ => .inl (h.tree p), h.places⟩

theorem sound (h : s₀.Unchanged crate s) (hc : s₀.tree.Closed) : s.Sound := by
  refine ⟨fun p c hp => ?_, forall_sink h.sink⟩
  rw [h.tree] at hp ⊢
  exact hc p c hp

theorem interfaceIn_iff {directory : Place} {name : String} {bytes : Bytes}
    (h : s₀.Unchanged crate s) :
    s.tree.InterfaceIn directory name bytes ↔ s₀.tree.InterfaceIn directory name bytes := by
  rw [InterfaceIn, InterfaceIn, h.tree]

theorem exists? (h : s₀.Unchanged crate s) :
    s.tree.exists? s.cwd path = s₀.tree.exists? s₀.cwd path := by
  rw [h.cwd]
  exact exists?_congr fun _ _ => .inl (h.tree _)

theorem textAt (h : s₀.Unchanged crate s) : s.textAt path = s₀.textAt path := by
  have hread : s.tree.read s.cwd path = s₀.tree.read s₀.cwd path := by
    have hlocate : s.tree.locate s₀.cwd path = s₀.tree.locate s₀.cwd path :=
      locate_congr fun _ _ => .inl (h.tree _)
    rw [FileTree.read, FileTree.read, h.cwd, hlocate]
    cases s₀.tree.locate s₀.cwd path with
    | error e => rfl
    | ok place => simp only [bind, Except.bind, h.tree]
  rw [Session.textAt, Session.textAt, hread]

theorem template (h : s₀.Unchanged crate s) : s.template path = s₀.template path := by
  have hfile : s.tree.isFile s.cwd path = s₀.tree.isFile s₀.cwd path := by
    rw [h.cwd]
    exact isFile_congr fun _ _ => .inl (h.tree _)
  rw [Session.template, Session.template, hfile, h.textAt]

theorem isDirectory (h : s₀.Unchanged crate s) :
    s.tree.isDirectory s.cwd path = s₀.tree.isDirectory s₀.cwd path := by
  rw [h.cwd]
  exact isDirectory_congr fun _ _ => .inl (h.tree _)

theorem settings {config : Option Config} (h : s₀.Unchanged crate s) :
    s.settings config path = s₀.settings config path := by
  have hfile : s.configFile path = s₀.configFile path := by
    rw [configFile, configFile, h.isDirectory, h.cwd]
  unfold Session.settings
  rw [hfile, h.exists?, h.textAt]

/-- What is there may be put there. -/
theorem put (hk : s.sink = none) (hp : s.tree.get? p = some c) (hne : p ≠ []) (hin : crate <+: p) :
    s.Unchanged crate { s with tree := s.tree.put p c } := by
  refine ⟨rfl, hk, hk, fun q => ?_, outside_put_inside hin⟩
  rw [get?_put hne]
  split
  · next he => rw [← he, hp]
  · rfl

end Unchanged

/-- If reports go to no file, they change nothing. -/
theorem Reported.unchanged (h : s.Reported s') (hk : s.sink = none) : s.Unchanged crate s' := by
  refine ⟨h.rewrites.cwd, hk, h.rewrites.sink.trans hk, fun p => ?_, ?_⟩
  · rcases h.rewrites.tree p with he | ⟨ho | ⟨k, hs, -⟩, -⟩
    · exact he
    · exact ho.elim
    · rw [hk] at hs
      cases hs
  · rw [outside, h.places, outside]

end Session

namespace Run
variable {ε α β : Type} {crate : Place} {s₀ s : Session} {m : Run ε α} {f : α → Run ε β}
  {P : α → Prop} {Q : β → Prop} {path : Path} {text : String} {bytes : Bytes}

/-- Wherever nothing was changed since `s₀`, a run returns something with a property and changes
nothing. -/
def Repeats (crate : Place) (s₀ : Session) (m : Run ε α) (P : α → Prop) : Prop :=
  ∀ s, s₀.Unchanged crate s → ∃ a s', P a ∧ s₀.Unchanged crate s' ∧ m s = (.ok a, s')

namespace Repeats

theorem pure {a : α} (ha : P a) : Repeats crate s₀ (Pure.pure a : Run ε α) P :=
  fun s hs => ⟨a, s, ha, hs, rfl⟩

theorem bind (hm : Repeats crate s₀ m P) (hf : ∀ a, P a → Repeats crate s₀ (f a) Q) :
    Repeats crate s₀ (m >>= f) Q := by
  intro s hs
  obtain ⟨a, s₁, ha, hs₁, h₁⟩ := hm s hs
  obtain ⟨b, s₂, hb, hs₂, h₂⟩ := hf a ha s₁ hs₁
  exact ⟨b, s₂, hb, hs₂, (bind_ok h₁).trans h₂⟩

/-- A run that only looks and reports. -/
theorem of_yields {a : α} (ha : P a) (h : ∀ s, s₀.Unchanged crate s → Yields s m (.ok a)) :
    Repeats crate s₀ m P := by
  intro s hs
  obtain ⟨s', hs', hm⟩ := h s hs s (Frame.refl s)
  exact ⟨a, s', ha, hs.trans (hs'.unchanged hs.sink), hm⟩

theorem report {e : Entry} : Repeats crate s₀ (Run.report e : Run ε Unit) fun _ => True :=
  of_yields trivial fun _ _ => Yields.report

end Repeats

/-- A file can be written in a directory unless it is one itself. -/
theorem writeBytes_of_directory (hc : s.tree.Closed) (hp : path.Straight)
    (hd : s.tree.get? path.parts.dropLast = some .directory)
    (hn : s.tree.get? path.parts ≠ some .directory) :
    writeBytes path bytes s = (.ok (), { s with tree := s.tree.put path.parts (.file bytes) }) := by
  have hwrite : s.tree.write s.cwd path bytes = .ok (s.tree.put path.parts (.file bytes)) := by
    unfold FileTree.write
    rw [hc.locate_straight hp hd]
    simp only [bind, Except.bind]
  unfold writeBytes
  rw [change_apply, hwrite]

/-- A directory can be made in another one unless something is there. -/
theorem makeDirectories_of_directory {again : Bool} (hc : s.tree.Closed) (hp : path.Straight)
    (hd : s.tree.get? path.parts.dropLast = some .directory) (hn : s.tree.get? path.parts = none) :
    makeDirectories path again s = (.ok (), { s with tree := s.tree.put path.parts .directory }) := by
  have hmake : s.tree.makeDirectory s.cwd path = .ok (s.tree.put path.parts .directory) := by
    unfold FileTree.makeDirectory
    rw [hc.locate_straight hp hd]
    simp only [bind, Except.bind, hn]
  rw [makeDirectories_apply, hmake]

section
variable (hc : s₀.tree.Closed) (hp : path.Straight)
include hc hp

theorem repeats_makeDirectories (hd : s₀.tree.get? path.parts = some .directory) :
    Repeats crate s₀ (makeDirectories path true) fun _ => True := by
  intro s hs
  have hd' : s.tree.get? path.parts = some .directory := (hs.tree _).trans hd
  have hlocate : s.tree.locate s.cwd path = .ok path.parts :=
    FileTree.locate_straight hp fun q hq =>
      (hs.sound hc).closed.above hd' (hq.trans (List.dropLast_prefix _))
  have hmake : s.tree.makeDirectory s.cwd path = .error ⟨.alreadyThere, path⟩ := by
    unfold FileTree.makeDirectory
    rw [hlocate]
    simp only [bind, Except.bind, hd']
  have hthere : s.tree.isDirectory s.cwd path = true := by
    rw [FileTree.isDirectory, stat?, hlocate]
    simp only [hd', beq_self_eq_true]
  refine ⟨(), s, trivial, hs, ?_⟩
  rw [makeDirectories_apply, hmake]
  simp [hthere]

theorem repeats_writeText (hne : crate ≠ []) (hin : crate <+: path.parts)
    (hf : s₀.tree.get? path.parts = some (.file (Utf8.encode text.toList))) :
    Repeats crate s₀ (writeText path text) fun _ => True := by
  intro s hs
  have hf' : s.tree.get? path.parts = some (.file (Utf8.encode text.toList)) := (hs.tree _).trans hf
  have hclosed := (hs.sound hc).closed
  have hne' : path.parts ≠ [] := fun he => hne (List.prefix_nil.1 (he ▸ hin))
  refine ⟨(), _, trivial, hs.trans (.put hs.sink hf' hne' hin), ?_⟩
  apply writeBytes_of_directory hclosed hp (hclosed _ _ hf')
  rw [hf']
  rintro ⟨⟩

end

/-- A directory to which a plain path leads can be removed. -/
theorem removeDirectory_of_directory (hc : s.tree.Closed) (hp : path.Straight)
    (hd : s.tree.get? path.parts = some .directory) :
    ∃ s', removeDirectory path s = (.ok (), s') := by
  have habove : ∀ q, q <+: path.parts.dropLast → s.tree.get? q = some .directory :=
    fun q hq => hc.above hd (hq.trans (List.dropLast_prefix _))
  have hlocate : s.tree.locate s.cwd path = .ok path.parts := FileTree.locate_straight hp habove
  -- What is in the directory goes first; the way to it stays.
  have hagain : (s.tree.discard (isBelow path.parts)).locate s.cwd path = .ok path.parts := by
    apply FileTree.locate_straight hp
    intro q hq
    by_cases hroot : q = []
    · rw [hroot]
      rfl
    · rw [get?_discard hroot, if_neg, habove q hq]
      rw [isBelow_iff]
      rintro ⟨hin, -⟩
      have hlen := Nat.le_trans hin.length_le hq.length_le
      rw [List.length_dropLast] at hlen
      have hparts : path.parts = [] := List.length_eq_zero_iff.1 (by omega)
      rw [hparts] at hq
      exact hroot (List.prefix_nil.1 hq)
  unfold removeDirectory
  rw [bind_ok look_apply, bind_ok (ofExcept_eq_ok.2 ⟨hlocate, rfl⟩), bind_ok look_apply, hd]
  simp only
  rw [bind_ok drop_apply, bind_ok look_apply, bind_ok (ofExcept_eq_ok.2 ⟨hagain, rfl⟩)]
  exact ⟨_, drop_apply⟩

end Run

namespace Crate
variable {place : Place} {s₀ s : Session} {api target : Path} {files : List Path}

section
variable (hs : s.Sound) (hk : s.sink = none) (ht : target.Straight) (ha : api.Straight)
  (hd : s.tree.get? target.parts = some .directory)
include hs hk ht ha hd

/-- One interface file can be copied to a directory unless a directory there has its name. -/
theorem copied_of_directory {name : String} {bytes : Bytes}
    (hfree : s.tree.get? (target.parts ++ [name]) ≠ some .directory)
    (hi : s.tree.InterfaceIn api.parts name bytes) :
    ∃ s₁, Copied api.parts target.parts (· = name) s s₁ ∧ s₁.Sound ∧
      ∀ {rest staged s'}, copyAll target rest s₁ = (.ok staged, s') →
        ∃ staged', copyAll target (⟨api.anchor, api.parts ++ [name]⟩ :: rest) s =
          (.ok staged', s') := by
  have hname := ne_parent_of_isInterfaceName hi.1
  have hread : readBytes ⟨api.anchor, api.parts ++ [name]⟩ s = (.ok bytes, s) := by
    have hl : s.tree.locate s.cwd ⟨api.anchor, api.parts ++ [name]⟩ = .ok (api.parts ++ [name]) :=
      hs.closed.locate_straight (ha.concat hname) (hs.closed _ _ hi.2)
    exact readBytes_eq_ok.2 ⟨FileTree.read_eq_ok.2 ⟨_, hl, hi.2⟩, rfl⟩
  have hto : s.tree.get? (target.parts ++ [name]).dropLast = some .directory := by
    rw [List.dropLast_concat, hd]
  have hwrite : writeBytes ⟨target.anchor, target.parts ++ [name]⟩ bytes s =
      (.ok (), { s with tree := s.tree.put (target.parts ++ [name]) (.file bytes) }) :=
    writeBytes_of_directory hs.closed (ht.concat hname) hto hfree
  have hsource : Path.name ⟨api.anchor, api.parts ++ [name]⟩ = name := by simp [Path.name]
  have hnote (s : Session) : (report ⟨.debug, .assembler, s!"Copied {name} to {target}"⟩ :
      Run Failure Unit) s = (.ok (), s.report ⟨.debug, .assembler, s!"Copied {name} to {target}"⟩) :=
    report_apply
  refine ⟨_, copied_one hi.1 ht.target hi.2 (forall_sink hk) hwrite (hnote _), ?_, ?_⟩
  · have hgrows : Keeps (Grows fun _ => True)
        (writeBytes ⟨target.anchor, target.parts ++ [name]⟩ bytes) :=
      fun _ => grows_write ht.anchored trivial
    exact (rewrites_report (W := fun _ => True)).sound ((hgrows.at hwrite).sound hs)
  · intro rest staged s' hrest
    refine ⟨⟨target.anchor, target.parts ++ [name]⟩ :: staged, ?_⟩
    unfold copyAll
    rw [hsource, bind_ok hread, bind_ok hwrite]
    exact (bind_ok (hnote _)).trans (bind_ok hrest)

/-- Interface files can be copied to a directory other than theirs in which no directory has the name
of one. -/
theorem copyAll_of_directory (hne : target.parts ≠ api.parts)
    (hfree : ∀ name, s.tree.get? (target.parts ++ [name]) ≠ some .directory)
    (hfiles : ∀ p ∈ files, ∃ name bytes, p = ⟨api.anchor, api.parts ++ [name]⟩ ∧
      s.tree.InterfaceIn api.parts name bytes) :
    ∃ staged s', copyAll target files s = (.ok staged, s') := by
  induction files generalizing s with
  | nil => exact ⟨[], s, rfl⟩
  | cons source rest ih =>
    obtain ⟨⟨name, bytes, rfl, hi⟩, hrest⟩ := List.forall_mem_cons.1 hfiles
    obtain ⟨s₁, hcopied, hs₁, hcons⟩ :=
      copied_of_directory hs hk ht ha hd (hfree name) hi
    -- One copy more, and everything else is as it was.
    have hd₁ : s₁.tree.get? target.parts = some .directory := by
      rw [hcopied.rest _ _ (forall_sink hk), hd]
      rintro _ - he
      exact absurd (List.self_eq_append_right.1 he) (List.cons_ne_nil _ _)
    have hfree₁ (other : String) : s₁.tree.get? (target.parts ++ [other]) ≠ some .directory := by
      by_cases hother : other = name
      · rw [hother, hcopied.copy name bytes rfl hi]
        rintro ⟨⟩
      · rw [hcopied.rest _ _ (forall_sink hk)]
        · exact hfree other
        · rintro _ rfl he
          exact hother (List.cons.inj (List.append_cancel_left he)).1
    have hfiles₁ : ∀ p ∈ rest, ∃ name bytes, p = ⟨api.anchor, api.parts ++ [name]⟩ ∧
        s₁.tree.InterfaceIn api.parts name bytes := by
      intro p hp
      obtain ⟨other, bytes', he, hi'⟩ := hrest p hp
      exact ⟨other, bytes', he, hcopied.interfaceIn hne (forall_sink hk) hi'⟩
    obtain ⟨staged, s₂, h₂⟩ := ih hs₁ (hcopied.sink.trans hk) hd₁ hfree₁ hfiles₁
    obtain ⟨staged', h'⟩ := hcons h₂
    exact ⟨staged', s₂, h'⟩

end

section
variable (hs : s.Sound) (ht : target.Straight) (hd : s.tree.get? target.parts = some .directory)
  (hne : place ≠ []) (hin : place <+: target.parts)
include hs ht hd hne hin

/-- A directory in the crate can be removed and made again, and then it is empty. -/
theorem remade_of_directory : ∃ s₁ s', removeDirectory target s = (.ok (), s₁) ∧
    makeDirectories target false s₁ = (.ok (), s') ∧ s'.Sound ∧
    s'.tree.get? target.parts = some .directory ∧
    (∀ q, q ≠ [] → s'.tree.get? (target.parts ++ q) = none) ∧
    s.Confined place (fun _ => False) s' := by
  have hparts : target.parts ≠ [] := fun he => hne (List.prefix_nil.1 (he ▸ hin))
  obtain ⟨s₁, hremove⟩ := removeDirectory_of_directory hs.closed ht hd
  obtain ⟨place', hl, -, hgone⟩ := removeDirectory_returns hremove
  rw [ht.located hl] at hgone
  have hs₁ : s₁.Sound := hgone.sound hs
  have hnone : s₁.tree.get? target.parts = none := by rw [hgone.tree _ hparts, if_pos List.prefix_rfl]
  have hparent : s₁.tree.get? target.parts.dropLast = some .directory := by
    by_cases hroot : target.parts.dropLast = []
    · rw [hroot]
      rfl
    · rw [hgone.tree _ hroot, if_neg, hs.closed _ _ hd]
      intro hpre
      have hlen := hpre.length_le
      have hpos := List.length_pos_iff.2 hparts
      rw [List.length_dropLast] at hlen
      omega
  obtain ⟨s', hmake⟩ : ∃ s', makeDirectories target false s₁ = (.ok (), s') :=
    ⟨_, makeDirectories_of_directory hs₁.closed ht hparent hnone⟩
  obtain ⟨hgrows, hd', hempty⟩ := makeDirectories_empty (W := fun _ => True) ht.anchored hs₁ hmake
  rw [ht.target] at hd' hempty
  have hremoved : StaysIn place (fun _ => False) s s₁ :=
    (staysIn_removeDirectory ht hin).at hremove
  have hmade : StaysIn place (fun _ => False) s₁ s' :=
    (staysIn_makeDirectories hne ht (.inl hin)).at hmake
  have hway : s.WayTo place := .of_directory hs.closed hd ((List.dropLast_prefix _).trans hin)
  exact ⟨s₁, s', hremove, hmake, hgrows.sound hs₁, hd', hempty, Frame.trans hremoved hmade hway⟩

/-- Copies of the interface files that are there can be staged again. -/
theorem stage_of_directory (hk : s.sink = none) (ha : api.Straight) (hout : ¬ place <+: api.parts)
    (hfiles : s.filesIn api = .ok files) :
    ∃ staged s', stage api target s = (.ok staged, s') := by
  have hplace : s.tree.get? place = some .directory := hs.closed.above hd hin
  have hthere : s.tree.exists? s.cwd target = true := by
    rw [FileTree.exists?, stat?, hs.closed.locate_straight ht (hs.closed _ _ hd)]
    simp only [hd, Option.isSome_some]
  obtain ⟨s₁, hnote⟩ : ∃ s₁, note .debug s!"Removing existing staging directory {target}" s =
    (.ok (), s₁) := ⟨_, report_apply⟩
  have hreported : s.Reported s₁ := by
    cases hnote
    exact reported_report
  have hsame : s.Unchanged place s₁ := hreported.unchanged hk
  obtain ⟨s₂, s₃, hremove, hmake, hs₃, hd₃, hempty, hconfined⟩ := remade_of_directory
    (hsame.sound hs.closed) ht ((hsame.tree _).trans hd) hne hin
  -- What was done stays in the crate, so the same interface files are found.
  have hsettled : s.Settled place s₃ := by
    refine ⟨(hsame.confined.trans hconfined).mono fun _ => False.elim, hk, fun b hb => ?_,
      hs₃.closed.above hd₃ hin⟩
    rw [hplace] at hb
    cases hb
  obtain ⟨s₄, -, hlist⟩ := World.yields_filesIn s₃ (Frame.refl s₃)
  rw [hsettled.filesIn (ha.avoids hout) hfiles] at hlist
  obtain ⟨rfl, -⟩ := World.filesIn_returns hlist
  obtain ⟨directory, hl, -, hmem⟩ := World.mem_filesIn hlist
  obtain rfl := ha.located hl
  obtain ⟨staged, s', hcopy⟩ := copyAll_of_directory hs₃ (hconfined.quiet hsame.sink) ht ha hd₃
    (fun he => hout (he ▸ hin)) (fun name => by simp [hempty [name] (List.cons_ne_nil _ _)])
    fun p hp => (hmem p).1 hp
  refine ⟨staged, s', ?_⟩
  unfold stage
  rw [bind_ok exists?_apply, if_pos hthere, bind_ok hnote, bind_ok hremove]
  exact (bind_ok hmake).trans ((bind_ok hlist).trans hcopy)

end

/-- Two trees with the same interface files hold the same copies of them. -/
theorem get?_of_holdsCopies {directory staging p : Place} {t t' : FileTree}
    (h : HoldsCopies directory staging t t) (h' : HoldsCopies directory staging t t') :
    t'.get? (staging ++ p) = t.get? (staging ++ p) := by
  by_cases hp : p = []
  · rw [hp, List.append_nil, h.1, h'.1]
  · ext c
    rw [h.2 p c hp, h'.2 p c hp]

/-- Where copies of the interface files are staged, staging changes nothing. -/
theorem repeats_stage (hc : s₀.tree.Closed) (ht : target.Straight) (hne : place ≠ [])
    (hin : place <+: target.parts) (ha : api.Straight) (hout : ¬ place <+: api.parts)
    (hfiles : s₀.filesIn api = .ok files)
    (hcopies : HoldsCopies api.parts target.parts s₀.tree s₀.tree) :
    Repeats place s₀ (stage api target) fun _ => True := by
  intro s hs
  have hsound := hs.sound hc
  have hd : s.tree.get? target.parts = some .directory := (hs.tree _).trans hcopies.1
  have hplace : s₀.tree.get? place = some .directory := hc.above hcopies.1 hin
  have hsettled : s₀.Settled place s := by
    refine ⟨hs.confined, hs.quiet, fun b hb => ?_, (hs.tree _).trans hplace⟩
    rw [hplace] at hb
    cases hb
  have hfiles' := hsettled.filesIn (ha.avoids hout) hfiles
  obtain ⟨staged, s', hstage⟩ := stage_of_directory hsound ht hd hne hin hs.sink ha hout hfiles'
  have hway {crate : Place} (hcrate : crate <+: target.parts) : s.WayTo crate :=
    .of_directory hsound.closed hd ((List.dropLast_prefix _).trans hcrate)
  have hplaces : s.Confined place (fun _ => False) s' :=
    (staysIn_stage hne ht hin).at hstage (hway hin)
  have hparts : target.parts ≠ [] := fun he => hne (List.prefix_nil.1 (he ▸ hin))
  have helsewhere : s.Confined target.parts (fun _ => False) s' :=
    (staysIn_stage hparts ht List.prefix_rfl).at hstage (hway List.prefix_rfl)
  obtain ⟨-, -, ⟨he, -⟩ | ⟨-, -, hholds⟩⟩ :=
    stage_returns hsound ht.anchored ha.target ht.target (forall_sink hs.sink) hstage
  · exact absurd (he ▸ hin) hout
  · have hcopies' : HoldsCopies api.parts target.parts s.tree s.tree := by
      simp only [HoldsCopies, hs.interfaceIn_iff, hs.tree]
      exact hcopies
    have hquiet := hplaces.quiet hs.sink
    refine ⟨staged, s', trivial, hs.trans ⟨hplaces.cwd, hs.sink, hquiet, fun p => ?_, hplaces.places⟩,
      hstage⟩
    by_cases hp : target.parts <+: p
    · obtain ⟨q, rfl⟩ := hp
      exact get?_of_holdsCopies hcopies' hholds
    · refine (helsewhere.tree p hp).resolve_right ?_
      rintro ⟨hv | ⟨k, hk, -⟩, -⟩
      · exact hv
      · simp [hs.sink] at hk

end Crate

end WitCaller
