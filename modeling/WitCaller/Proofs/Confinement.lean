import WitCaller.Proofs.Filling
import WitCaller.Proofs.IdleFiles

/-!
Runs whose changes stay in one directory. Writing a draft changes what is in the directory of its crate,
and elsewhere only the bytes of manifests that are there. Each step is followed under the condition that
the way to the crate is made of directories, so that no directory above it has to be made.
-/

namespace WitCaller
open Steps Run Session FileTree

theorem prefix_dropLast_of_ne {α : Type} {l m : List α} (h : l <+: m) (hne : l ≠ m) :
    l <+: m.dropLast := by
  by_cases hm : m = []
  · subst hm
    exact absurd (List.prefix_nil.1 h) hne
  · rw [← List.dropLast_concat_getLast hm, List.prefix_concat_iff,
      List.dropLast_concat_getLast hm] at h
    exact h.resolve_left hne

/-- A walk without `..` passes directories only. -/
theorem FileTree.directory_of_walk {t : FileTree} {here place front : Place} {names : List String}
    (h : t.walk here names = .ok place) (hplain : ".." ∉ names) (hfront : front <+: names)
    (hne : front ≠ names) : t.get? (here ++ front) = some .directory := by
  induction names generalizing here front with
  | nil => exact absurd (List.prefix_nil.1 hfront) hne
  | cons name names ih =>
    have hname : name ≠ ".." := fun he => hplain (he ▸ List.mem_cons_self)
    rw [walk_cons] at h
    split at h
    · cases h
    · cases h
    · next hhere =>
      rw [Path.advance, if_neg hname] at h
      cases front with
      | nil => rwa [List.append_nil]
      | cons first front =>
        obtain ⟨rfl, hprefix⟩ := List.cons_prefix_cons.1 hfront
        have hrest := ih h (fun hm => hplain (List.mem_cons_of_mem _ hm)) hprefix
          fun he => hne (by rw [he])
        rwa [List.append_assoc, List.singleton_append] at hrest

namespace Path
variable {p : Path} {parts : List String} {name : String} {cwd place : Place}

/-- That a path from the root has no `..`, so that its parts say where it leads. -/
structure Straight (p : Path) : Prop where
  anchored : p.anchor ≠ .relative
  plain : ".." ∉ p.parts

theorem straight_absolute (h : ".." ∉ parts) : (absolute parts).Straight := ⟨nofun, h⟩

namespace Straight

theorem target (h : p.Straight) : FileTree.target cwd p = p.parts := by
  rw [target_of_anchored h.anchored, normalize_of_plain h.plain]

theorem located {t : FileTree} (h : p.Straight) (hl : t.locate cwd p = .ok place) :
    place = p.parts := (locate_eq_ok hl).trans h.target

/-- The way to a directory is made of directories. -/
theorem directory {t : FileTree} {q : Place} (h : p.Straight) (hd : t.isDirectory cwd p = true)
    (hq : q <+: p.parts) : t.get? q = some .directory := by
  rw [FileTree.isDirectory, beq_iff_eq, FileTree.stat?] at hd
  cases hl : t.locate cwd p with
  | error e =>
    rw [hl] at hd
    cases hd
  | ok place =>
    rw [hl, h.located hl] at hd
    by_cases he : q = p.parts
    · rwa [he]
    · rw [locate_eq_ok_iff, if_neg h.anchored] at hl
      exact FileTree.directory_of_walk hl h.plain hq he

theorem parent (h : p.Straight) : p.parent.Straight :=
  ⟨h.anchored, fun hm => h.plain (List.dropLast_subset _ hm)⟩

theorem concat (h : p.Straight) (hn : name ≠ "..") :
    Straight ⟨p.anchor, p.parts ++ [name]⟩ := by
  refine ⟨h.anchored, fun hm => ?_⟩
  rcases List.mem_append.1 hm with hm | hm
  · exact h.plain hm
  · exact hn (List.mem_singleton.1 hm).symm

end Straight

end Path

namespace FileTree
variable {t t' : FileTree} {crate p : Place} {c : Content}

/-- The places of a tree that are neither at `crate` nor below it, in the order of the entries. -/
def outside (crate : Place) (t : FileTree) : List Place :=
  (t.entries.map Prod.fst).filter fun p => !crate.isPrefixOf p

theorem outside_put_inside (hp : crate <+: p) : (t.put p c).outside crate = t.outside crate := by
  have hdrop : [p].filter (fun p => !crate.isPrefixOf p) = [] := by
    simp [List.isPrefixOf_iff_prefix.2 hp]
  rw [outside, put, Assoc.keys_insert]
  split
  · rfl
  · rw [List.filter_append, hdrop, List.append_nil, outside]

theorem outside_put_there (h : (t.get? p).isSome) (hp : p ≠ []) :
    (t.put p c).outside crate = t.outside crate := by
  rw [outside, places_put h hp, outside]

theorem outside_discard {q : Place → Bool} (hq : ∀ p, q p = true → crate <+: p) :
    (t.discard q).outside crate = t.outside crate := by
  rw [outside, places_discard, List.filter_filter, outside]
  apply List.filter_congr
  intro p _
  cases hqp : q p with
  | false => rw [Bool.not_false, Bool.and_true]
  | true => rw [List.isPrefixOf_iff_prefix.2 (hq p hqp), Bool.not_true, Bool.false_and]

/-- The names in a directory, apart from that of `crate`, come from the places outside it. -/
theorem namesIn_congr (h : t'.outside crate = t.outside crate) :
    (t'.namesIn p).filter (fun name => !crate.isPrefixOf (p ++ [name])) =
      (t.namesIn p).filter fun name => !crate.isPrefixOf (p ++ [name]) := by
  have hplaces (t : FileTree) :
      (t.discard (crate.isPrefixOf ·)).entries.map Prod.fst = t.outside crate := places_discard
  rw [← namesIn_discard, ← namesIn_discard, namesIn_eq_places, namesIn_eq_places, hplaces, hplaces, h]

end FileTree

namespace Session
variable {crate p : Place} {V : Place → Prop} {s s₁ s' : Session} {c : Content} {b : Bytes}

/-- Outside the directory at `crate` some files have other bytes, at places with a property and where
reports go, and all else is as it was. -/
structure Confined (crate : Place) (V : Place → Prop) (s s' : Session) : Prop where
  cwd : s'.cwd = s.cwd
  sink : ∀ k, s'.sink = some k → s.sink = some k
  tree : ∀ p, ¬ crate <+: p → s'.tree.get? p = s.tree.get? p ∨
    s.Open V p ∧ ∃ b b', s.tree.get? p = some (.file b) ∧ s'.tree.get? p = some (.file b')
  places : s'.tree.outside crate = s.tree.outside crate

theorem Confined.trans (h : s.Confined crate V s₁) (h' : s₁.Confined crate V s') :
    s.Confined crate V s' := by
  refine ⟨h'.cwd.trans h.cwd, fun k hk => h.sink k (h'.sink k hk), fun p hp => ?_,
    h'.places.trans h.places⟩
  rcases h'.tree p hp with he | ⟨ho, b, b', hb, hb'⟩
  · rw [he]
    exact h.tree p hp
  · rcases h.tree p hp with he | ⟨ho₁, b₁, _, hb₁, -⟩
    · refine .inr ⟨ho.imp_right ?_, b, b', he ▸ hb, hb'⟩
      exact fun ⟨k, hk, hp⟩ => ⟨k, h.sink k hk, hp⟩
    · exact .inr ⟨ho₁, b₁, b', hb₁, hb'⟩

theorem Confined.mono {V' : Place → Prop} (h : s.Confined crate V s') (hv : ∀ p, V p → V' p) :
    s.Confined crate V' s' := by
  refine ⟨h.cwd, h.sink, fun p hp => ?_, h.places⟩
  rcases h.tree p hp with he | ⟨ho, hf⟩
  · exact .inl he
  · exact .inr ⟨ho.imp_left (hv p), hf⟩

theorem Confined.quiet (h : s.Confined crate V s') (hk : s.sink = none) : s'.sink = none := by
  refine Option.eq_none_iff_forall_ne_some.2 fun k hk' => ?_
  rw [h.sink k hk'] at hk
  cases hk

theorem Rewrites.confined (h : s.Rewrites V s') (hp : s'.tree.outside crate = s.tree.outside crate) :
    s.Confined crate V s' :=
  ⟨h.cwd, fun _ hk => h.sink ▸ hk, fun p _ => h.tree p, hp⟩

/-- The way to a place is made of directories. -/
def WayTo (crate : Place) (s : Session) : Prop :=
  ∀ p, p <+: crate.dropLast → s.tree.get? p = some .directory

theorem Confined.wayTo (h : s.Confined crate V s') (hw : s.WayTo crate) : s'.WayTo crate := by
  intro p hp
  have hd := hw p hp
  by_cases hin : crate <+: p
  · -- Only the root is above itself.
    have hlen := Nat.le_trans hin.length_le hp.length_le
    rw [List.length_dropLast] at hlen
    have hroot : crate = [] := List.length_eq_zero_iff.1 (by omega)
    rw [hroot] at hp
    rw [List.prefix_nil.1 hp]
    rfl
  · rcases h.tree p hin with he | ⟨-, b, b', hb, -⟩
    · rw [he, hd]
    · rw [hb] at hd
      cases hd

/-- That the way to a crate being made of directories, changes are confined to it. -/
def StaysIn (crate : Place) (V : Place → Prop) (s s' : Session) : Prop :=
  s.WayTo crate → s.Confined crate V s'

theorem outside_append {k : Sink} {e : Entry} {t : FileTree} :
    (k.append e t).outside crate = t.outside crate := by
  unfold Sink.append
  split
  · next b hb =>
    have hne : k.place ≠ [] := by
      intro he
      rw [he] at hb
      cases hb
    exact outside_put_there (by rw [hb]; rfl) hne
  · rfl

theorem outside_report {e : Entry} : (s.report e).tree.outside crate = s.tree.outside crate := by
  unfold report
  cases s.sink with
  | none => rfl
  | some k => exact outside_append

instance : Frame (StaysIn crate V) where
  refl _ _ := Rewrites.refl.confined rfl
  trans h h' hw := (h hw).trans (h' ((h hw).wayTo hw))
  report _ _ _ := rewrites_report.confined outside_report

theorem staysIn_put (hc : crate ≠ []) (hp : crate <+: p) :
    StaysIn crate V s { s with tree := s.tree.put p c } := by
  have hne : p ≠ [] := by
    rintro rfl
    exact hc (List.prefix_nil.1 hp)
  intro _
  refine ⟨rfl, fun _ => id, fun q hq => .inl ?_, outside_put_inside hp⟩
  rw [get?_put hne, if_neg]
  rintro rfl
  exact hq hp

/-- New bytes for a file that is there. -/
theorem staysIn_rewrite {bytes : Bytes} (hf : s.tree.get? p = some (.file b)) (hv : V p) :
    StaysIn crate V s { s with tree := s.tree.put p (.file bytes) } := by
  have hne : p ≠ [] := by
    rintro rfl
    cases hf
  exact fun _ => (Rewrites.put hf hv).confined (outside_put_there (by rw [hf]; rfl) hne)

end Session

namespace Manifest
variable {crate : Place} {V : Place → Prop} {directory : Path}

theorem retouches_staysIn (hv : ∀ cwd, V (FileTree.target cwd (fileIn directory))) :
    Retouches (StaysIn crate V) directory :=
  fun hl hf => staysIn_rewrite hf (locate_eq_ok hl ▸ hv _)

end Manifest

namespace Run
variable {crate : Place} {V : Place → Prop} {s s' : Session} {path : Path} {bytes : Bytes}
  {again : Bool}

theorem staysIn_writeBytes (hc : crate ≠ []) (ha : path.Straight) (hp : crate <+: path.parts) :
    Keeps (StaysIn crate V) (writeBytes path bytes) := by
  intro s
  unfold writeBytes
  rw [change_apply]
  split
  · next t hw =>
    obtain ⟨place, hl, -, rfl⟩ := write_eq_ok hw
    exact staysIn_put hc (ha.located hl ▸ hp)
  · exact Frame.refl s

/-- Whether a path leads into the crate or stands on the way to it. -/
def OnWay (crate : Place) (path : Path) : Prop :=
  path.Straight ∧ (crate <+: path.parts ∨ path.parts <+: crate)

theorem OnWay.parent (h : OnWay crate path) : OnWay crate path.parent := by
  obtain ⟨ha, hp⟩ := h
  refine ⟨ha.parent, ?_⟩
  have habove : path.parent.parts <+: path.parts := List.dropLast_prefix _
  rcases hp with hp | hp
  · by_cases he : crate = path.parts
    · exact .inr (he ▸ habove)
    · exact .inl (prefix_dropLast_of_ne hp he)
  · exact .inr (habove.trans hp)

/-- A directory that can be made on the way to the crate or below it lies in the crate. -/
theorem staysIn_of_makeDirectory {t : FileTree} (hc : crate ≠ []) (hp : OnWay crate path)
    (h : s.tree.makeDirectory s.cwd path = .ok t) : StaysIn crate V s { s with tree := t } := by
  obtain ⟨ha, hp⟩ := hp
  obtain ⟨place, hl, hn, rfl⟩ := makeDirectory_eq_ok h
  obtain rfl := ha.located hl
  by_cases hin : crate <+: path.parts
  · exact staysIn_put hc hin
  · intro hw
    have habove : path.parts <+: crate.dropLast := by
      apply prefix_dropLast_of_ne (hp.resolve_left hin)
      rintro he
      exact hin (he ▸ List.prefix_rfl)
    rw [hw _ habove] at hn
    cases hn

theorem staysIn_makeDirectories (hc : crate ≠ []) (ha : path.Straight)
    (hp : crate <+: path.parts ∨ path.parts <+: crate) :
    Keeps (StaysIn crate V) (makeDirectories path again) :=
  keeps_makeDirectories (staysIn_of_makeDirectory hc) OnWay.parent ⟨ha, hp⟩

theorem staysIn_drop {q : Place → Bool} (hq : ∀ p, q p = true → crate <+: p) :
    Keeps (StaysIn crate V) (drop q : Run Failure Unit) := by
  intro s _
  rw [drop_apply]
  refine ⟨rfl, fun k hk => ?_, fun p hp => .inl ?_, outside_discard hq⟩
  · exact (Option.filter_eq_some_iff.1 hk).1
  · by_cases hroot : p = []
    · rw [hroot]
      rfl
    · change (s.tree.discard q).get? p = _
      rw [get?_discard hroot, if_neg]
      exact fun hqp => hp (hq p hqp)

theorem staysIn_removeDirectory (ha : path.Straight) (hp : crate <+: path.parts) :
    Keeps (StaysIn crate V) (removeDirectory path) := by
  refine keeps_removeDirectory fun hl q hq => staysIn_drop fun x hx => ?_
  exact hp.trans (ha.located hl ▸ hq x hx)

end Run

namespace Crate
variable {place : Place} {V : Place → Prop} {api target : Path} {paths : List Path}

theorem staysIn_stage (hc : place ≠ []) (ha : target.Straight) (hp : place <+: target.parts) :
    Keeps (StaysIn place V) (stage api target) := by
  refine keeps_stage (staysIn_removeDirectory ha hp) (staysIn_makeDirectories hc ha (.inl hp))
    fun name hname bytes => ?_
  exact staysIn_writeBytes hc (ha.concat (ne_parent_of_isInterfaceName hname))
    (hp.trans (List.prefix_append _ _))

end Crate

theorem Path.absolute_div {parts more : List String} {name : String}
    (h : Path.ofString name = ⟨.relative, more⟩) :
    Path.absolute parts / name = Path.absolute (parts ++ more) := by
  change Path.append _ (Path.ofString name) = _
  rw [h, Path.append, if_pos rfl]
  rfl

namespace Crate
variable {crate : Crate} {base : Path} {place : Place} {wit : List String}

/-- A crate whose directory and whose copies lie where plain paths say. -/
structure LiesAt (crate : Crate) (base : Path) (place : Place) (wit : List String) : Prop where
  directory : crate.directory base = .absolute place
  staging : crate.staging base = .absolute (place ++ wit)
  ne_nil : place ≠ []
  plain : ".." ∉ place
  plainWit : ".." ∉ wit

namespace LiesAt
variable (h : crate.LiesAt base place wit)
include h

theorem manifest : crate.directory base / "Cargo.toml" = .absolute (place ++ ["Cargo.toml"]) := by
  rw [h.directory]
  exact Path.absolute_div (by decide +kernel)

theorem sourceDirectory : crate.sourceDirectory base = .absolute (place ++ ["src"]) := by
  rw [Crate.sourceDirectory, h.directory]
  exact Path.absolute_div (by decide +kernel)

theorem libraryFile : crate.libraryFile base = .absolute (place ++ ["src"] ++ ["lib.rs"]) := by
  rw [Crate.libraryFile, h.sourceDirectory]
  exact Path.absolute_div (by decide +kernel)

/-- A path to something in the crate. -/
theorem straight {parts : List String} (hparts : ".." ∉ parts) :
    (Path.absolute (place ++ parts)).Straight :=
  Path.straight_absolute fun hm => (List.mem_append.1 hm).elim h.plain hparts

/-- The template of the manifest has no say in where a crate lies. -/
theorem withTemplate {template : Except Utf8Error (Option Template)} :
    LiesAt { crate with manifestTemplate := template } base place wit :=
  ⟨h.directory, h.staging, h.ne_nil, h.plain, h.plainWit⟩

theorem staysIn_prepare {V : Place → Prop} : Keeps (StaysIn place V) (crate.prepare base) := by
  unfold prepare
  rw [h.sourceDirectory]
  exact Keeps.report.bind fun _ => staysIn_makeDirectories h.ne_nil (h.straight (by decide))
    (.inl (List.prefix_append _ _))

theorem staysIn_fill {V : Place → Prop} {api : Path} {source : String} :
    Keeps (StaysIn place V) (crate.fill base api source) := by
  have hwrite (parts : List String) (hparts : ".." ∉ parts) (text : String) :
      Keeps (StaysIn place V) (writeText (.absolute (place ++ parts)) text) :=
    staysIn_writeBytes h.ne_nil (h.straight hparts) (List.prefix_append _ _)
  have hstage : Keeps (StaysIn place V) (stage api (crate.staging base)) := by
    rw [h.staging]
    exact staysIn_stage h.ne_nil (h.straight h.plainWit) (List.prefix_append _ _)
  unfold fill
  rw [h.manifest, h.libraryFile, List.append_assoc]
  exact Keeps.ofExcept.bind fun _ => (hwrite _ (by decide) _).bind fun _ =>
    Keeps.report.bind fun _ => (hwrite _ (by decide) _).bind fun _ => hstage

end LiesAt

end Crate

namespace Generation
variable {d : Draft} {place : Place} {wit : List String}

/-- All that is done once the directories of the crate are there changes the crate, and the bytes of
manifests that are there. -/
theorem staysIn_of_returns {template : Except Utf8Error (Option Template)} {staged : List Path}
    {s₁ s₂ s₃ s₄ s₅ : Session} {member : Bool} {projects : List Path}
    (h : d.crate.LiesAt d.base place wit)
    (hload : Templates.loadManifest d.templatesDir s₁ = (.ok template, s₂))
    (hfill : { d.crate with manifestTemplate := template }.fill d.base d.api d.source s₂ =
      (.ok staged, s₃))
    (hmember : Manifest.registerMember d.base d.crate.name s₃ = (.ok member, s₄))
    (hprojects : updateProjects (d.crate.directory d.base) d.crate.name d.projects s₄ =
      (.ok projects, s₅)) : StaysIn place AtManifest s₁ s₅ := by
  have hmanifest (directory : Path) : Manifest.Retouches (StaysIn place AtManifest) directory :=
    Manifest.retouches_staysIn fun _ => Manifest.atManifest_target
  have h₂ : StaysIn place AtManifest s₁ s₂ := Templates.keeps_loadManifest.at hload
  have h₃ : StaysIn place AtManifest s₂ s₃ := h.withTemplate.staysIn_fill.at hfill
  have h₄ : StaysIn place AtManifest s₃ s₄ := (Manifest.keeps_registerMember (hmanifest _)).at hmember
  have h₅ : StaysIn place AtManifest s₄ s₅ :=
    (keeps_updateProjects fun project _ => hmanifest project).at hprojects
  exact Frame.trans (Frame.trans h₂ h₃) (Frame.trans h₄ h₅)

end Generation

end WitCaller
