import Mathlib.Data.List.Nodup
import WitCaller.Proofs.IdleFiles

/-!
How the world of a directory is chosen. The world sources of the directory decide, in the order of
their names, and one more file; what else is there, and in which order it is listed, does not matter.
-/

namespace WitCaller
open Session

namespace World

/-- Whether a file with these bytes has a text that declares a world. -/
def Declares (bytes : Bytes) (text : String) : Prop :=
  ∃ cs, Utf8.decode bytes = .ok cs ∧ text = String.ofList (Text.unifyLineEnds cs) ∧
    ∃ line ∈ Interface.trimmedLines text, "world ".toList <+: line

theorem isSource_iff {text : String} :
    isSource text = true ↔ ∃ line ∈ Interface.trimmedLines text, "world ".toList <+: line := by
  simp only [isSource, opensWorld, Interface.startsWith, List.any_eq_true, List.isPrefixOf_iff_prefix]

/-- The world for these names: the first one made for its types; else the first one, or the one made
for the types of that if it has a file. -/
def pick (hasTypes : String → Bool) (names : List String) : Option String :=
  (names.find? isTypesName).or
    (names.head?.map fun name => if hasTypes name then typesMark ++ name else name)

variable {hasTypes hasTypes' : String → Bool} {names : List String}

theorem pick_congr (h : ∀ name, names.find? isTypesName = none → names.head? = some name →
    hasTypes' name = hasTypes name) : pick hasTypes' names = pick hasTypes names := by
  unfold pick
  cases hn : names.find? isTypesName with
  | some name => rfl
  | none =>
    cases hp : names.head? with
    | none => rfl
    | some name => rw [Option.map_some, Option.map_some, h name hn hp]

theorem find?_plain (h : names.find? isTypesName = none) :
    names.find? (!isTypesName ·) = names.head? := by
  cases names with
  | nil => rfl
  | cons name names =>
    rw [List.find?_cons_of_pos, List.head?_cons]
    simpa using List.find?_eq_none.1 h name List.mem_cons_self

end World

namespace FileTree
variable {t t' : FileTree} {directory directory' p : Place} {name text : String}
  {sources sources' : List (String × String)} {c : Content}

/-- Whether an interface file of a directory declares a world, with its name and text. -/
def SourceIn (t : FileTree) (directory : Place) (name text : String) : Prop :=
  ∃ bytes, t.InterfaceIn directory name bytes ∧ World.Declares bytes text

/-- The world sources of a directory with their texts, in the order of their names. -/
structure SourcesOf (t : FileTree) (directory : Place) (sources : List (String × String)) : Prop where
  sorted : sources.Pairwise fun f g => f.1 < g.1
  mem_iff : ∀ name text, (name, text) ∈ sources ↔ t.SourceIn directory name text

/-- Order and members decide a list of sources. -/
theorem SourcesOf.eq (h : t.SourcesOf directory sources) (h' : t'.SourcesOf directory' sources')
    (hsame : ∀ name text, t'.SourceIn directory' name text ↔ t.SourceIn directory name text) :
    sources' = sources := by
  have hnodup {l : List (String × String)} (hl : l.Pairwise fun f g => f.1 < g.1) : l.Nodup := by
    refine hl.imp fun {f g} hlt he => ?_
    rw [he] at hlt
    exact String.lt_irrefl _ hlt
  have hperm : sources'.Perm sources := by
    rw [List.perm_ext_iff_of_nodup (hnodup h'.sorted) (hnodup h.sorted)]
    rintro ⟨name, text⟩
    rw [h'.mem_iff, h.mem_iff, hsame]
  exact hperm.eq_of_pairwise (fun _ _ _ _ hlt hgt => absurd hgt (String.lt_asymm hlt)) h'.sorted h.sorted

/-- What is put at a place is no matter for the sources, unless it is one or takes the place of one. -/
theorem sourceIn_put (hp : p ≠ []) (hold : ∀ bytes text, t.get? p = some (.file bytes) →
      ¬ World.Declares bytes text)
    (hnew : ∀ bytes text, c = .file bytes → ¬ World.Declares bytes text) :
    (t.put p c).SourceIn directory name text ↔ t.SourceIn directory name text := by
  unfold SourceIn InterfaceIn
  rw [get?_put hp]
  split
  · next he =>
    subst he
    constructor
    · rintro ⟨bytes, ⟨-, hc⟩, hw⟩
      exact absurd hw (hnew bytes text (Option.some.inj hc))
    · rintro ⟨bytes, ⟨-, hb⟩, hw⟩
      exact absurd hw (hold bytes text hb)
  · rfl

/-- Whether no place has two entries. -/
def ListedOnce (t : FileTree) : Prop := (t.entries.map Prod.fst).Nodup

theorem ListedOnce.put (h : t.ListedOnce) : (t.put p c).ListedOnce := Assoc.nodup_keys_insert h

theorem ListedOnce.namesIn (h : t.ListedOnce) : (t.namesIn directory).Nodup := by
  rw [namesIn_eq_places, perm_sortNames.nodup_iff]
  refine List.Nodup.filterMap (fun place place' name hn hn' => ?_) h
  have hplace {q : Place} (hq : name ∈ if q.dropLast = directory then q.getLast? else none) :
      q = directory ++ [name] := by
    split at hq
    · next hd =>
      obtain ⟨front, rfl⟩ := List.getLast?_eq_some_iff.1 hq
      rw [← hd, List.dropLast_concat]
    · cases hq
  rw [hplace hn, hplace hn']

end FileTree

namespace Session
open FileTree Run
variable {s : Session} {api : Path} {files : List Path} {p : Path} {text : String}

theorem list_of_isDirectory (hd : s.tree.isDirectory s.cwd api = true) :
    s.tree.locate s.cwd api = .ok (target s.cwd api) ∧
      s.tree.get? (target s.cwd api) = some .directory ∧
      s.tree.list s.cwd api = .ok (s.tree.namesIn (target s.cwd api)) := by
  unfold FileTree.isDirectory stat? at hd
  cases hl : s.tree.locate s.cwd api with
  | error e =>
    rw [hl] at hd
    cases hd
  | ok place =>
    have hg : s.tree.get? place = some .directory := by simpa [hl] using hd
    have hlist : s.tree.list s.cwd api = .ok (s.tree.namesIn place) := by
      simp only [FileTree.list, hl, bind, Except.bind, hg]
    exact locate_eq_ok hl ▸ ⟨rfl, hg, hlist⟩

theorem ordered_filesIn (ho : s.tree.ListedOnce) (hd : s.tree.isDirectory s.cwd api = true)
    (h : s.filesIn api = .ok files) : files.Pairwise fun p p' => p.name < p'.name := by
  have hnodup : files.Nodup := by
    cases (filesIn_of_list (list_of_isDirectory hd).2.2).symm.trans h
    refine List.Nodup.filter _ (List.Nodup.map (fun name name' he => ?_) ho.namesIn)
    exact List.singleton_injective (List.append_cancel_left (Path.mk.inj he).2)
  refine ((pairwise_filesIn h).and hnodup).imp_of_mem fun hp hp' ⟨hle, hne⟩ => ?_
  obtain ⟨name, -, rfl⟩ := mem_filesIn h hp
  obtain ⟨name', -, rfl⟩ := mem_filesIn h hp'
  rw [Path.name, Path.name, List.getLast?_concat, List.getLast?_concat] at hle ⊢
  by_contra hlt
  have he : name = name' := String.le_antisymm hle (String.not_lt.1 hlt)
  exact hne (by rw [he])

theorem worldText?_eq_some_iff {place : Place} {bytes : Bytes}
    (hl : s.tree.locate s.cwd p = .ok place) (hb : s.tree.get? place = some (.file bytes)) :
    s.worldText? p = some text ↔ World.Declares bytes text := by
  unfold worldText?
  constructor
  · intro h
    split at h
    · cases h
    · next cs hcs =>
      split at h
      · next hw =>
        cases h
        obtain ⟨place', bytes', hl', hb', chars, hdec, rfl⟩ := file_of_textAt hcs
        cases hl.symm.trans hl'
        cases hb.symm.trans hb'
        exact ⟨chars, hdec, rfl, World.isSource_iff.1 hw⟩
      · cases h
  · rintro ⟨cs, hdec, rfl, hw⟩
    rw [textAt_of_file hl hb hdec]
    exact if_pos (World.isSource_iff.2 hw)

/-- The world sources among files, with the names of these. -/
def sources (s : Session) (files : List Path) : List (String × String) :=
  files.filterMap fun p => (s.worldText? p).map (p.name, ·)

theorem texts_sources : (s.sources files).map Prod.snd = files.filterMap s.worldText? := by
  rw [sources, List.map_filterMap]
  refine List.filterMap_congr fun p _ => ?_
  rw [Option.map_map]
  exact Option.map_id'

theorem sourcesOf_sources (ho : s.tree.ListedOnce) (hd : s.tree.isDirectory s.cwd api = true)
    (h : s.filesIn api = .ok files) : s.tree.SourcesOf (target s.cwd api) (s.sources files) := by
  obtain ⟨hl, hg, -⟩ := list_of_isDirectory hd
  constructor
  · refine List.pairwise_filterMap.2 ((ordered_filesIn ho hd h).imp fun hlt f hf g hg' => ?_)
    obtain ⟨text, -, rfl⟩ := Option.map_eq_some_iff.1 hf
    obtain ⟨text', -, rfl⟩ := Option.map_eq_some_iff.1 hg'
    exact hlt
  · intro name text
    have hyields : Yields s (World.filesIn api) (s.filesIn api) := World.yields_filesIn
    obtain ⟨s', -, hrun⟩ := hyields s (Frame.refl s)
    rw [h] at hrun
    obtain ⟨directory, hl', -, hmem⟩ := World.mem_filesIn hrun
    cases hl.symm.trans hl'
    have hfile {name : String} {bytes : Bytes} (hi : s.tree.InterfaceIn (target s.cwd api) name bytes) :
        s.worldText? ⟨api.anchor, api.parts ++ [name]⟩ = some text ↔ World.Declares bytes text :=
      worldText?_eq_some_iff (locate_concat hl hg (ne_parent_of_isInterfaceName hi.1)) hi.2
    unfold sources
    rw [List.mem_filterMap]
    constructor
    · rintro ⟨p, hp, he⟩
      obtain ⟨name, bytes, rfl, hi⟩ := (hmem p).1 hp
      obtain ⟨text, ht, he⟩ := Option.map_eq_some_iff.1 he
      rw [Path.name, List.getLast?_concat] at he
      cases he
      exact ⟨bytes, hi, (hfile hi).1 ht⟩
    · rintro ⟨bytes, hi, hw⟩
      refine ⟨_, (hmem _).2 ⟨name, bytes, rfl, hi⟩, ?_⟩
      rw [(hfile hi).2 hw, Path.name, List.getLast?_concat]
      rfl

theorem worldName_eq_pick : s.worldName api files =
    (World.pick (fun name => s.tree.exists? s.cwd (typesFile api name)) (s.worldNames files)).elim
      (.error (.noWorld api)) .ok := by
  unfold worldName World.pick
  cases hn : (s.worldNames files).find? World.isTypesName with
  | some name => rfl
  | none =>
    rw [World.find?_plain hn]
    cases (s.worldNames files).head? with
    | none => rfl
    | some name => rfl

end Session

namespace World
open FileTree Run
variable {s : Session} {api : Path}

/-- The names that sources give their worlds, in order. -/
def namesOf (sources : List (String × String)) : List String := sources.filterMap fun f => name? f.2

theorem outcomes_by_sources {sources : List (String × String)}
    (hd : s.tree.isDirectory s.cwd api = true) (ho : s.tree.ListedOnce) (hk : s.Quiet api)
    (hsources : s.tree.SourcesOf (target s.cwd api) sources) :
    (importsIn api s).1 = .ok (sources.flatMap fun f => importsOf f.2) ∧
      (nameIn api s).1 = (pick (fun name => s.tree.exists? s.cwd (typesFile api name))
        (namesOf sources)).elim (.error (.noWorld api)) .ok := by
  obtain ⟨files, hfiles⟩ : ∃ files, s.filesIn api = .ok files :=
    ⟨_, filesIn_of_list (list_of_isDirectory hd).2.2⟩
  obtain rfl := (sourcesOf_sources ho hd hfiles).eq hsources fun _ _ => .rfl
  have himports : Yields s (importsIn api) (.ok ((files.filterMap s.worldText?).flatMap importsOf)) :=
    Yields.andThen (hfiles ▸ yields_filesIn) (yields_importsOfFiles (hk.aside hfiles))
  have hname : Yields s (nameIn api) (s.filesIn api >>= s.worldName api) := yields_nameIn hk
  rw [hfiles] at hname
  obtain ⟨s₁, -, h₁⟩ := himports s (Frame.refl s)
  obtain ⟨s₂, -, h₂⟩ := hname s (Frame.refl s)
  constructor
  · rw [h₁, ← texts_sources, List.flatMap_map]
  · rw [h₂]
    change s.worldName api files = _
    rw [worldName_eq_pick, worldNames, ← texts_sources, List.filterMap_map]
    rfl

/-- A directory listed out of order: a plain world behind one without a name and a file that is no
text, which the types of the plain world would have. -/
def scatteredWorlds : Session where
  cwd := ["w"]
  tree := ⟨[(["w", "api", "z.wit"], .file (Utf8.encode "world c \x7b\nimport y;\n\x7d".toList)),
    (["w", "api", "types-b.wit"], .file [0xFF]),
    (["w", "api", "d.wit"], .file (Utf8.encode "world b \x7b\n\x7d".toList)),
    (["w", "api", "c.wit"], .file (Utf8.encode "world \x7b\nimport x;\n\x7d".toList)),
    (["w", "api"], .directory), (["w"], .directory)]⟩

theorem filesIn_scatteredWorlds : scatteredWorlds.filesIn (.absolute ["w", "api"]) = .ok [
    .absolute ["w", "api", "c.wit"], .absolute ["w", "api", "d.wit"],
    .absolute ["w", "api", "types-b.wit"], .absolute ["w", "api", "z.wit"]] := by
  have hnames : scatteredWorlds.tree.namesIn ["w", "api"] =
      ["c.wit", "d.wit", "types-b.wit", "z.wit"] := by decide
  have hlist : scatteredWorlds.tree.list ["w"] (.absolute ["w", "api"]) =
      .ok ["c.wit", "d.wit", "types-b.wit", "z.wit"] := congrArg Except.ok hnames
  rw [filesIn_of_list hlist]
  exact congrArg Except.ok (by decide)

end World

end WitCaller
