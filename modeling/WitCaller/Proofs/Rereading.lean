import Mathlib.Data.List.Basic
import WitCaller.Proofs.Confinement

/-!
What a run reads is the same before and after changes that were confined to a crate, provided that the
ways of the run lead past the crate. So the same draft is made again.
-/

namespace WitCaller
open Steps Run Session FileTree

/-- What two lists have in common of what is kept is found in both, if no more than that is found. -/
theorem filter_eq_of_keep {α : Type} {l l' : List α} {keep f : α → Bool}
    (hl : l'.filter keep = l.filter keep) (hf : ∀ a, f a = true → keep a = true) :
    l'.filter f = l.filter f := by
  have hthrough (l : List α) : (l.filter keep).filter f = l.filter f := by
    rw [List.filter_filter]
    apply List.filter_congr
    intro a _
    cases hfa : f a with
    | false => rfl
    | true => rw [hf a hfa]; rfl
  rw [← hthrough l', hl, hthrough l]

namespace Path
variable {place cwd : Place} {p : Path} {name : String}

/-- That a way leads past a place: at no step it is there or below. -/
def Avoids (place cwd : Place) (p : Path) : Prop :=
  ∀ front, front <+: p.parts → ¬ place <+: FileTree.target cwd ⟨p.anchor, front⟩

theorem Straight.avoids (hp : p.Straight) (h : ¬ place <+: p.parts) : p.Avoids place cwd := by
  intro front hfront hin
  have hstraight : Straight ⟨p.anchor, front⟩ :=
    ⟨hp.anchored, fun hm => hp.plain (hfront.subset hm)⟩
  rw [hstraight.target] at hin
  exact h (hin.trans hfront)

theorem Avoids.concat (h : p.Avoids place cwd)
    (hn : ¬ place <+: FileTree.target cwd ⟨p.anchor, p.parts ++ [name]⟩) :
    Avoids place cwd ⟨p.anchor, p.parts ++ [name]⟩ := by
  intro front hfront
  rcases List.prefix_concat_iff.1 hfront with rfl | hfront
  · exact hn
  · exact h front hfront

theorem Avoids.target (h : p.Avoids place cwd) : ¬ place <+: FileTree.target cwd p :=
  h p.parts List.prefix_rfl

/-- A name in a directory past which the way leads, other than the place itself, is avoided as well. -/
theorem Avoids.entry (h : p.Avoids place cwd) (hn : name ≠ "..")
    (hne : FileTree.target cwd ⟨p.anchor, p.parts ++ [name]⟩ ≠ place) :
    Avoids place cwd ⟨p.anchor, p.parts ++ [name]⟩ := by
  apply h.concat
  intro hin
  rw [target_concat hn] at hin hne
  rcases List.prefix_concat_iff.1 hin with he | hin
  · exact hne he.symm
  · exact h.target hin

end Path

namespace Session
variable {place p : Place} {V : Place → Prop} {s s' : Session} {path api : Path} {files : List Path}

/-- The file that a world made for the types of the first one would have, where that is asked. -/
def typesFile? (s : Session) (api : Path) : Option Path :=
  match s.filesIn api with
  | .error _ => none
  | .ok files =>
    match (s.worldNames files).find? World.isTypesName,
        (s.worldNames files).find? (!World.isTypesName ·) with
    | none, some name => some (typesFile api name)
    | _, _ => none

/-- In a directory, the file for the settings of a run is looked for under its usual name. -/
theorem configFile_of_directory {parts : List String} (hplain : ".." ∉ parts)
    (hb : s.tree.isDirectory s.cwd (.absolute parts) = true) :
    s.configFile (.absolute parts) = .absolute (parts ++ [Config.fileName]) := by
  have hname : Path.ofString Config.fileName = ⟨.relative, [Config.fileName]⟩ := by decide +kernel
  have hfileName : Config.fileName ≠ ".." := by decide
  rw [configFile, if_pos hb, Path.absolute_div hname]
  change Path.absolute (Path.normalize (parts ++ [Config.fileName])) = _
  rw [Path.normalize_concat hfileName, Path.normalize_of_plain hplain]

/-- Changes confined to a crate that was no file before and is a directory now. No reports go to a
file. -/
structure Settled (place : Place) (s s' : Session) : Prop where
  confined : s.Confined place AtManifest s'
  quiet : s.sink = none
  noFile : ∀ b, s.tree.get? place ≠ some (.file b)
  directory : s'.tree.get? place = some .directory

theorem Confined.resembles (h : s.Confined place V s') (hp : ¬ place <+: p) :
    s.tree.Resembles s'.tree p := (h.tree p hp).imp_right And.right

namespace Settled
variable (h : s.Settled place s')
include h

theorem get? (hp : ¬ place <+: p) : s'.tree.get? p = s.tree.get? p ∨ AtManifest p := by
  refine (h.confined.tree p hp).imp_right fun ho => ho.1.resolve_right ?_
  rintro ⟨k, hk, -⟩
  rw [h.quiet] at hk
  cases hk

theorem locate (hp : path.Avoids place s.cwd) :
    s'.tree.locate s'.cwd path = s.tree.locate s.cwd path := by
  rw [h.confined.cwd]
  exact locate_congr fun front hfront => h.confined.resembles (hp front hfront)

theorem exists? (hp : path.Avoids place s.cwd) :
    s'.tree.exists? s'.cwd path = s.tree.exists? s.cwd path := by
  rw [h.confined.cwd]
  exact exists?_congr fun front hfront => h.confined.resembles (hp front hfront)

theorem isDirectory (hp : path.Avoids place s.cwd) :
    s'.tree.isDirectory s'.cwd path = s.tree.isDirectory s.cwd path := by
  rw [h.confined.cwd]
  exact isDirectory_congr fun front hfront => h.confined.resembles (hp front hfront)

theorem isFile (hp : path.Avoids place s.cwd) :
    s'.tree.isFile s'.cwd path = s.tree.isFile s.cwd path := by
  rw [h.confined.cwd]
  exact isFile_congr fun front hfront => h.confined.resembles (hp front hfront)

/-- Where the crate is no file is found, neither before nor now. -/
theorem isFile_eq_false (hp : FileTree.target s.cwd path = place) :
    s.tree.isFile s.cwd path = false ∧ s'.tree.isFile s'.cwd path = false := by
  rw [Bool.eq_false_iff, Bool.eq_false_iff, ne_eq, ne_eq, isFile_iff, isFile_iff]
  constructor
  · rintro ⟨q, bytes, hl, hb⟩
    rw [locate_eq_ok hl, hp] at hb
    exact h.noFile bytes hb
  · rintro ⟨q, bytes, hl, hb⟩
    rw [locate_eq_ok hl, h.confined.cwd, hp, h.directory] at hb
    cases hb

theorem textAt (hp : path.Avoids place s.cwd) (hm : ¬ AtManifest (FileTree.target s.cwd path)) :
    s'.textAt path = s.textAt path := by
  have hread : s'.tree.read s'.cwd path = s.tree.read s.cwd path := by
    unfold FileTree.read
    rw [h.locate hp]
    cases hl : s.tree.locate s.cwd path with
    | error e => rfl
    | ok q =>
      have hq := locate_eq_ok hl
      have hsame : s'.tree.get? q = s.tree.get? q :=
        (h.get? (hq ▸ hp.target)).resolve_right fun hv => hm (hq ▸ hv)
      simp only [bind, Except.bind, hsame]
  rw [Session.textAt, Session.textAt, hread]

/-- An entry of a directory past which the way leads is a file if it was one, even if it is the crate. -/
theorem isFile_entry {name : String} (hp : path.Avoids place s.cwd) (hn : name ≠ "..") :
    s'.tree.isFile s'.cwd ⟨path.anchor, path.parts ++ [name]⟩ =
      s.tree.isFile s.cwd ⟨path.anchor, path.parts ++ [name]⟩ := by
  by_cases he : FileTree.target s.cwd ⟨path.anchor, path.parts ++ [name]⟩ = place
  · obtain ⟨hnone, hnone'⟩ := h.isFile_eq_false he
    rw [hnone, hnone']
  · exact h.isFile (hp.entry hn he)

theorem list {names : List String} (hp : path.Avoids place s.cwd)
    (hlist : s.tree.list s.cwd path = .ok names) :
    names = s.tree.namesIn (FileTree.target s.cwd path) ∧
      s'.tree.list s'.cwd path = .ok (s'.tree.namesIn (FileTree.target s.cwd path)) := by
  obtain ⟨directory, hl, hd, rfl⟩ := FileTree.list_eq_ok hlist
  obtain rfl : directory = FileTree.target s.cwd path := locate_eq_ok hl
  have hd' : s'.tree.get? (FileTree.target s.cwd path) = some .directory := by
    rcases h.confined.resembles hp.target with he | ⟨b, b', hb, -⟩
    · rw [he, hd]
    · rw [hd] at hb
      cases hb
  refine ⟨rfl, ?_⟩
  unfold FileTree.list
  simp only [h.locate hp, hl, bind, Except.bind, hd']

/-- The interface files of a directory are found again. -/
theorem filesIn (hp : api.Avoids place s.cwd) (hfiles : s.filesIn api = .ok files) :
    s'.filesIn api = .ok files := by
  obtain ⟨names, hlist, -⟩ := exists_of_filesIn hfiles
  obtain ⟨rfl, hlist'⟩ := h.list hp hlist
  have hparent {name : String}
      (hs : ((⟨api.anchor, api.parts ++ [name]⟩ : Path).suffix == World.fileSuffix) = true) :
      name ≠ ".." :=
    ne_parent_of_isInterfaceName (suffix_eq_fileSuffix_iff.1 (beq_iff_eq.1 hs))
  rw [filesIn_of_list hlist', ← hfiles, filesIn_of_list hlist, List.filter_map, List.filter_map]
  congr 2
  refine (List.filter_congr fun name _ => ?_).trans
    (filter_eq_of_keep (namesIn_congr h.confined.places) fun name hfound => ?_)
  · rw [Function.comp, Function.comp]
    cases hs : ((⟨api.anchor, api.parts ++ [name]⟩ : Path).suffix == World.fileSuffix) with
    | false => rfl
    | true => rw [h.isFile_entry hp (hparent hs)]
  -- Only the name of the crate can be new or gone, and the crate is no file.
  · rw [Function.comp, Bool.and_eq_true] at hfound
    obtain ⟨hs, hfile⟩ := hfound
    rw [Bool.not_eq_true', ← Bool.not_eq_true, List.isPrefixOf_iff_prefix]
    intro hin
    rcases List.prefix_concat_iff.1 hin with he | hin
    · have htarget : FileTree.target s.cwd ⟨api.anchor, api.parts ++ [name]⟩ = place := by
        rw [target_concat (hparent hs), he]
      rw [(h.isFile_eq_false htarget).1] at hfile
      cases hfile
    · exact hp.target hin

/-- What can be read of an interface file can be read again. -/
theorem textAt_of_mem (hp : api.Avoids place s.cwd) (hfiles : s.filesIn api = .ok files)
    (hmem : path ∈ files) : s'.textAt path = s.textAt path := by
  have hfile := isFile_of_mem_filesIn hfiles hmem
  obtain ⟨name, hname, rfl⟩ := mem_filesIn hfiles hmem
  have hparent := ne_parent_of_isInterfaceName hname
  apply h.textAt
  · apply hp.entry hparent
    intro he
    rw [(h.isFile_eq_false he).1] at hfile
    cases hfile
  · rw [target_concat hparent]
    exact fun hm => not_aside_concat hname hm.aside

theorem worldTexts (hp : api.Avoids place s.cwd) (hfiles : s.filesIn api = .ok files) :
    files.filterMap s'.worldText? = files.filterMap s.worldText? := by
  apply List.filterMap_congr
  intro path hmem
  rw [worldText?, worldText?, h.textAt_of_mem hp hfiles hmem]

theorem interfaces (hp : api.Avoids place s.cwd) (hfiles : s.filesIn api = .ok files) :
    files.filterMap s'.interfaceAt? = files.filterMap s.interfaceAt? := by
  apply List.filterMap_congr
  intro path hmem
  rw [interfaceAt?, interfaceAt?, h.textAt_of_mem hp hfiles hmem]

/-- The world is the same if the file that may decide about it is. -/
theorem world {world : World} (hp : api.Avoids place s.cwd)
    (htypes : ∀ p ∈ s.typesFile? api, p.Avoids place s.cwd) (hworld : s.world api = .ok world) :
    s'.world api = .ok world := by
  unfold Session.world at hworld
  by_cases hd : s.tree.isDirectory s.cwd api = true
  · rw [if_pos hd] at hworld
    obtain ⟨files, hfiles, hworld⟩ := bind_eq_ok.1 hworld
    obtain ⟨name, hname, hworld⟩ := bind_eq_ok.1 hworld
    cases hworld
    rw [← h.worldTexts hp hfiles]
    refine world_of_files ((h.isDirectory hp).trans hd) (h.filesIn hp hfiles) ?_
    have hnames : s'.worldNames files = s.worldNames files := by
      rw [worldNames, worldNames, h.worldTexts hp hfiles]
    rw [← hname]
    refine worldName_congr hnames fun plain hfirst hplain => h.exists? (htypes _ ?_)
    rw [typesFile?, hfiles]
    simp only [hfirst, hplain]
    rfl
  · rw [if_neg hd] at hworld
    cases hworld

theorem template {dir : Path} {name : String} (hp : dir.Avoids place s.cwd)
    (hn : name ∈ Templates.fileNames) : s'.template (dir / name) = s.template (dir / name) := by
  obtain ⟨hpath, hparent, hmanifest, -⟩ := @Templates.div_fileName dir name hn
  rw [hpath]
  unfold Session.template
  by_cases he : FileTree.target s.cwd ⟨dir.anchor, dir.parts ++ [name]⟩ = place
  · obtain ⟨hnone, hnone'⟩ := h.isFile_eq_false he
    rw [hnone, hnone']
    rfl
  · have havoids := hp.entry hparent he
    have hm : ¬ AtManifest (FileTree.target s.cwd ⟨dir.anchor, dir.parts ++ [name]⟩) := by
      rw [target_concat hparent, AtManifest, List.getLast?_concat]
      exact fun hm => hmanifest (Option.some.inj hm)
    rw [h.isFile havoids, h.textAt havoids hm]

theorem stubSettings {c : Config} (hp : ∀ dir ∈ c.templatesDir, dir.Avoids place s.cwd) :
    s'.stubSettings c = s.stubSettings c := by
  have htemplates : s'.templates c.templatesDir = s.templates c.templatesDir :=
    templates_congr fun dir hdir _ hn => h.template (hp dir hdir) hn
  rw [Session.stubSettings, Session.stubSettings, htemplates]

/-- The same draft is made again. -/
theorem draft {base : Path} {r : Request} {c : Config} {d : Generation.Draft}
    (hp : (Generation.apiDirectory s.cwd base r.apiDir c).Avoids place s.cwd)
    (htypes : ∀ p ∈ s.typesFile? (Generation.apiDirectory s.cwd base r.apiDir c), p.Avoids place s.cwd)
    (htemplates : ∀ dir ∈ c.templatesDir, dir.Avoids place s.cwd)
    (hd : s.draft base r c = .ok d) : s'.draft base r c = .ok d := by
  obtain ⟨world, st, files, made, template, hworld, hst, hfiles, hmade, ht, rfl⟩ :=
    draft_eq_ok_iff.1 hd
  rw [draft_eq_ok_iff, h.confined.cwd]
  refine ⟨world, st, files, made, template, h.world hp htypes hworld, ?_, h.filesIn hp hfiles, ?_, ht, rfl⟩
  · rw [h.stubSettings htemplates, hst]
  · rw [h.interfaces hp hfiles, hmade]

/-- The same settings are found again. The file for them is not the crate: without that file, the crate
is called otherwise. -/
theorem settings {config : Option Config} {parts : List String} {c : Config}
    (hplain : ".." ∉ parts) (hplace : place = parts ++ [c.crateName])
    (hb : s.tree.isDirectory s.cwd (.absolute parts) = true)
    (hc : s.settings config (.absolute parts) = .ok c) :
    s'.settings config (.absolute parts) = .ok c := by
  cases config with
  | some _ => exact hc
  | none =>
    have hbase : Path.Avoids place s.cwd (.absolute parts) := by
      apply (Path.straight_absolute hplain).avoids
      intro hin
      have := hin.length_le
      rw [hplace, List.length_append] at this
      exact absurd this (by simp [Path.absolute])
    have hfileName : Config.fileName ≠ ".." := by decide
    have htarget : FileTree.target s.cwd (.absolute (parts ++ [Config.fileName])) =
        parts ++ [Config.fileName] := ((Path.straight_absolute hplain).concat hfileName).target
    have havoids (hne : parts ++ [Config.fileName] ≠ place) :
        Path.Avoids place s.cwd (.absolute (parts ++ [Config.fileName])) :=
      hbase.entry hfileName fun he => hne (htarget.symm.trans he)
    unfold Session.settings at hc ⊢
    rw [configFile_of_directory hplain hb] at hc
    rw [configFile_of_directory hplain ((h.isDirectory hbase).trans hb)]
    by_cases hex : s.tree.exists? s.cwd (.absolute (parts ++ [Config.fileName])) = true
    · rw [if_pos hex] at hc
      obtain ⟨text, ht, hc⟩ := bind_eq_ok.1 hc
      have hpast : Path.Avoids place s.cwd (.absolute (parts ++ [Config.fileName])) := by
        apply havoids
        intro he
        obtain ⟨q, bytes, hl, hb, -⟩ := file_of_textAt ht
        rw [locate_eq_ok hl, htarget, he] at hb
        exact h.noFile bytes hb
      have hm : ¬ AtManifest (FileTree.target s.cwd (.absolute (parts ++ [Config.fileName]))) := by
        rw [htarget, AtManifest, List.getLast?_concat]
        decide
      rw [if_pos ((h.exists? hpast).trans hex)]
      exact bind_eq_ok.2 ⟨text, (h.textAt hpast hm).trans ht, hc⟩
    · rw [if_neg hex] at hc
      cases hc
      have hpast : Path.Avoids place s.cwd (.absolute (parts ++ [Config.fileName])) := by
        apply havoids
        rw [hplace]
        intro he
        have hnames : [Config.fileName] = ["caller-utils"] := (List.append_inj' he rfl).2
        exact absurd hnames (by decide)
      rw [if_neg (by rw [h.exists? hpast]; exact hex)]

end Settled

end Session

end WitCaller
