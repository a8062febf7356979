import WitCaller.Proofs.DraftOutcome

/-!
Idle files: interface files that are no text, and those whose interface cannot be added to a library.
A draft is the same without them, unless one of them decides which world is taken.
-/

namespace WitCaller
open Session

theorem filterMap_filter_congr {α β : Type} {f f' : α → Option β} {keep : α → Bool} {l : List α}
    (h : ∀ a ∈ l, keep a = true → f' a = f a) (hn : ∀ a ∈ l, keep a = false → f a = none) :
    (l.filter keep).filterMap f' = l.filterMap f := by
  induction l with
  | nil => rfl
  | cons a l ih =>
    obtain ⟨ha, hl⟩ := List.forall_mem_cons.1 h
    obtain ⟨hna, hnl⟩ := List.forall_mem_cons.1 hn
    cases hk : keep a with
    | true =>
      rw [List.filter_cons_of_pos hk, List.filterMap_cons, List.filterMap_cons, ha hk, ih hl hnl]
    | false =>
      rw [List.filter_cons_of_neg (by simp [hk]), List.filterMap_cons, hna hk, ih hl hnl]

namespace FileTree
variable {t : FileTree} {p : Place} {q : Place → Bool} {l : List String}

theorem pairwise_insertName {name : String} (h : l.Pairwise (· ≤ ·)) :
    (insertName name l).Pairwise (· ≤ ·) := by
  induction l with
  | nil => exact List.pairwise_singleton _ _
  | cons other rest ih =>
    obtain ⟨hother, hrest⟩ := List.pairwise_cons.1 h
    rw [insertName]
    split
    · next hle =>
      refine List.pairwise_cons.2 ⟨?_, h⟩
      rintro a (_ | ⟨_, ha⟩)
      · exact hle
      · exact String.le_trans hle (hother a ha)
    · next hle =>
      refine List.pairwise_cons.2 ⟨fun a ha => ?_, ih hrest⟩
      rcases List.mem_cons.1 (perm_insertName.mem_iff.1 ha) with rfl | ha
      · exact (String.le_total _ _).resolve_left hle
      · exact hother a ha

theorem pairwise_sortNames : (sortNames l).Pairwise (· ≤ ·) := by
  induction l with
  | nil => exact List.Pairwise.nil
  | cons name l ih => exact pairwise_insertName ih

theorem sortNames_filter {keep : String → Bool} :
    sortNames (l.filter keep) = (sortNames l).filter keep := by
  have hperm : (sortNames (l.filter keep)).Perm ((sortNames l).filter keep) :=
    perm_sortNames.trans (perm_sortNames.symm.filter keep)
  exact hperm.eq_of_pairwise (fun _ _ _ _ => String.le_antisymm) pairwise_sortNames
    (pairwise_sortNames.filter keep)

theorem places_discard :
    (t.discard q).entries.map Prod.fst = (t.entries.map Prod.fst).filter fun place => !q place := by
  rw [discard, List.filter_map]
  rfl

theorem namesIn_discard :
    (t.discard q).namesIn p = (t.namesIn p).filter fun name => !q (p ++ [name]) := by
  rw [namesIn_eq_places, namesIn_eq_places, places_discard, ← sortNames_filter]
  congr 1
  induction t.entries.map Prod.fst with
  | nil => rfl
  | cons place places ih =>
    by_cases hp : place.dropLast = p ∧ ∃ name, place.getLast? = some name
    · obtain ⟨hd, name, hname⟩ := hp
      have hplace : p ++ [name] = place := by
        obtain ⟨front, rfl⟩ := List.getLast?_eq_some_iff.1 hname
        rw [← hd, List.dropLast_concat]
      rw [List.filterMap_cons, if_pos hd, hname]
      cases hq : q place with
      | true =>
        rw [List.filter_cons_of_neg (by simp [hq]), List.filter_cons_of_neg (by simp [hplace, hq]), ih]
      | false =>
        rw [List.filter_cons_of_pos (by simp [hq]), List.filter_cons_of_pos (by simp [hplace, hq]),
          List.filterMap_cons, if_pos hd, hname, ih]
    · have hnone : (if place.dropLast = p then place.getLast? else none) = none := by
        split
        · next hd =>
          cases hl : place.getLast? with
          | none => rfl
          | some name => exact absurd ⟨hd, name, hl⟩ hp
        · rfl
      rw [List.filterMap_cons, hnone]
      cases hq : q place with
      | true => rw [List.filter_cons_of_neg (by simp [hq]), ih]
      | false => rw [List.filter_cons_of_pos (by simp [hq]), List.filterMap_cons, hnone, ih]

end FileTree

namespace Session
variable {s : Session} {q : Place → Bool} {p api : Path} {place : Place} {files : List Path}
  {text : List Char}

/-- The session without what is at some places. -/
def without (q : Place → Bool) (s : Session) : Session := { s with tree := s.tree.discard q }

/-- Whether all places with a property hold files. -/
def HoldsFiles (s : Session) (q : Place → Bool) : Prop :=
  ∀ place, q place = true → ∃ bytes, s.tree.get? place = some (.file bytes)

namespace HoldsFiles
variable (hq : s.HoldsFiles q)
include hq

theorem get? : (s.without q).tree.get? place = if q place then none else s.tree.get? place := by
  by_cases hp : place = []
  · subst hp
    rw [if_neg]
    · rfl
    · intro hroot
      obtain ⟨bytes, hb⟩ := hq [] hroot
      cases hb
  · exact FileTree.get?_discard hp

theorem directory : (s.without q).tree.get? place = some .directory ↔
    s.tree.get? place = some .directory := by
  rw [hq.get?]
  split
  · next hp =>
    obtain ⟨bytes, hb⟩ := hq place hp
    simp [hb]
  · rfl

theorem locate : (s.without q).tree.locate s.cwd p = .ok place ↔ s.tree.locate s.cwd p = .ok place :=
  ⟨FileTree.locate_of_directories fun _ => hq.directory.1,
    FileTree.locate_of_directories fun _ => hq.directory.2⟩

theorem stat? : (s.without q).tree.stat? s.cwd p =
    if q (FileTree.target s.cwd p) then none else s.tree.stat? s.cwd p := by
  unfold FileTree.stat?
  cases hl : s.tree.locate s.cwd p with
  | ok place =>
    rw [hq.locate.2 hl, ← FileTree.locate_eq_ok hl]
    exact hq.get?
  | error e =>
    cases hl' : (s.without q).tree.locate s.cwd p with
    | ok place =>
      rw [hq.locate.1 hl'] at hl
      cases hl
    | error e' => exact (ite_self _).symm

theorem isDirectory : (s.without q).tree.isDirectory s.cwd p = s.tree.isDirectory s.cwd p := by
  rw [FileTree.isDirectory, FileTree.isDirectory, hq.stat?]
  split
  · next hp =>
    obtain ⟨bytes, hb⟩ := hq _ hp
    unfold FileTree.stat?
    cases hl : s.tree.locate s.cwd p with
    | error e => rfl
    | ok place =>
      simp only [FileTree.locate_eq_ok hl, hb]
      rfl
  · rfl

theorem isFile : (s.without q).tree.isFile s.cwd p =
    (s.tree.isFile s.cwd p && !q (FileTree.target s.cwd p)) := by
  rw [FileTree.isFile, FileTree.isFile, hq.stat?]
  cases q (FileTree.target s.cwd p) with
  | true => exact (Bool.and_false _).symm
  | false => exact (Bool.and_true _).symm

theorem exists? (hp : q (FileTree.target s.cwd p) = false) :
    (s.without q).tree.exists? s.cwd p = s.tree.exists? s.cwd p := by
  rw [FileTree.exists?, FileTree.exists?, hq.stat?, hp]
  rfl

theorem textAt_of_isFile (hf : s.tree.isFile s.cwd p = true) (hp : q (FileTree.target s.cwd p) = false) :
    (s.without q).textAt p = s.textAt p := by
  obtain ⟨place, bytes, hl, hb⟩ := FileTree.isFile_iff.1 hf
  have hb' : (s.without q).tree.get? place = some (.file bytes) := by
    rw [hq.get?, FileTree.locate_eq_ok hl, hp, ← FileTree.locate_eq_ok hl]
    exact hb
  have hread : s.tree.read s.cwd p = .ok bytes := FileTree.read_eq_ok.2 ⟨place, hl, hb⟩
  have hread' : (s.without q).tree.read s.cwd p = .ok bytes :=
    FileTree.read_eq_ok.2 ⟨place, hq.locate.2 hl, hb'⟩
  unfold textAt
  rw [hread]
  change ((s.without q).tree.read s.cwd p).mapError Failure.os >>= _ = _
  rw [hread']

theorem textAt (ht : s.textAt p = .ok text) (hp : q (FileTree.target s.cwd p) = false) :
    (s.without q).textAt p = .ok text := by
  obtain ⟨place, bytes, hl, hb, -⟩ := file_of_textAt ht
  rw [hq.textAt_of_isFile (FileTree.isFile_iff.2 ⟨place, bytes, hl, hb⟩) hp, ht]

theorem filesIn (h : s.filesIn api = .ok files) :
    (s.without q).filesIn api = .ok (files.filter fun p => !q (FileTree.target s.cwd p)) := by
  obtain ⟨names, hlist, rfl⟩ := exists_of_filesIn h
  obtain ⟨place, hl, hd, rfl⟩ := FileTree.list_eq_ok hlist
  have hlist' : (s.without q).tree.list (s.without q).cwd api =
      .ok ((s.tree.namesIn place).filter fun name => !q (place ++ [name])) := by
    rw [← FileTree.namesIn_discard]
    unfold FileTree.list
    change (do let place ← (s.without q).tree.locate s.cwd api; _) = _
    simp only [hq.locate.2 hl, bind, Except.bind, hq.directory.2 hd]
    rfl
  rw [filesIn_of_list hlist']
  congr 1
  rw [List.filter_map, List.filter_map, List.filter_map, List.filter_filter, List.filter_filter]
  congr 1
  refine List.filter_congr fun name _ => ?_
  change ((_ == World.fileSuffix) && (s.without q).tree.isFile s.cwd _ && !q (place ++ [name])) = _
  rw [hq.isFile]
  -- A name with the suffix of interface files is not `..`, so the path leads into the directory.
  by_cases hn : IsInterfaceName name
  · have htarget : FileTree.target s.cwd ⟨api.anchor, api.parts ++ [name]⟩ = place ++ [name] := by
      rw [FileTree.target_concat (FileTree.ne_parent_of_isInterfaceName hn), FileTree.locate_eq_ok hl]
    simp only [Function.comp, htarget]
    cases q (place ++ [name]) <;> simp
  · have hs : ((⟨api.anchor, api.parts ++ [name]⟩ : Path).suffix == World.fileSuffix) = false := by
      rw [beq_eq_false_iff_ne]
      exact fun hs => hn (suffix_eq_fileSuffix_iff.1 hs)
    simp only [Function.comp, hs, Bool.false_and, Bool.and_false]

end HoldsFiles

theorem isFile_of_mem_filesIn (h : s.filesIn api = .ok files) (hp : p ∈ files) :
    s.tree.isFile s.cwd p = true := by
  obtain ⟨names, -, rfl⟩ := exists_of_filesIn h
  exact (Bool.and_eq_true_iff.1 (List.mem_filter.1 hp).2).2

/-- The files of a directory are found in the order of their names. -/
theorem pairwise_filesIn (h : s.filesIn api = .ok files) :
    files.Pairwise fun p p' => p.name ≤ p'.name := by
  obtain ⟨names, hlist, rfl⟩ := exists_of_filesIn h
  obtain ⟨place, -, -, rfl⟩ := FileTree.list_eq_ok hlist
  refine List.Pairwise.filter _ (List.pairwise_map.2 ?_)
  simp only [Path.name, List.getLast?_concat, Option.getD_some]
  exact FileTree.pairwise_sortNames

/-- Whether a file is no text, or declares an interface that cannot be added to a library. -/
def Spoiled (s : Session) (st : StubSettings) (p : Path) : Prop :=
  (∃ e, s.textAt p = .error e) ∨ ∃ i e, s.interfaceAt? p = some i ∧ Library.outcomeOf st i = .error e

/-- Whether a place is that of the file which makes a world for the types of the first plain one. -/
def IsTypesPlace (s : Session) (api : Path) (files : List Path) (place : Place) : Prop :=
  ∃ name, (s.worldNames files).find? (!World.isTypesName ·) = some name ∧
    FileTree.target s.cwd (typesFile api name) = place

/-- Whether a place is that of a spoiled file among these, which is no types file either. -/
def Idle (s : Session) (st : StubSettings) (api : Path) (files : List Path) (place : Place) : Prop :=
  (∃ p ∈ files, FileTree.target s.cwd p = place ∧ s.Spoiled st p) ∧ ¬ s.IsTypesPlace api files place

variable {st : StubSettings} {world : World} {i : Interface}

theorem spoiled_of_fails
    (h : (s.interfaceAt? p).map (fun i => (Library.outcomeOf st i).isOk) = some false) :
    s.Spoiled st p := by
  obtain ⟨i, hi, ho⟩ := Option.map_eq_some_iff.1 h
  cases he : Library.outcomeOf st i with
  | error e => exact .inr ⟨i, e, hi, he⟩
  | ok made =>
    rw [he] at ho
    cases ho

theorem Spoiled.worldText? (h : s.Spoiled st p) : s.worldText? p = none := by
  unfold Session.worldText?
  rcases h with ⟨e, he⟩ | ⟨i, e, hi, -⟩
  · rw [he]
  · unfold interfaceAt? at hi
    split at hi
    · cases hi
    · split at hi
      · cases hi
      · next hw => exact if_neg hw

theorem Spoiled.stubs? (h : s.Spoiled st p) : (s.interfaceAt? p).bind (·.stubs? st) = none := by
  rcases h with ⟨e, he⟩ | ⟨i, e, hi, ho⟩
  · rw [interfaceAt?, he]
    rfl
  · rw [hi, Option.bind_some, ← Option.not_isSome_iff_eq_none, ← Library.outcomeOf_eq_true_iff, ho]
    exact nofun

section
variable (hfiles : s.filesIn api = .ok files) (hq : ∀ place, q place = true → s.Idle st api files place)
include hfiles hq

theorem holdsFiles_of_idle : s.HoldsFiles q := by
  intro place hp
  obtain ⟨⟨p, hmem, rfl, -⟩, -⟩ := hq place hp
  obtain ⟨place, bytes, hl, hb⟩ := FileTree.isFile_iff.1 (isFile_of_mem_filesIn hfiles hmem)
  exact ⟨bytes, FileTree.locate_eq_ok hl ▸ hb⟩

omit hq in
/-- Files of a directory with names that differ lie at different places. -/
theorem target_injOn {p' : Path} (hp : p ∈ files) (hp' : p' ∈ files)
    (h : FileTree.target s.cwd p = FileTree.target s.cwd p') : p = p' := by
  obtain ⟨name, hn, rfl⟩ := mem_filesIn hfiles hp
  obtain ⟨name', hn', rfl⟩ := mem_filesIn hfiles hp'
  rw [FileTree.target_concat (FileTree.ne_parent_of_isInterfaceName hn),
    FileTree.target_concat (FileTree.ne_parent_of_isInterfaceName hn')] at h
  rw [(List.append_inj_right' h rfl)]

theorem spoiled_of_idle (hp : p ∈ files) (hd : q (FileTree.target s.cwd p) = true) : s.Spoiled st p := by
  obtain ⟨⟨p', hmem, he, hs⟩, -⟩ := hq _ hd
  exact target_injOn hfiles hmem hp he ▸ hs

/-- A place whose last name is not that of an interface file is kept. -/
theorem kept_of_aside (ha : Aside place) : q place = false := by
  rw [Bool.eq_false_iff]
  intro hd
  obtain ⟨⟨p, hmem, rfl, -⟩, -⟩ := hq place hd
  obtain ⟨name, hn, rfl⟩ := mem_filesIn hfiles hmem
  rw [FileTree.target_concat (FileTree.ne_parent_of_isInterfaceName hn)] at ha
  exact not_aside_concat hn ha

theorem worldTexts_without :
    (files.filter fun p => !q (FileTree.target s.cwd p)).filterMap (s.without q).worldText? =
      files.filterMap s.worldText? := by
  have hfree := holdsFiles_of_idle hfiles hq
  refine filterMap_filter_congr (fun p hp hk => ?_) fun p hp hk => ?_
  · unfold Session.worldText?
    rw [hfree.textAt_of_isFile (isFile_of_mem_filesIn hfiles hp) (by simpa using hk)]
  · exact (spoiled_of_idle hfiles hq hp (by simpa using hk)).worldText?

theorem interfaceAt?_without (hp : p ∈ files) (hk : q (FileTree.target s.cwd p) = false) :
    (s.without q).interfaceAt? p = s.interfaceAt? p := by
  have hfree := holdsFiles_of_idle hfiles hq
  unfold Session.interfaceAt?
  rw [hfree.textAt_of_isFile (isFile_of_mem_filesIn hfiles hp) hk]

/-- What comes of the stubs of interfaces is the same without idle files. -/
theorem filterMap_without {β : Type} {f : Interface → Option β}
    (hf : ∀ i, i.stubs? st = none → f i = none) :
    ((files.filter fun p => !q (FileTree.target s.cwd p)).filterMap (s.without q).interfaceAt?).filterMap
      f = (files.filterMap s.interfaceAt?).filterMap f := by
  rw [List.filterMap_filterMap, List.filterMap_filterMap]
  refine filterMap_filter_congr (fun p hp hk => ?_) fun p hp hk => ?_
  · rw [interfaceAt?_without hfiles hq hp (by simpa using hk)]
  · have hs := (spoiled_of_idle hfiles hq hp (by simpa using hk)).stubs?
    cases hi : s.interfaceAt? p with
    | none => rfl
    | some i =>
      rw [hi] at hs
      exact hf i hs

theorem collectAll_without {made : List String × Library}
    (h : Library.collectAll st (files.filterMap s.interfaceAt?) {} = .ok made) :
    ∃ lib, Library.collectAll st ((files.filter fun p => !q (FileTree.target s.cwd p)).filterMap
        (s.without q).interfaceAt?) {} = .ok (made.1, lib) ∧ lib.modules = made.2.modules ∧
      lib.usesHashMap = made.2.usesHashMap := by
  unfold Library.collectAll at h ⊢
  cases herror : (files.filterMap s.interfaceAt?).findSome? (Library.templateError? st) with
  | some e =>
    rw [herror] at h
    cases h
  | none =>
    rw [herror] at h
    cases h
    have hnone : ((files.filter fun p => !q (FileTree.target s.cwd p)).filterMap
        (s.without q).interfaceAt?).findSome? (Library.templateError? st) = none := by
      rw [List.findSome?_eq_none_iff] at herror ⊢
      intro i hi
      obtain ⟨p, hp, hpi⟩ := List.mem_filterMap.1 hi
      obtain ⟨hp, hk⟩ := List.mem_filter.1 hp
      rw [interfaceAt?_without hfiles hq hp (by simpa using hk)] at hpi
      exact herror i (List.mem_filterMap.2 ⟨p, hp, hpi⟩)
    have hmodules := filterMap_without hfiles hq (f := Library.moduleOf? st) fun i hi => by
      rw [Library.moduleOf?, hi]
      rfl
    have hstubs := filterMap_without hfiles hq (f := fun i => i.stubs? st) fun i hi => hi
    rw [hnone]
    refine ⟨_, by rw [hmodules], ?_, ?_⟩
    · rw [Library.modules_gather, Library.modules_gather, hmodules]
    · rw [Library.usesHashMap_gather, Library.usesHashMap_gather, hstubs]

theorem world_without (h : s.world api = .ok world) : (s.without q).world api = .ok world := by
  have hfree := holdsFiles_of_idle hfiles hq
  unfold Session.world at h
  by_cases hd : s.tree.isDirectory s.cwd api = true
  · rw [if_pos hd, hfiles] at h
    change s.worldName api files >>= _ = _ at h
    obtain ⟨name, hname, h⟩ := bind_eq_ok.1 h
    cases h
    have htexts := worldTexts_without hfiles hq
    rw [← htexts]
    refine world_of_files (hfree.isDirectory.trans hd) (hfree.filesIn hfiles) ?_
    have hnames : (s.without q).worldNames (files.filter fun p => !q (FileTree.target s.cwd p)) =
        s.worldNames files := by
      rw [worldNames, worldNames, htexts]
    rw [← hname]
    refine worldName_congr hnames fun plain _ hplain => hfree.exists? ?_
    rw [Bool.eq_false_iff]
    exact fun hd => (hq _ hd).2 ⟨plain, hplain, rfl⟩
  · rw [if_neg hd] at h
    cases h

theorem template_without (hk : q (FileTree.target s.cwd p) = false) :
    (s.without q).template p = s.template p := by
  have hfree := holdsFiles_of_idle hfiles hq
  unfold Session.template
  change (if (s.without q).tree.isFile s.cwd p = true then _ else _) = _
  rw [hfree.isFile, hk, Bool.not_false, Bool.and_true]
  split
  · next hf => rw [hfree.textAt_of_isFile hf hk]
  · rfl

theorem templates_without {directory : Option Path} :
    (s.without q).templates directory = s.templates directory := by
  apply templates_congr
  intro dir _ name hn
  obtain ⟨hpath, hparent, -, hnone⟩ := @Templates.div_fileName dir name hn
  refine template_without hfiles hq (kept_of_aside hfiles hq ?_)
  rw [hpath, FileTree.target_concat hparent]
  exact aside_concat hnone

theorem settings_without {config : Option Config} {base : Path} {c : Config}
    (hb : s.tree.isDirectory s.cwd base = true) (hc : s.settings config base = .ok c) :
    (s.without q).settings config base = .ok c := by
  have hfree := holdsFiles_of_idle hfiles hq
  cases config with
  | some _ => exact hc
  | none =>
    have hfile : s.configFile base = (base / Config.fileName).resolve s.cwd := if_pos hb
    have hfile' : (s.without q).configFile base = s.configFile base := by
      rw [hfile]
      exact if_pos (hfree.isDirectory.trans hb)
    have hkept : q (FileTree.target s.cwd (s.configFile base)) = false := by
      refine kept_of_aside hfiles hq ?_
      have hname : Config.fileName ≠ ".." ∧ ¬ IsInterfaceName Config.fileName := by decide
      have hparts : ∃ front, Path.fullParts s.cwd (base / Config.fileName) = front ++ [Config.fileName] := by
        change ∃ front, Path.fullParts s.cwd (base.append (Path.ofString Config.fileName)) = _
        have hpath : Path.ofString Config.fileName = ⟨.relative, [Config.fileName]⟩ := by decide +kernel
        rw [hpath, Path.append, if_pos rfl, Path.fullParts]
        split
        · exact ⟨s.cwd ++ base.parts, (List.append_assoc ..).symm⟩
        · exact ⟨base.parts, rfl⟩
      obtain ⟨front, hfront⟩ := hparts
      have hanchor : ((base / Config.fileName).resolve s.cwd).anchor ≠ .relative := by
        rintro ⟨⟩
      rw [hfile, FileTree.target_of_anchored hanchor]
      change Aside (Path.normalize (Path.normalize (Path.fullParts s.cwd (base / Config.fileName))))
      rw [Path.normalize_of_plain Path.plain_normalize, hfront, Path.normalize_concat hname.1]
      exact aside_concat hname.2
    unfold Session.settings at hc ⊢
    simp only [hfile'] at hc ⊢
    change (if (s.without q).tree.exists? s.cwd _ = true then _ else _) = _
    rw [hfree.exists? hkept]
    split
    · next he =>
      rw [if_pos he] at hc
      obtain ⟨text, ht, hc⟩ := bind_eq_ok.1 hc
      exact bind_eq_ok.2 ⟨text, hfree.textAt ht hkept, hc⟩
    · next he =>
      rw [if_neg he] at hc
      exact hc

/-- A draft is the same without idle files. -/
theorem draft_without {base : Path} {r : Request} {c : Config} {d : Generation.Draft}
    (hapi : api = Generation.apiDirectory s.cwd base r.apiDir c) (hst : s.stubSettings c = .ok st)
    (h : s.draft base r c = .ok d) : (s.without q).draft base r c = .ok d := by
  subst hapi
  obtain ⟨world, st', files', made, template, hworld, hst', hfiles', hmade, ht, rfl⟩ :=
    draft_eq_ok_iff.1 h
  rw [hst] at hst'
  rw [hfiles] at hfiles'
  cases hst'
  cases hfiles'
  obtain ⟨lib, hlib, hmodules, huses⟩ := collectAll_without hfiles hq hmade
  have hst₁ : (s.without q).stubSettings c = .ok st := by
    rw [← hst, stubSettings, stubSettings, templates_without hfiles hq]
  refine draft_eq_ok_iff.2 ⟨world, st, _, (made.1, lib), template, world_without hfiles hq hworld, hst₁,
    (holdsFiles_of_idle hfiles hq).filesIn hfiles, hlib, ht, ?_⟩
  rw [Library.render_congr hmodules huses]
  rfl

end

end Session

end WitCaller
