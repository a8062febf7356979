import WitCaller.Proofs.Gathering
import WitCaller.Proofs.Observing
import WitCaller.Proofs.Staging

/-!
The draft of a run as a function of the session that it starts from. Each part of a draft is given by
what the files say at the start, provided that no reports go to the files that are read.
-/

namespace WitCaller
open Steps Run Session

namespace Session
variable (s : Session)

/-- The interface files of a directory, in the order of their names. -/
def filesIn (api : Path) : Except Failure (List Path) := do
  let names ← (s.tree.list s.cwd api).mapError .os
  return (names.map fun name => ⟨api.anchor, api.parts ++ [name]⟩).filter fun p =>
    p.suffix == World.fileSuffix && s.tree.isFile s.cwd p

/-- The text of a file that declares a world. -/
def worldText? (p : Path) : Option String :=
  match s.textAt p with
  | .error _ => none
  | .ok cs => if World.isSource (String.ofList cs) then some (String.ofList cs) else none

/-- The interface in a file that can be read and declares no world. -/
def interfaceAt? (p : Path) : Option Interface :=
  match s.textAt p with
  | .error _ => none
  | .ok cs =>
    if World.isSource (String.ofList cs) then none else some (Interface.parse p (String.ofList cs))

/-- The names of the worlds that files declare. -/
def worldNames (files : List Path) : List String :=
  (files.filterMap s.worldText?).filterMap World.name?

/-- The file that a world made for the types of another one would have. -/
def typesFile (api : Path) (name : String) : Path :=
  api / (World.typesMark ++ name ++ World.fileSuffix)

/-- The name of the world among these files of a directory. -/
def worldName (api : Path) (files : List Path) : Except Failure String :=
  match (s.worldNames files).find? World.isTypesName,
      (s.worldNames files).find? (!World.isTypesName ·) with
  | some name, _ => .ok name
  | none, none => .error (.noWorld api)
  | none, some name =>
    .ok (if s.tree.exists? s.cwd (typesFile api name) then World.typesMark ++ name else name)

/-- The world of a directory. -/
def world (api : Path) : Except Failure World :=
  if s.tree.isDirectory s.cwd api then do
    let files ← s.filesIn api
    let name ← s.worldName api files
    return ⟨name, (files.filterMap s.worldText?).flatMap World.importsOf⟩
  else .error (.noApi api)

/-- The template in a file, if there is one. -/
def template (p : Path) : Except Failure (Except Utf8Error (Option Template)) :=
  if s.tree.isFile s.cwd p then
    match s.textAt p with
    | .ok text => .ok (.ok (some (Template.parse text)))
    | .error (.undecodable e) => .ok (.error e)
    | .error e => .error e
  else .ok (.ok none)

/-- The templates in a directory. -/
def templates : Option Path → Except Failure Templates
  | none => .ok {}
  | some dir => do
    let rpcStub ← s.template (dir / "rpc_stub.rs.j2")
    let httpStub ← s.template (dir / "http_stub.rs.j2")
    let library ← s.template (dir / "lib.rs.j2")
    return { rpcStub, httpStub, library }

/-- What the stubs of a run have in common. -/
def stubSettings (c : Config) : Except Failure StubSettings := do
  let templates ← s.templates c.templatesDir
  return { timeout := c.timeout, strict := c.strict, templates }

end Session

namespace Library

/-- Why a template of an interface cannot be used. -/
def templateError? (st : StubSettings) (i : Interface) : Option Utf8Error :=
  match outcomeOf st i with
  | .error (.template e) => some e
  | _ => none

/-- The library with all interfaces added that can be, and the names of their modules. -/
def collectAll (st : StubSettings) (is : List Interface) (lib : Library) :
    Except Failure (List String × Library) :=
  match is.findSome? (templateError? st) with
  | some e => .error (.undecodable e)
  | none => .ok ((is.filterMap (moduleOf? st)).map Prod.fst, gather st is lib)

end Library

/-- The draft that a run makes from the files of a session. -/
def Session.draft (s : Session) (base : Path) (r : Request) (c : Config) :
    Except Failure Generation.Draft := do
  let api := Generation.apiDirectory s.cwd base r.apiDir c
  let world ← s.world api
  let st ← s.stubSettings c
  let files ← s.filesIn api
  let (modules, lib) ← Library.collectAll st (files.filterMap s.interfaceAt?) {}
  let template ← st.templates.library.mapError .undecodable
  return {
    base, api, world, modules
    projects := Generation.projectsOf s.cwd r.projects c
    crate := ⟨c.crateName, c.witDir, .ok none⟩
    templatesDir := c.templatesDir
    source := lib.render template c.witDir world.name world.imports }

namespace Session

/-- The file for the settings at a path. -/
def configFile (s : Session) (base : Path) : Path :=
  if s.tree.isDirectory s.cwd base then (base / Config.fileName).resolve s.cwd
  else if base.name = Config.fileName then base.resolve s.cwd
  else (base.parent / Config.fileName).resolve s.cwd

/-- The settings of a run: as given, or as the file for them says. -/
def settings (s : Session) (config : Option Config) (base : Path) : Except Failure Config :=
  match config with
  | some c => .ok c
  | none =>
    if s.tree.exists? s.cwd (s.configFile base) then
      s.textAt (s.configFile base) >>= Config.ofText (s.configFile base).parent
    else .ok { root := (s.configFile base).parent }

variable {s : Session} {api p : Path} {files : List Path}

theorem filesIn_of_list {names : List String} (h : s.tree.list s.cwd api = .ok names) :
    s.filesIn api = .ok ((names.map fun name => ⟨api.anchor, api.parts ++ [name]⟩).filter fun p =>
      p.suffix == World.fileSuffix && s.tree.isFile s.cwd p) := by
  rw [filesIn, h]
  rfl

theorem exists_of_filesIn (h : s.filesIn api = .ok files) : ∃ names, s.tree.list s.cwd api = .ok names ∧
    files = (names.map fun name => ⟨api.anchor, api.parts ++ [name]⟩).filter fun p =>
      p.suffix == World.fileSuffix && s.tree.isFile s.cwd p := by
  cases hlist : s.tree.list s.cwd api with
  | error e =>
    rw [filesIn, hlist] at h
    cases h
  | ok names => exact ⟨names, rfl, Except.ok.inj (h.symm.trans (filesIn_of_list hlist))⟩

/-- Reports go to no interface file of a directory. -/
def Quiet (s : Session) (api : Path) : Prop :=
  ∀ name, IsInterfaceName name → s.ReportsAside ⟨api.anchor, api.parts ++ [name]⟩

theorem mem_filesIn (h : s.filesIn api = .ok files) (hp : p ∈ files) :
    ∃ name, IsInterfaceName name ∧ p = ⟨api.anchor, api.parts ++ [name]⟩ := by
  obtain ⟨names, -, rfl⟩ := exists_of_filesIn h
  obtain ⟨hm, hkeep⟩ := List.mem_filter.1 hp
  obtain ⟨name, -, rfl⟩ := List.mem_map.1 hm
  rw [Bool.and_eq_true, beq_iff_eq] at hkeep
  exact ⟨name, suffix_eq_fileSuffix_iff.1 hkeep.1, rfl⟩

theorem Quiet.aside (hk : s.Quiet api) (h : s.filesIn api = .ok files) :
    ∀ p ∈ files, s.ReportsAside p := by
  intro p hp
  obtain ⟨name, hn, rfl⟩ := mem_filesIn h hp
  exact hk name hn

end Session

theorem Session.draft_eq_ok_iff {s : Session} {base : Path} {r : Request} {c : Config}
    {d : Generation.Draft} : s.draft base r c = .ok d ↔ ∃ world st files made template,
      s.world (Generation.apiDirectory s.cwd base r.apiDir c) = .ok world ∧
      s.stubSettings c = .ok st ∧
      s.filesIn (Generation.apiDirectory s.cwd base r.apiDir c) = .ok files ∧
      Library.collectAll st (files.filterMap s.interfaceAt?) {} = .ok made ∧
      st.templates.library = .ok template ∧ d = {
        base, world, modules := made.1
        api := Generation.apiDirectory s.cwd base r.apiDir c
        projects := Generation.projectsOf s.cwd r.projects c
        crate := ⟨c.crateName, c.witDir, .ok none⟩
        templatesDir := c.templatesDir
        source := made.2.render template c.witDir world.name world.imports } := by
  constructor
  · intro h
    obtain ⟨world, hworld, h⟩ := bind_eq_ok.1 h
    obtain ⟨st, hst, h⟩ := bind_eq_ok.1 h
    obtain ⟨files, hfiles, h⟩ := bind_eq_ok.1 h
    obtain ⟨made, hmade, h⟩ := bind_eq_ok.1 h
    obtain ⟨template, htemplate, h⟩ := bind_eq_ok.1 h
    cases ht : st.templates.library with
    | error e =>
      rw [ht] at htemplate
      cases htemplate
    | ok template' =>
      rw [ht] at htemplate
      cases htemplate
      cases h
      exact ⟨world, st, files, made, template, hworld, hst, hfiles, hmade, ht, rfl⟩
  · rintro ⟨world, st, files, made, template, hworld, hst, hfiles, hmade, ht, rfl⟩
    unfold Session.draft
    refine bind_eq_ok.2 ⟨world, hworld, bind_eq_ok.2 ⟨st, hst, bind_eq_ok.2 ⟨files, hfiles, ?_⟩⟩⟩
    refine bind_eq_ok.2 ⟨made, hmade, bind_eq_ok.2 ⟨template, ?_, rfl⟩⟩
    rw [ht]
    rfl

namespace Session
variable {s : Session} {base api : Path} {files : List Path} {name : String} {r : Request} {c : Config}
  {st : StubSettings} {template : Option Template}

/-- The name of a world depends on the names in the files, and on whether the types file of the first
plain one is there. -/
theorem worldName_congr {s' : Session} {files' : List Path}
    (hnames : s'.worldNames files' = s.worldNames files)
    (hfile : ∀ name, (s.worldNames files).find? World.isTypesName = none →
      (s.worldNames files).find? (!World.isTypesName ·) = some name →
        s'.tree.exists? s'.cwd (typesFile api name) = s.tree.exists? s.cwd (typesFile api name)) :
    s'.worldName api files' = s.worldName api files := by
  rw [worldName, worldName, hnames]
  cases htypes : (s.worldNames files).find? World.isTypesName with
  | some _ => rfl
  | none =>
    cases hplain : (s.worldNames files).find? (!World.isTypesName ·) with
    | none => rfl
    | some name =>
      simp only
      rw [hfile name htypes hplain]

theorem worldName_of_plain (name : String)
    (hn : (s.worldNames files).find? World.isTypesName = none)
    (hp : (s.worldNames files).find? (!World.isTypesName ·) = some name) : s.worldName api files =
      .ok (if s.tree.exists? s.cwd (typesFile api name) then World.typesMark ++ name else name) := by
  rw [worldName, hn, hp]

theorem world_of_files (hd : s.tree.isDirectory s.cwd api = true) (hfiles : s.filesIn api = .ok files)
    (hname : s.worldName api files = .ok name) :
    s.world api = .ok ⟨name, (files.filterMap s.worldText?).flatMap World.importsOf⟩ := by
  unfold world
  rw [if_pos hd, hfiles]
  change s.worldName api files >>= _ = _
  exact bind_eq_ok.2 ⟨name, hname, rfl⟩

theorem draft_of_files (st : StubSettings) (template : Option Template)
    (hapi : Generation.apiDirectory s.cwd base r.apiDir c = api)
    (hd : s.tree.isDirectory s.cwd api = true) (hfiles : s.filesIn api = .ok files)
    (hname : s.worldName api files = .ok name) (hst : s.stubSettings c = .ok st)
    (hnone : (files.filterMap s.interfaceAt?).findSome? (Library.templateError? st) = none)
    (ht : st.templates.library = .ok template) : ∃ d, s.draft base r c = .ok d ∧
      d.source = (Library.gather st (files.filterMap s.interfaceAt?) {}).render template c.witDir name
        ((files.filterMap s.worldText?).flatMap World.importsOf) := by
  subst hapi
  have hmade : Library.collectAll st (files.filterMap s.interfaceAt?) {} =
      .ok (((files.filterMap s.interfaceAt?).filterMap (Library.moduleOf? st)).map Prod.fst,
        Library.gather st (files.filterMap s.interfaceAt?) {}) := by
    rw [Library.collectAll, hnone]
  exact ⟨_, draft_eq_ok_iff.2 ⟨_, st, files, _, template, world_of_files hd hfiles hname, hst, hfiles,
    hmade, ht, rfl⟩, rfl⟩

end Session

namespace World
variable {s₀ : Session} {api p : Path} {files : List Path}

theorem yields_filesIn : Yields s₀ (filesIn api) (s₀.filesIn api) := by
  refine Yields.list.bind fun names _ => Yields.of_apply fun s hs => ?_
  refine filterM_apply fun p => ?_
  rw [← hs.rewrites.isFile]
  exact bind_ok isFile_apply

theorem yields_sourceAt? (hk : s₀.ReportsAside p) :
    Yields s₀ (sourceAt? p) (.ok (s₀.worldText? p)) := by
  unfold sourceAt? worldText?
  refine (Yields.attempt (Yields.readText hk)).andThen ?_
  cases s₀.textAt p with
  | error e => exact Yields.report.andThen Yields.pure
  | ok cs =>
    simp only
    split
    · exact Yields.report.andThen Yields.pure
    · exact Yields.pure

theorem yields_namesIn (hk : ∀ p ∈ files, s₀.ReportsAside p) :
    Yields s₀ (namesIn files) (.ok (s₀.worldNames files)) := by
  unfold worldNames
  induction files with
  | nil => exact Yields.pure
  | cons p files ih =>
    obtain ⟨hp, hrest⟩ := List.forall_mem_cons.1 hk
    unfold namesIn
    refine (yields_sourceAt? hp).andThen ?_
    rw [List.filterMap_cons]
    cases s₀.worldText? p with
    | none => exact ih hrest
    | some text =>
      simp only [Option.bind_some, List.filterMap_cons]
      cases name? text with
      | none => exact ih hrest
      | some name => exact Yields.report.andThen ((ih hrest).andThen Yields.pure)

theorem yields_nameIn (hk : s₀.Quiet api) :
    Yields s₀ (nameIn api) (s₀.filesIn api >>= s₀.worldName api) := by
  unfold nameIn
  refine yields_filesIn.bind fun files hf => (yields_namesIn (hk.aside hf)).andThen ?_
  unfold worldName
  cases (s₀.worldNames files).find? isTypesName with
  | some name => exact Yields.pure
  | none =>
    cases (s₀.worldNames files).find? (!isTypesName ·) with
    | none => exact Yields.throw
    | some name =>
      simp only
      refine Yields.exists?.andThen ?_
      change Yields s₀ (if s₀.tree.exists? s₀.cwd (typesFile api name) = true then _ else _) _
      split
      · exact Yields.report.andThen Yields.pure
      · exact Yields.report.andThen Yields.pure

theorem yields_importsOfFiles (hk : ∀ p ∈ files, s₀.ReportsAside p) :
    Yields s₀ (importsOfFiles files) (.ok ((files.filterMap s₀.worldText?).flatMap importsOf)) := by
  induction files with
  | nil => exact Yields.pure
  | cons p files ih =>
    obtain ⟨hp, hrest⟩ := List.forall_mem_cons.1 hk
    unfold importsOfFiles
    refine (yields_sourceAt? hp).andThen (Yields.reportAll.andThen ((ih hrest).andThen ?_))
    rw [List.filterMap_cons]
    cases s₀.worldText? p with
    | none => exact Yields.pure
    | some text => exact Yields.pure

theorem yields_resolve (hk : s₀.Quiet api) : Yields s₀ (resolve api) (s₀.world api) := by
  unfold resolve Session.world
  refine Yields.isDirectory.andThen ?_
  split
  · have hname := yields_nameIn hk
    -- Both scans of the directory find the same files, or both fail.
    cases hf : s₀.filesIn api with
    | error e =>
      rw [hf] at hname
      exact hname.bind (g := fun _ => .error e) fun _ h => nomatch h
    | ok files =>
      rw [hf] at hname
      have himports : Yields s₀ (importsIn api) (.ok ((files.filterMap s₀.worldText?).flatMap importsOf)) :=
        Yields.andThen (hf ▸ yields_filesIn) (yields_importsOfFiles (hk.aside hf))
      exact Yields.bind (x := s₀.worldName api files) hname fun _ _ => himports.andThen Yields.pure
  · exact Yields.throw

end World

namespace Templates
variable {s₀ : Session} {p : Path}

theorem yields_loadFile (hk : s₀.ReportsAside p) : Yields s₀ (loadFile p) (s₀.template p) := by
  unfold loadFile template
  refine Yields.isFile.andThen ?_
  split
  · refine (Yields.attempt (Yields.readText hk)).andThen ?_
    cases s₀.textAt p with
    | ok text => exact Yields.pure
    | error e => cases e <;> first | exact Yields.pure | exact Yields.throw
  · exact Yields.pure

/-- The names of the templates that a directory may hold. -/
def fileNames : List String := ["rpc_stub.rs.j2", "http_stub.rs.j2", "lib.rs.j2", "Cargo.toml.j2"]

/-- The file of a template in a directory is called neither like the manifest of a crate nor like an
interface file. -/
theorem div_fileName {dir : Path} {name : String} (hn : name ∈ fileNames) :
    dir / name = ⟨dir.anchor, dir.parts ++ [name]⟩ ∧ name ≠ ".." ∧ name ≠ "Cargo.toml" ∧
      ¬ IsInterfaceName name := by
  have hnames : ∀ name ∈ fileNames, Path.ofString name = ⟨.relative, [name]⟩ ∧
      name ≠ ".." ∧ name ≠ "Cargo.toml" ∧ ¬ IsInterfaceName name := by decide +kernel
  obtain ⟨hpath, hname⟩ := hnames name hn
  refine ⟨?_, hname⟩
  change dir.append (Path.ofString name) = _
  rw [hpath]
  rfl

/-- Reports go to no template of a directory. -/
def Quiet (s : Session) (directory : Option Path) : Prop :=
  ∀ dir ∈ directory, ∀ name ∈ fileNames, s.ReportsAside (dir / name)

theorem yields_load {directory : Option Path} (hk : Quiet s₀ directory) :
    Yields s₀ (load directory) (s₀.templates directory) := by
  cases directory with
  | none => exact Yields.pure
  | some dir =>
    have hfile (name : String) (hn : name ∈ fileNames) :
        Yields s₀ (loadFile (dir / name)) (s₀.template (dir / name)) :=
      yields_loadFile (hk dir rfl name hn)
    refine (hfile _ (by decide)).bind fun _ _ => (hfile _ (by decide)).bind fun _ _ => ?_
    exact (hfile _ (by decide)).bind fun _ _ => Yields.pure

end Templates

theorem Session.templates_congr {s s' : Session} {directory : Option Path}
    (h : ∀ dir ∈ directory, ∀ name ∈ Templates.fileNames,
      s'.template (dir / name) = s.template (dir / name)) :
    s'.templates directory = s.templates directory := by
  cases directory with
  | none => rfl
  | some dir =>
    have hfile := h dir rfl
    unfold Session.templates
    simp only [hfile _ (by decide : "rpc_stub.rs.j2" ∈ Templates.fileNames),
      hfile _ (by decide : "http_stub.rs.j2" ∈ Templates.fileNames),
      hfile _ (by decide : "lib.rs.j2" ∈ Templates.fileNames)]

namespace Generation
variable {s₀ : Session} {p : Path} {files : List Path} {st : StubSettings} {is : List Interface}
  {lib : Library}

theorem yields_interfaceAt? (hk : s₀.ReportsAside p) :
    Yields s₀ (interfaceAt? p) (.ok (s₀.interfaceAt? p)) := by
  unfold interfaceAt? Session.interfaceAt?
  refine (Yields.attempt (Yields.readText hk)).andThen ?_
  cases ht : s₀.textAt p with
  | error e => exact Yields.report.andThen Yields.pure
  | ok cs =>
    simp only
    split
    · exact Yields.pure
    · have hread : Yields s₀ (readInterface p) (.ok (Interface.parse p (String.ofList cs))) := by
        refine Yields.report.andThen (Yields.andThen (a := cs) ?_ ?_)
        · exact ht ▸ Yields.readText hk
        · exact Yields.reportAll.andThen (Yields.report.andThen Yields.pure)
      exact Yields.report.andThen ((Yields.attempt hread).andThen Yields.pure)

theorem yields_interfacesOf (hk : ∀ p ∈ files, s₀.ReportsAside p) :
    Yields s₀ (interfacesOf files) (.ok (files.filterMap s₀.interfaceAt?)) := by
  have hall : Yields s₀ (files.mapM interfaceAt?) (.ok (files.map s₀.interfaceAt?)) :=
    Yields.mapM fun p hp => yields_interfaceAt? (hk p hp)
  have hsome : (files.map s₀.interfaceAt?).filterMap id = files.filterMap s₀.interfaceAt? := by
    rw [List.filterMap_map]
    rfl
  exact hsome ▸ hall.andThen (Yields.report.andThen Yields.pure)

theorem collectAll_cons {i : Interface} (h : Library.templateError? st i = none) :
    Library.collectAll st (i :: is) lib = Library.collectAll st is (lib.add st i).library >>=
      fun x => .ok ((Library.moduleOf? st i).toList.map Prod.fst ++ x.1, x.2) := by
  unfold Library.collectAll
  rw [List.findSome?_cons, h]
  simp only
  cases is.findSome? (Library.templateError? st) with
  | some e => rfl
  | none =>
    rw [List.filterMap_cons]
    cases Library.moduleOf? st i <;> rfl

theorem yields_addAll : Yields s₀ (addAll st lib is) (Library.collectAll st is lib) := by
  induction is generalizing lib with
  | nil => exact Yields.pure
  | cons i is ih =>
    unfold addAll
    refine Yields.reportAll.andThen ?_
    have hrest (made : List String) (h : Library.templateError? st i = none)
        (hmade : (Library.moduleOf? st i).toList.map Prod.fst = made) :
        Yields s₀ (addAll st (lib.add st i).library is >>= fun x => pure (made ++ x.1, x.2))
          (Library.collectAll st (i :: is) lib) := by
      rw [collectAll_cons h, hmade]
      exact ih.bind fun _ _ => Yields.pure
    have hnone (ho : Library.outcomeOf st i ≠ .ok true) : Library.moduleOf? st i = none := by
      rw [Library.moduleOf?, Option.map_eq_none_iff, ← Option.not_isSome_iff_eq_none]
      exact fun hs => ho (Library.outcomeOf_eq_true_iff.2 hs)
    rw [Library.outcome_add]
    rcases ho : Library.outcomeOf st i with e | made
    · have hn := hnone (by simp [ho])
      cases e with
      | template e =>
        have herror : Library.collectAll st (i :: is) lib = .error (.undecodable e) := by
          rw [Library.collectAll, List.findSome?_cons, Library.templateError?, ho]
        rw [herror]
        exact Yields.throw.bind (g := fun _ => .error (.undecodable e)) fun _ h => by cases h
      | type e =>
        refine (Yields.report.andThen Yields.pure).andThen (hrest [] ?_ (by rw [hn]; rfl))
        rw [Library.templateError?, ho]
    · have ht : Library.templateError? st i = none := by rw [Library.templateError?, ho]
      cases made with
      | false =>
        have hn := hnone (by simp [ho])
        exact Yields.pure.andThen (hrest [] ht (by rw [hn]; rfl))
      | true =>
        obtain ⟨stubs, hs⟩ := Option.isSome_iff_exists.1 (Library.outcomeOf_eq_true_iff.1 ho)
        exact Yields.pure.andThen (hrest _ ht (by rw [Library.moduleOf?, hs]; rfl))

theorem yields_draftIn {base : Path} {r : Request} {c : Config}
    (hk : s₀.Quiet (apiDirectory s₀.cwd base r.apiDir c)) (ht : Templates.Quiet s₀ c.templatesDir) :
    Yields s₀ (draftIn base r c) (s₀.draft base r c) := by
  unfold draftIn Session.draft
  refine Yields.get fun s hs => ?_
  rw [hs.rewrites.cwd]
  simp only [stubSettings, bind_assoc, pure_bind]
  refine Yields.report.andThen ((World.yields_resolve hk).bind fun world _ => ?_)
  refine Yields.report.andThen ((Templates.yields_load ht).bind fun templates _ => ?_)
  refine World.yields_filesIn.bind fun files hf => ?_
  refine (yields_interfacesOf (hk.aside hf)).andThen ?_
  exact yields_addAll.bind fun _ _ => Yields.ofExcept.bind fun _ _ => Yields.pure

theorem settings_apply {config : Option Config} {base : Path} {s : Session} :
    settings config base s = (s.settings config base, s) := by
  unfold settings Session.settings
  cases config with
  | some c => rfl
  | none =>
    have hfile : Config.fileFor base s = (.ok (s.configFile base), s) := by
      unfold Config.fileFor Session.configFile
      rw [bind_ok get_apply, bind_ok isDirectory_apply]
      split
      · rfl
      · split <;> rfl
    have hread : (readText (s.configFile base) >>= fun text =>
        ofExcept id (Config.ofText (s.configFile base).parent text)) s =
          (s.textAt (s.configFile base) >>= Config.ofText (s.configFile base).parent, s) := by
      cases ht : s.textAt (s.configFile base) with
      | error e =>
        rw [bind_error (readText_apply.trans (by rw [ht]))]
        rfl
      | ok text =>
        rw [bind_ok (readText_apply.trans (by rw [ht])), ofExcept_apply]
        change ((Config.ofText (s.configFile base).parent text).mapError id, s) =
          (Config.ofText (s.configFile base).parent text, s)
        cases Config.ofText (s.configFile base).parent text <;> rfl
    change Config.load base s = (if _ then _ else _, s)
    unfold Config.load
    rw [bind_ok hfile, bind_ok exists?_apply]
    split
    · exact hread
    · rfl

variable {config : Option Config} {r : Request} {s s' : Session} {g : Generation} {d : Draft} {c : Config}

/-- The base directory of a run. -/
def baseOf (s : Session) (r : Request) : Path := (Path.ofString r.base).resolve s.cwd

/-- A draft is made only in a directory. -/
theorem base_of_draft (h : draft config r s = (.ok d, s')) :
    s.tree.isDirectory s.cwd (baseOf s r) = true := by
  unfold draft at h
  rw [bind_ok get_apply, bind_ok isDirectory_apply] at h
  split at h
  · assumption
  · cases h

/-- What a draft takes from its request and from the settings. -/
theorem settings_of_draft (h : draft config r s = (.ok d, s')) : ∃ c,
    s.settings config (baseOf s r) = .ok c ∧ d.base = baseOf s r ∧ d.crate.name = c.crateName ∧
      d.crate.witDir = c.witDir ∧ d.projects = projectsOf s.cwd r.projects c := by
  obtain ⟨hbase, c, _, hsettings, -, hname, hwit, hprojects, -⟩ := draft_returns h
  have hbase : d.base = baseOf s r := hbase
  rw [hbase, settings_apply] at hsettings
  exact ⟨c, congrArg Prod.fst hsettings, hbase, hname, hwit, hprojects⟩

theorem draft_apply (hb : s.tree.isDirectory s.cwd (baseOf s r) = true)
    (hc : s.settings config (baseOf s r) = .ok c) :
    draft config r s = draftIn (baseOf s r) r c s := by
  have hsettings : settings config (baseOf s r) s = (.ok c, s) := by rw [settings_apply, hc]
  unfold draft
  rw [bind_ok get_apply, bind_ok isDirectory_apply]
  change (if s.tree.isDirectory s.cwd (baseOf s r) = true then _ else _ : Run Failure Draft) s = _
  rw [if_pos hb]
  exact bind_ok hsettings

section
variable (hc : s.settings config (baseOf s r) = .ok c)
  (hk : s.Quiet (apiDirectory s.cwd (baseOf s r) r.apiDir c)) (ht : Templates.Quiet s c.templatesDir)
include hc hk ht

/-- A draft that is made is the one that the files of the session say. -/
theorem draft_of_returns (h : draft config r s = (.ok d, s')) :
    s.draft (baseOf s r) r c = .ok d ∧ s.Reported s' := by
  obtain ⟨s₁, hreported, hyields⟩ := yields_draftIn hk ht s (Frame.refl s)
  rw [← draft_apply (base_of_draft h) hc, h] at hyields
  obtain ⟨hd, rfl⟩ := Prod.mk.inj hyields
  exact ⟨hd.symm, hreported⟩

theorem returns_of_draft (hb : s.tree.isDirectory s.cwd (baseOf s r) = true)
    (hd : s.draft (baseOf s r) r c = .ok d) :
    ∃ s', draft config r s = (.ok d, s') ∧ s.Reported s' := by
  obtain ⟨s', hreported, hyields⟩ := yields_draftIn hk ht s (Frame.refl s)
  rw [hd] at hyields
  exact ⟨s', (draft_apply hb hc).trans hyields, hreported⟩

theorem run_yields (h : run config r s = (.ok g, s')) :
    s.tree.isDirectory s.cwd (baseOf s r) = true ∧ ∃ d, s.draft (baseOf s r) r c = .ok d ∧
      g.world = d.world ∧ g.modules = d.modules ∧ g.source = d.source := by
  unfold run at h
  obtain ⟨d, s₁, hdraft, hrest⟩ := bind_eq_ok_iff.1 h
  refine ⟨base_of_draft hdraft, d, (draft_of_returns hc hk ht hdraft).1, ?_⟩
  split at hrest
  · obtain ⟨_, _, _, hlast⟩ := bind_eq_ok_iff.1 hrest
    cases hlast
    exact ⟨rfl, rfl, rfl⟩
  · obtain ⟨_, _, _, rfl⟩ := finish_eq_ofDraft hrest
    exact ⟨rfl, rfl, rfl⟩

end

theorem dryRun_yields (hb : s.tree.isDirectory s.cwd (baseOf s r) = true)
    (hc : s.settings config (baseOf s r) = .ok c)
    (hk : s.Quiet (apiDirectory s.cwd (baseOf s r) r.apiDir c)) (ht : Templates.Quiet s c.templatesDir)
    (hd : s.draft (baseOf s r) r c = .ok d) :
    ∃ s', run config { r with dryRun := true } s = (.ok { ofDraft d with dryRun := true }, s') := by
  obtain ⟨s₁, hdraft, -⟩ := returns_of_draft hc hk ht hb hd
  have hdraft' : draft config { r with dryRun := true } s = (.ok d, s₁) := hdraft
  unfold run
  rw [bind_ok hdraft', if_pos rfl]
  exact ⟨_, bind_ok report_apply⟩

end Generation

end WitCaller
