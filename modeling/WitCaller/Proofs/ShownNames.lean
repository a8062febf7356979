import Mathlib
import WitCaller.Proofs.EscapedNames
import WitCaller.Proofs.LibraryReading
import WitCaller.Proofs.ModuleNames
import WitCaller.Proofs.OperationNames

/-!
The names in a library and the keywords of Rust. A parameter whose name would be a keyword is made raw.
The names of modules are put into snake case only, where they are opened and where they are brought in,
so an interface or an import that is called like a keyword shows it.
-/

namespace WitCaller

namespace Text
variable {sep : Char} {s : List Char}

theorem beforeFirst_of_notMem (h : sep ∉ s) : beforeFirst sep s = s :=
  List.takeWhile_eq_self_iff.2 fun _ hc => decide_eq_true fun he => h (he ▸ hc)

theorem afterLast_of_notMem (h : sep ∉ s) : afterLast sep s = s := by
  have hs : beforeFirst sep s.reverse = s.reverse :=
    beforeFirst_of_notMem fun hmem => h (List.mem_reverse.1 hmem)
  rw [afterLast, ← beforeFirst, hs, List.reverse_reverse]

end Text

namespace Identifier
open Text
variable {name : String} {c : Char}

/-- No word is kept for Rust once it is raw. -/
theorem rust_notMem_rustKeywords (name : String) : rust name ∉ rustKeywords := by
  have hmark : ∀ k ∈ rustKeywords, '#' ∉ k.toList := by decide
  unfold rust
  split
  · intro h
    refine hmark _ h ?_
    rw [String.toList_append]
    exact List.mem_append_left _ (by decide)
  · next h => exact h

theorem IsLabel.notMem (h : IsLabel name) (hc : c.isAlphanum = false) (hhyphen : c ≠ '-')
    (hpercent : c ≠ '%') : c ∉ name.toList := fun hmem => by
  rcases h.mem_cases hmem with halnum | rfl | rfl
  · exact Bool.noConfusion (halnum.symm.trans hc)
  · exact hhyphen rfl
  · exact hpercent rfl

theorem IsLabel.unbroken (h : IsLabel name) : Unbroken name.toList := fun c hc => by
  rcases h.mem_cases hc with halnum | rfl | rfl
  · exact isLineBreak_of_isAlphanum halnum
  · decide
  · decide

theorem IsLabel.unblank (h : IsLabel name) : name.toList.any isBlank = false := by
  rcases isLabel_iff.1 h with hk | ⟨m, hm, rfl⟩
  · exact hk.unblank
  · rw [String.toList_append, List.any_append, hm.unblank]
    rfl

/-- An import without a package and a version brings in the module of its own name. -/
theorem IsLabel.moduleName_eq (h : IsLabel name) : moduleName name = snake name := by
  rw [moduleName, afterLast_of_notMem (h.notMem (by decide) (by decide) (by decide)),
    beforeFirst_of_notMem (h.notMem (by decide) (by decide) (by decide)), trim_of_unblank h.unblank,
    String.ofList_toList]

theorem IsLabel.rust_bare (h : IsLabel name) : rust (bare name) = rust name := by
  rw [rust, rust, h.snake_bare]

/-- Keywords have no hyphens and no underscores, so snake case neither makes a keyword nor unmakes one. -/
theorem IsLabel.snake_mem_rustKeywords (h : IsLabel name) :
    snake name ∈ rustKeywords ↔ bare name ∈ rustKeywords := by
  have hplain : ∀ k ∈ rustKeywords, '-' ∉ k.toList ∧ '_' ∉ k.toList := by decide
  have hsnake : (snake name).toList = (bare name).toList.map snakeChar := by
    rw [← h.snake_bare, IsKebab.toList_snake h]
  have hsame (hhyphen : '-' ∉ (bare name).toList) : snake name = bare name := by
    have hfixed : ∀ c ∈ (bare name).toList, snakeChar c = id c := by
      intro c hc
      refine if_neg ?_
      rintro rfl
      exact hhyphen hc
    rw [← String.toList_inj, hsnake, List.map_congr_left hfixed, List.map_id]
  constructor
  · intro hk
    refine hsame (fun hhyphen => (hplain _ hk).2 ?_) ▸ hk
    rw [hsnake]
    exact List.mem_map.2 ⟨'-', hhyphen, rfl⟩
  · exact fun hk => hsame (hplain _ hk).1 ▸ hk

end Identifier

namespace Signature
open Identifier StubPlan StubReading
variable {s : Signature} {strict : Bool} {p : StubPlan}

/-- The parameters of a stub are read back from their declarations. -/
theorem Plans.readParams (h : s.Plans strict p) (hk : ∀ f ∈ s.fields, IsLabel f.name) :
    ((p.declaredParams p.lead).map String.toList).mapM readParam? = some p.shownParams := by
  rw [declaredParams_eq, List.map_map]
  refine mapM_readParam?_typed fun q hq => ?_
  have hmem : q.1 ∈ p.shownParams.map Prod.fst := List.mem_map_of_mem hq
  rw [h.map_fst_shownParams] at hmem
  obtain ⟨name, hname, he⟩ := List.mem_map.1 hmem
  have hlabel : IsLabel name := forall_paramNames (by decide) hk name hname
  rw [← he, ← hlabel.rust_bare]
  exact colon_notMem_shownName hlabel p

theorem Plans.shownParams_notMem (h : s.Plans strict p) (hlive : p.isHttp = false) :
    ∀ q ∈ p.shownParams, q.1 ∉ rustKeywords := by
  intro q hq
  have hmem : q.1 ∈ p.shownParams.map Prod.fst := List.mem_map_of_mem hq
  rw [h.map_fst_shownParams] at hmem
  obtain ⟨name, -, he⟩ := List.mem_map.1 hmem
  have hlead : p.lead = "" := by rw [lead, hlive]; rfl
  rw [← he, shownName, if_pos hlead]
  exact rust_notMem_rustKeywords name

end Signature

namespace Library
open Text Identifier StubReading
variable {lib : Library} {witPath world name : String} {imported : List String} {m : String × String}
  {line : List Char}

/-- The last segment of the path in a line that brings in names for the users of the library too. -/
def usedName? (line : List Char) : Option (List Char) := do
  let path ← line.dropPrefix? "pub use ".toList
  let path ← path.dropSuffix? ";".toList
  return afterLast ':' ((path.dropSuffix? "::*".toList).getD path)

theorem usedName?_importing (h : ':' ∉ name.toList) : usedName? (importing name).toList = some name.toList := by
  have hstart : "pub use crate::hyperware::process::".toList =
      "pub use ".toList ++ ("crate::hyperware::process:".toList ++ [':']) := by decide
  have hend : "::*;".toList = "::*".toList ++ ";".toList := by decide
  unfold importing usedName?
  rw [toList_between, hstart, hend, List.append_assoc, dropPrefix?_append, Option.bind_eq_bind,
    Option.bind_some, ← List.append_assoc, ← List.append_assoc, dropSuffix?_append, Option.bind_some,
    dropSuffix?_append, Option.getD_some, List.append_assoc, List.singleton_append,
    afterLast_append_cons h]
  rfl

theorem usedName?_of_indented (h : Indented line) : usedName? line = none := by
  rcases h with rfl | ⟨l, rfl⟩
  · rfl
  · rfl

theorem usedName?_moduleLines : ∀ l ∈ moduleLines m, usedName? l = none := by
  have hnote : usedName? (moduleNote ++ m.1 ++ " interface").toList = none := by
    unfold moduleNote
    rw [toList_between]
    rfl
  have hopening : usedName? (openingLine m.1).toList = none := by
    unfold openingLine
    rw [toList_between]
    rfl
  unfold moduleLines
  simp only [List.forall_mem_cons, List.forall_mem_append]
  exact ⟨rfl, hnote, hopening, fun l hl => usedName?_of_indented (indented_innerLines l hl), rfl,
    List.forall_mem_nil _⟩

theorem namesIn_used_headLines :
    namesIn usedName? ((headLines witPath world).map String.toList) = ["SendResult", "send"] := by
  have htexts : ∀ l ∈ [("    path: \"" ++ witPath ++ "\",").toList, ("    world: \"" ++ world ++ "\",").toList],
      usedName? l = none := by
    simp only [List.forall_mem_cons, toList_between]
    exact ⟨rfl, rfl, List.forall_mem_nil _⟩
  have hlines : (headLines witPath world).map String.toList =
      ["wit_bindgen::generate!(\x7b".toList] ++
        ([("    path: \"" ++ witPath ++ "\",").toList, ("    world: \"" ++ world ++ "\",").toList] ++
          ((headLines "" "").map String.toList).drop 3) := rfl
  rw [hlines, namesIn_append, namesIn_append, namesIn_eq_nil htexts]
  decide

theorem namesIn_used_shownLines (h : ∀ n ∈ imported, ':' ∉ n.toList) :
    namesIn usedName? (shownLines witPath world imported lib) = "SendResult" :: "send" :: imported := by
  have hhash : namesIn usedName? (if lib.usesHashMap then [hashMapLine.toList] else []) = [] := by
    cases lib.usesHashMap with
    | true => decide
    | false => rfl
  have himports : namesIn usedName? (importSection imported) = imported :=
    namesIn_importSection (by decide) fun n hn => usedName?_importing (h n hn)
  have hmodules : namesIn usedName? (lib.modules.flatMap moduleLines) = [] := by
    refine namesIn_eq_nil fun l hl => ?_
    obtain ⟨m, -, hl⟩ := List.mem_flatMap.1 hl
    exact usedName?_moduleLines l hl
  unfold shownLines frontLines
  rw [namesIn_append, namesIn_append, namesIn_append, namesIn_used_headLines, hhash, himports, hmodules,
    List.append_nil, List.append_nil]
  rfl

theorem namesIn_opened_moduleLines : namesIn openedModule? (moduleLines m) = [m.1] := by
  have hbefore : ∀ l ∈ [[], (moduleNote ++ m.1 ++ " interface").toList], openedModule? l = none := by
    simp only [List.forall_mem_cons]
    exact ⟨rfl, plain_moduleNote.1, List.forall_mem_nil _⟩
  have hinner : ∀ l ∈ innerLines m.2 ++ [['\x7d']], openedModule? l = none := by
    rw [List.forall_mem_append, List.forall_mem_singleton]
    exact ⟨fun l hl => (indented_innerLines l hl).plain.1, rfl⟩
  have hlines : moduleLines m = [[], (moduleNote ++ m.1 ++ " interface").toList] ++
      ([m.1].map (fun n => (openingLine n).toList) ++ (innerLines m.2 ++ [['\x7d']])) := rfl
  rw [hlines, namesIn_append, namesIn_append, namesIn_eq_nil hbefore, namesIn_eq_nil hinner,
    namesIn_map fun n _ => openedModule?_openingLine, List.append_nil, List.nil_append]

theorem namesIn_opened_shownLines :
    namesIn openedModule? (shownLines witPath world imported lib) = lib.modules.map Prod.fst := by
  have hmodules (ms : List (String × String)) :
      namesIn openedModule? (ms.flatMap moduleLines) = ms.map Prod.fst := by
    induction ms with
    | nil => rfl
    | cons m ms ih =>
      rw [List.flatMap_cons, namesIn_append, namesIn_opened_moduleLines, ih]
      rfl
  rw [shownLines, namesIn_append, namesIn_eq_nil openedModule?_frontLines, hmodules, List.nil_append]

theorem mem_names_gather {st : StubSettings} {is : List Interface} :
    name ∈ (gather st is {}).modules.map Prod.fst ↔
      ∃ i ∈ is, (moduleOf? st i).isSome = true ∧ name = snake i.name := by
  rw [names_gather, mem_distinct, List.mem_map]
  constructor
  · rintro ⟨m, hm, rfl⟩
    obtain ⟨i, hi, hmade⟩ := List.mem_filterMap.1 hm
    obtain ⟨stubs, -, rfl⟩ := Option.map_eq_some_iff.1 hmade
    exact ⟨i, hi, by rw [hmade]; rfl, rfl⟩
  · rintro ⟨i, hi, hsome, rfl⟩
    obtain ⟨m, hmade⟩ := Option.isSome_iff_exists.1 hsome
    obtain ⟨stubs, -, rfl⟩ := Option.map_eq_some_iff.1 hmade
    exact ⟨_, List.mem_filterMap.2 ⟨i, hi, hmade⟩, rfl⟩

theorem importedModules_notMem_iff {imports : List String} :
    (∀ n ∈ importedModules imports, n ∉ rustKeywords) ↔ ∀ i ∈ imports, moduleName i ∉ rustKeywords := by
  have hempty : "" ∉ rustKeywords := by decide
  constructor
  · intro h i hi hk
    have hne : moduleName i ≠ "" := fun he => hempty (he ▸ hk)
    refine h _ (mem_distinct.2 (List.mem_filter.2 ⟨List.mem_map_of_mem hi, ?_⟩)) hk
    exact decide_eq_true hne
  · intro h n hn
    obtain ⟨i, hi, rfl⟩ := List.mem_map.1 (List.mem_of_mem_filter (mem_distinct.1 hn))
    exact h i hi

theorem colon_notMem_importedModules {imports : List String} (h : ∀ i ∈ imports, IsLabel i) :
    ∀ n ∈ importedModules imports, ':' ∉ n.toList := by
  intro n hn
  obtain ⟨i, hi, rfl⟩ := List.mem_map.1 (List.mem_of_mem_filter (mem_distinct.1 hn))
  rw [(h i hi).moduleName_eq, ← (h i hi).snake_bare]
  exact (IsKebab.snake (h i hi)).not_mem (by decide)

theorem imported_notMem_iff {imports : List String} (h : ∀ i ∈ imports, IsLabel i) :
    (∀ n ∈ importedModules imports, n ∉ rustKeywords) ↔ ∀ i ∈ imports, bare i ∉ rustKeywords := by
  refine importedModules_notMem_iff.trans (forall₂_congr fun i hi => not_congr ?_)
  rw [(h i hi).moduleName_eq, (h i hi).snake_mem_rustKeywords]

section
variable {st : StubSettings} {sources : List (Path × String)}

theorem source_of_mem_modules
    (h : m ∈ (gather st (sources.map fun source => Interface.parse source.1 source.2) {}).modules) :
    ∃ source ∈ sources, ∃ stubs,
      (Interface.parse source.1 source.2).stubs st = .ok stubs ∧
        m = (snake source.1.stem, moduleBody stubs) := by
  obtain ⟨i, hi, stubs, hstubs, rfl⟩ := exists_of_mem_modules h
  obtain ⟨source, hsource, rfl⟩ := List.mem_map.1 hi
  exact ⟨source, hsource, stubs, hstubs, rfl⟩

theorem modules_notMem_iff (h : ∀ source ∈ sources, IsLabel source.1.stem) :
    (∀ name ∈ (gather st (sources.map fun source => Interface.parse source.1 source.2) {}).modules.map
      Prod.fst, name ∉ rustKeywords) ↔
      ∀ source ∈ sources, (moduleOf? st (Interface.parse source.1 source.2)).isSome →
        bare source.1.stem ∉ rustKeywords := by
  constructor
  · intro hnames source hsource hsome hk
    exact hnames _ (mem_names_gather.2 ⟨_, List.mem_map_of_mem hsource, hsome, rfl⟩)
      ((h source hsource).snake_mem_rustKeywords.2 hk)
  · intro hstems name hname
    obtain ⟨i, hi, hsome, rfl⟩ := mem_names_gather.1 hname
    obtain ⟨source, hsource, rfl⟩ := List.mem_map.1 hi
    exact mt (h source hsource).snake_mem_rustKeywords.1 (hstems source hsource hsome)

end

/-- That a stub which is not commented out declares parameters none of which is called like a keyword. -/
def PlainParams (stub : Stub) : Prop :=
  stub.plan.isHttp = false → (stub.plan.declaration "").toList <:+: stub.code.toList ∧
    ∃ params, ((stub.plan.declaredParams "").map String.toList).mapM readParam? = some params ∧
      ∀ q ∈ params, q.1 ∉ rustKeywords

theorem plainParams_of_stubs {st : StubSettings} {i : Interface} {stubs : List Stub} (ht : st.templates = {})
    (hk : ∀ s ∈ i.signatures, ∀ f ∈ s.fields, IsLabel f.name) (h : i.stubs st = .ok stubs) :
    ∀ stub ∈ stubs, PlainParams stub := by
  intro stub hstub hlive
  obtain ⟨s, hs, hmade⟩ := exists_of_mem_right (Interface.stubs_eq_ok_iff.1 h) hstub
  obtain ⟨hplans, hcode⟩ := Signature.collect_stub_eq_ok_iff.1 hmade
  have hlead : stub.plan.lead = "" := by rw [StubPlan.lead, hlive]; rfl
  have hshown := StubPlan.declaration_infix (by rw [ht]) (by rw [ht]) hcode
  have hread := hplans.readParams (hk s hs)
  rw [hlead] at hshown hread
  exact ⟨hshown, _, hread, hplans.shownParams_notMem hlive⟩

/-- Of the names that a library shows, those of parameters are never keywords of Rust, whatever the fields
are called. Some name of a module is a keyword exactly if an interface that makes one, or an imported one,
is called like a keyword, escaped or not. -/
theorem keywords_shown_iff (timeout : Int) (strict : Bool) (sources : List (Path × String)) (witPath : String)
    (world : World) (hstems : ∀ source ∈ sources, IsLabel source.1.stem)
    (himports : ∀ i ∈ world.imports, IsLabel i)
    (hfields : ∀ source ∈ sources, ∀ s ∈ (Interface.parse source.1 source.2).signatures, ∀ f ∈ s.fields,
      IsLabel f.name)
    (hpath : Unbroken witPath.toList) (hworld : Unbroken world.name.toList) :
    let st : StubSettings := { timeout, strict }
    let lib := gather st (sources.map fun source => Interface.parse source.1 source.2) {}
    let shown := lines (lib.render none witPath world.name world.imports).toList
    (readModules? shown = some lib.modules ∧ ∀ m ∈ lib.modules, ∃ source ∈ sources, ∃ stubs,
      (Interface.parse source.1 source.2).stubs st = .ok stubs ∧
      m = (snake source.1.stem, moduleBody stubs) ∧ ∀ stub ∈ stubs, PlainParams stub) ∧
    namesIn openedModule? shown = lib.modules.map Prod.fst ∧
    namesIn usedName? shown = "SendResult" :: "send" :: importedModules world.imports ∧
    ((∀ name ∈ namesIn openedModule? shown ++ namesIn usedName? shown, name ∉ rustKeywords) ↔
      (∀ source ∈ sources, (moduleOf? st (Interface.parse source.1 source.2)).isSome →
        bare source.1.stem ∉ rustKeywords) ∧ ∀ i ∈ world.imports, bare i ∉ rustKeywords) := by
  intro st lib shown
  have hnames : ∀ m ∈ lib.modules, Unbroken m.1.toList := by
    intro m hm
    obtain ⟨source, hsource, stubs, -, rfl⟩ := source_of_mem_modules hm
    exact unbroken_snake (hstems source hsource).unbroken
  have hshown : shown = shownLines witPath world.name (importedModules world.imports) lib :=
    lines_render hpath hworld (fun i hi => (himports i hi).unbroken) hnames
  have hopened : namesIn openedModule? shown = lib.modules.map Prod.fst := by
    rw [hshown]
    exact namesIn_opened_shownLines
  have hused : namesIn usedName? shown = "SendResult" :: "send" :: importedModules world.imports := by
    rw [hshown]
    exact namesIn_used_shownLines (colon_notMem_importedModules himports)
  refine ⟨⟨?_, fun m hm => ?_⟩, hopened, hused, ?_⟩
  · rw [hshown, shownLines, readModules?_skip openedModule?_frontLines]
    refine readModules?_modules fun m hm => ?_
    obtain ⟨source, -, stubs, hstubs, rfl⟩ := source_of_mem_modules hm
    exact onlyFeeds_moduleBody rfl (fun s => Interface.oneLined_of_mem_parse) hstubs
  · obtain ⟨source, hsource, stubs, hstubs, rfl⟩ := source_of_mem_modules hm
    exact ⟨source, hsource, stubs, hstubs, rfl, plainParams_of_stubs rfl (hfields source hsource) hstubs⟩
  · have hmodules : (∀ name ∈ lib.modules.map Prod.fst, name ∉ rustKeywords) ↔ _ := modules_notMem_iff hstems
    have hfixed : "SendResult" ∉ rustKeywords ∧ "send" ∉ rustKeywords := by decide
    rw [hopened, hused, List.forall_mem_append, List.forall_mem_cons, List.forall_mem_cons, hmodules,
      imported_notMem_iff himports]
    exact and_congr_right fun _ => ⟨fun h => h.2.2, fun h => ⟨hfixed.1, hfixed.2, h⟩⟩

/-- A field and an interface that are called like keywords, both escaped: the parameter is made raw, and
the module is not. -/
theorem keywords_shown_iff_match :
    let source := "record get-signature-remote \x7b\n  %type: u8\n\x7d"
    let world : World := ⟨"demo", ["k-v"]⟩
    let lib := gather {} [Interface.parse (.absolute ["w", "api", "%match.wit"]) source] {}
    let shown := lines (lib.render none "target/wit" world.name world.imports).toList
    namesIn openedModule? shown = ["match"] ∧ namesIn usedName? shown = ["SendResult", "send", "k_v"] ∧
      (¬ ∀ name ∈ namesIn openedModule? shown ++ namesIn usedName? shown, name ∉ rustKeywords) ∧
      ∃ stubs, (Interface.parse (.absolute ["w", "api", "%match.wit"]) source).stubs {} = .ok stubs ∧
        (∀ stub ∈ stubs, PlainParams stub) ∧
        stubs.map (fun stub => stub.plan.declaredParams "") = [["target: &Address", "r#type: u8"]] := by
  intro source world lib shown
  let path : Path := .absolute ["w", "api", "%match.wit"]
  have hfields : ∀ file ∈ [(path, source)], ∀ s ∈ (Interface.parse file.1 file.2).signatures,
      ∀ f ∈ s.fields, IsLabel f.name := by
    decide +kernel
  obtain ⟨⟨-, hmade⟩, hopened, hused, hiff⟩ := keywords_shown_iff 30 false [(path, source)] "target/wit" world
    (by decide) (by decide) hfields (by decide) (by decide)
  have hnames : lib.modules.map Prod.fst = ["match"] := by decide +kernel
  have himported : importedModules world.imports = ["k_v"] := by decide +kernel
  have hsome : (moduleOf? {} (Interface.parse path source)).isSome = true := by decide +kernel
  obtain ⟨m, hm⟩ : ∃ m, m ∈ lib.modules := List.exists_mem_of_ne_nil _ fun hnil => by simp [hnil] at hnames
  obtain ⟨file, hfile, stubs, hstubs, -, hplain⟩ := hmade m hm
  obtain rfl := List.mem_singleton.1 hfile
  have hdeclared : ((Interface.parse path source).stubs {}).toOption.map
      (fun stubs => stubs.map fun stub => stub.plan.declaredParams "") =
        some [["target: &Address", "r#type: u8"]] := by
    decide +kernel
  refine ⟨hopened.trans hnames, hused.trans (by rw [himported]), fun h => ?_, stubs, hstubs, hplain, ?_⟩
  · exact (hiff.1 h).1 (path, source) List.mem_cons_self hsome (by decide +kernel)
  · have hmap : ((Interface.parse path source).stubs {}).toOption = some stubs := congrArg _ hstubs
    rw [hmap] at hdeclared
    exact Option.some.inj hdeclared

end Library

end WitCaller
