import WitCaller.Proofs.IdleFiles
import WitCaller.Proofs.LibraryText

/-!
Each module of a library comes from one interface file alone, and the library is the same without
the interface files that are no text or whose stubs cannot all be made.
-/

namespace WitCaller.Generation
open Session
variable {config : Option Config} {r : Request} {s s' : Session} {g : Generation} {c : Config}
  {st : StubSettings} {files : List Path}

theorem modules_of_nodup {is : List Interface}
    (h : (is.map fun i => Identifier.snake i.name).Nodup) :
    (Library.gather st is {}).modules = is.filterMap (Library.moduleOf? st) := by
  -- A module has the name of its interface, so the names of the modules are some of those.
  have hsub : ((is.filterMap (Library.moduleOf? st)).map Prod.fst).Sublist
      (is.map fun i => Identifier.snake i.name) := by
    induction is with
    | nil => exact .slnil
    | cons i is ih =>
      rw [List.filterMap_cons, List.map_cons]
      have hrest := ih (List.nodup_cons.1 h).2
      cases hs : i.stubs? st with
      | none =>
        rw [Library.moduleOf?, hs]
        exact hrest.cons _
      | some stubs =>
        rw [Library.moduleOf?, hs]
        exact hrest.cons_cons _
  rw [Library.modules_gather]
  exact Assoc.insertAll_of_nodup (hsub.nodup h)

/-- In the order of the files, there is a module for each interface file whose stubs can all be made,
and it holds the stubs of its own file. Without the files that are no text or whose stubs cannot all
be made the library has the same text, as long as the file stays which the types world of the first
plain world is looked for in. -/
theorem run_modules_independent (hc : s.settings config (baseOf s r) = .ok c)
    (hk : s.Quiet (apiDirectory s.cwd (baseOf s r) r.apiDir c)) (ht : Templates.Quiet s c.templatesDir)
    (h : run config r s = (.ok g, s')) : ∃ files st template,
      s.filesIn (apiDirectory s.cwd (baseOf s r) r.apiDir c) = .ok files ∧
      files.Pairwise (fun p p' => p.name ≤ p'.name) ∧ s.stubSettings c = .ok st ∧
      g.source = (Library.gather st (files.filterMap s.interfaceAt?) {}).render template c.witDir
        g.world.name g.world.imports ∧
      (((files.filterMap s.interfaceAt?).map fun i => Identifier.snake i.name).Nodup →
        (Library.gather st (files.filterMap s.interfaceAt?) {}).modules =
          files.filterMap fun p => (s.interfaceAt? p).bind (Library.moduleOf? st)) ∧
      ∀ q : Place → Bool,
        (∀ place, q place = true →
          s.Idle st (apiDirectory s.cwd (baseOf s r) r.apiDir c) files place) →
        ∃ g' s'', run config { r with dryRun := true } (s.without q) = (.ok g', s'') ∧
          g'.source = g.source := by
  obtain ⟨hb, d, hd, hworld, -, hsource⟩ := run_yields hc hk ht h
  obtain ⟨world, st, files, made, template, -, hst, hfiles, hmade, -, rfl⟩ := draft_eq_ok_iff.1 hd
  have hlib : made.2 = Library.gather st (files.filterMap s.interfaceAt?) {} := by
    unfold Library.collectAll at hmade
    split at hmade <;> cases hmade
    rfl
  refine ⟨files, st, template, hfiles, pairwise_filesIn hfiles, hst, ?_, fun hn => ?_, ?_⟩
  · rw [hsource, hworld, hlib]
  · rw [modules_of_nodup hn, List.filterMap_filterMap]
  · intro q hq
    have hfree := holdsFiles_of_idle hfiles hq
    have hd' := draft_without hfiles hq rfl hst hd
    obtain ⟨s'', hrun⟩ := dryRun_yields (s := s.without q) (hfree.isDirectory.trans hb)
      (settings_without hfiles hq hb hc) hk ht hd'
    exact ⟨_, s'', hrun, hsource.symm⟩

/-- A directory with a world, an interface whose stub cannot be made, and one whose stub can. -/
def mixedFiles : Session where
  cwd := ["w"]
  tree := ⟨[(["w"], .directory), (["w", "api"], .directory),
    (["w", "api", "a.wit"], .file (Utf8.encode "world a".toList)),
    (["w", "api", "bad.wit"], .file (Utf8.encode
      "record f-signature-http \x7b\nx: a<\n\x7d".toList)),
    (["w", "api", "good.wit"], .file (Utf8.encode
      "record g-signature-http \x7b\n\x7d".toList))]⟩

theorem filesIn_mixedFiles : mixedFiles.filesIn (.absolute ["w", "api"]) = .ok [
    .absolute ["w", "api", "a.wit"], .absolute ["w", "api", "bad.wit"],
    .absolute ["w", "api", "good.wit"]] := by
  have hnames : mixedFiles.tree.namesIn ["w", "api"] = ["a.wit", "bad.wit", "good.wit"] := by
    decide
  have hlist : mixedFiles.tree.list ["w"] (.absolute ["w", "api"]) = .ok ["a.wit", "bad.wit", "good.wit"] :=
    congrArg Except.ok hnames
  rw [filesIn_of_list hlist]
  exact congrArg Except.ok (by decide)

theorem run_modules_independent_mixedFiles :
    let r : Request := { dryRun := true }
    let c : Config := { root := .absolute ["w"] }
    let files : List Path := [.absolute ["w", "api", "a.wit"], .absolute ["w", "api", "bad.wit"],
      .absolute ["w", "api", "good.wit"]]
    let bad : Place → Bool := fun place => place = ["w", "api", "bad.wit"]
    mixedFiles.Spoiled {} (.absolute ["w", "api", "bad.wit"]) ∧
      ∃ g s', run (some c) r mixedFiles = (.ok g, s') ∧
        (Library.gather {} (files.filterMap mixedFiles.interfaceAt?) {}).modules =
          files.filterMap (fun p => (mixedFiles.interfaceAt? p).bind (Library.moduleOf? {})) ∧
        ∃ g' s'', run (some c) r (mixedFiles.without bad) = (.ok g', s'') ∧ g'.source = g.source := by
  intro r c files bad
  have hbase : baseOf mixedFiles r = .absolute ["w"] := by decide
  have hapi : apiDirectory mixedFiles.cwd (baseOf mixedFiles r) r.apiDir c = .absolute ["w", "api"] := by
    decide
  have hworlds : mixedFiles.worldNames files = ["a"] := by decide +kernel
  have hplain : (mixedFiles.worldNames files).find? (!World.isTypesName ·) = some "a" := by
    rw [hworlds]
    decide
  have hspoiled : mixedFiles.Spoiled {} (.absolute ["w", "api", "bad.wit"]) :=
    spoiled_of_fails (by decide +kernel)
  obtain ⟨d, hd, -⟩ := draft_of_files {} none hapi (by decide)
    filesIn_mixedFiles (worldName_of_plain "a" (by rw [hworlds]; decide) hplain) rfl
    (by decide +kernel) rfl
  have hquiet : mixedFiles.Quiet (apiDirectory mixedFiles.cwd (baseOf mixedFiles r) r.apiDir c) := nofun
  have hc : mixedFiles.settings (some c) (baseOf mixedFiles r) = .ok c := rfl
  obtain ⟨s', hrun⟩ := dryRun_yields (by decide) hc hquiet nofun hd
  obtain ⟨files', st, template, hfiles, -, hst, -, hmodules, hindependent⟩ :=
    run_modules_independent hc hquiet nofun hrun
  rw [hapi] at hfiles hindependent
  cases filesIn_mixedFiles.symm.trans hfiles
  cases hst
  refine ⟨hspoiled, _, s', hrun, hmodules (by decide +kernel), hindependent bad fun place hp => ?_⟩
  have hp : place = ["w", "api", "bad.wit"] := of_decide_eq_true hp
  refine ⟨⟨.absolute ["w", "api", "bad.wit"], by decide, hp.symm, hspoiled⟩, ?_⟩
  rintro ⟨name, hname, ht⟩
  rw [hplain] at hname
  cases hname
  rw [hp] at ht
  revert ht
  decide

/-- A world whose name leads back through a directory, to an interface whose stub cannot be made. -/
def dottedWorld : Session where
  cwd := ["w"]
  tree := ⟨[(["w"], .directory), (["w", "api"], .directory),
    (["w", "api", "a.wit"], .file (Utf8.encode "world x/../odd".toList)),
    (["w", "api", "odd.wit"], .file (Utf8.encode
      "record f-signature-http \x7b\nx: a<\n\x7d".toList)),
    (["w", "api", "types-x"], .directory)]⟩

theorem filesIn_dottedWorld : dottedWorld.filesIn (.absolute ["w", "api"]) = .ok [
    .absolute ["w", "api", "a.wit"], .absolute ["w", "api", "odd.wit"]] := by
  have hnames : dottedWorld.tree.namesIn ["w", "api"] = ["a.wit", "odd.wit", "types-x"] := by
    decide
  have hlist : dottedWorld.tree.list ["w"] (.absolute ["w", "api"]) = .ok ["a.wit", "odd.wit", "types-x"] :=
    congrArg Except.ok hnames
  rw [filesIn_of_list hlist]
  exact congrArg Except.ok (by decide)

/-- The file that a types world is looked for in need not have the name of one: without it another
world is taken, although its interface cannot be added. -/
theorem source_ne_dottedWorld :
    let r : Request := { dryRun := true }
    let c : Config := { root := .absolute ["w"] }
    let files : List Path := [.absolute ["w", "api", "a.wit"], .absolute ["w", "api", "odd.wit"]]
    let odd : Place → Bool := fun place => place = ["w", "api", "odd.wit"]
    dottedWorld.worldNames files = ["x/../odd"] ∧ "odd.wit" ≠ World.typesMark ++ "x/../odd" ++ ".wit" ∧
      dottedWorld.Spoiled {} (.absolute ["w", "api", "odd.wit"]) ∧
      ((files.filterMap dottedWorld.interfaceAt?).map fun i => Identifier.snake i.name).Nodup ∧
      ∃ g g' s' s'', run (some c) r dottedWorld = (.ok g, s') ∧
        run (some c) r (dottedWorld.without odd) = (.ok g', s'') ∧ g'.source ≠ g.source := by
  intro r c files odd
  have hapi : apiDirectory dottedWorld.cwd (baseOf dottedWorld r) r.apiDir c = .absolute ["w", "api"] := by
    decide
  have hworlds : dottedWorld.worldNames files = ["x/../odd"] := by decide +kernel
  have hspoiled : dottedWorld.Spoiled {} (.absolute ["w", "api", "odd.wit"]) :=
    spoiled_of_fails (by decide +kernel)
  have hfree : dottedWorld.HoldsFiles odd := by
    intro place hp
    rw [of_decide_eq_true hp]
    exact ⟨_, rfl⟩
  have hfiles' : (dottedWorld.without odd).filesIn (.absolute ["w", "api"]) =
      .ok [.absolute ["w", "api", "a.wit"]] := by
    rw [hfree.filesIn filesIn_dottedWorld]
    exact congrArg Except.ok (by decide)
  have hworlds' : (dottedWorld.without odd).worldNames [.absolute ["w", "api", "a.wit"]] = ["x/../odd"] := by
    decide +kernel
  obtain ⟨d, hd, hsource⟩ := draft_of_files {} none hapi (by decide)
    filesIn_dottedWorld (worldName_of_plain "x/../odd" (by rw [hworlds]; decide)
      (by rw [hworlds]; decide)) rfl (by decide +kernel) rfl
  obtain ⟨d', hd', hsource'⟩ := draft_of_files (s := dottedWorld.without odd) {} none
    hapi (by decide) hfiles' (worldName_of_plain "x/../odd"
      (by rw [hworlds']; decide) (by rw [hworlds']; decide)) rfl (by decide +kernel) rfl
  have hc : dottedWorld.settings (some c) (baseOf dottedWorld r) = .ok c := rfl
  have hc' : (dottedWorld.without odd).settings (some c) (baseOf (dottedWorld.without odd) r) = .ok c := rfl
  obtain ⟨s', hrun⟩ := dryRun_yields (by decide) hc nofun nofun hd
  obtain ⟨s'', hrun'⟩ := dryRun_yields (by decide +kernel) hc' nofun nofun hd'
  refine ⟨hworlds, by decide, hspoiled, by decide +kernel, _, _, s', s'', hrun, hrun', ?_⟩
  change d'.source ≠ d.source
  have hthere : dottedWorld.tree.exists? ["w"] (typesFile (.absolute ["w", "api"]) "x/../odd") = true := by
    decide
  have hgone : (dottedWorld.without odd).tree.exists? ["w"]
      (typesFile (.absolute ["w", "api"]) "x/../odd") = false := by decide
  have himports : (files.filterMap dottedWorld.worldText?).flatMap World.importsOf = [] := by decide +kernel
  have himports' : ([Path.absolute ["w", "api", "a.wit"]].filterMap
      (dottedWorld.without odd).worldText?).flatMap World.importsOf = [] := by decide +kernel
  rw [hsource, hsource', himports, himports']
  change Library.render none c.witDir
    (if (dottedWorld.without odd).tree.exists? ["w"] _ = true then _ else _) [] _ ≠
      Library.render none c.witDir (if dottedWorld.tree.exists? ["w"] _ = true then _ else _) [] _
  rw [hthere, hgone]
  exact Library.render_ne_of_world (by decide) (by decide)

end WitCaller.Generation
