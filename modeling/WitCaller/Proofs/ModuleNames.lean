import WitCaller.Proofs.IdleFiles
import WitCaller.Proofs.LibraryText

/-!
The names of modules. Interfaces whose names are the same in snake case make modules of one name, and
a library holds the last of them only, while a run names each. Without repetitions among the names,
the library shows all modules in the order of their interfaces.
-/

namespace WitCaller

namespace Library
open Assoc
variable {st : StubSettings} {is : List Interface} {l es : List (String × String)}

theorem keys_insertAll : (insertAll l es).map Prod.fst =
    l.map Prod.fst ++ (distinct (es.map Prod.fst)).filter (· ∉ l.map Prod.fst) := by
  induction es generalizing l with
  | nil => exact (List.append_nil _).symm
  | cons e es ih =>
    have hstep : (insertAll (insert e.1 e.2 l) es).map Prod.fst = _ := ih
    rw [insertAll, List.foldl_cons]
    refine hstep.trans ?_
    rw [keys_insert, List.map_cons, distinct]
    by_cases he : e.1 ∈ l.map Prod.fst
    · rw [if_pos he, List.filter_cons_of_neg (by simpa using he), List.filter_filter]
      congr 1
      refine List.filter_congr fun name _ => ?_
      by_cases hn : name ∈ l.map Prod.fst
      · simp [hn]
      · have hne : name ≠ e.1 := fun h => hn (h ▸ he)
        simp [hn, hne]
    · rw [if_neg he, List.filter_cons_of_pos (by simpa using he), List.filter_filter, List.append_assoc]
      congr 1
      change e.1 :: _ = e.1 :: _
      congr 1
      refine List.filter_congr fun name _ => ?_
      by_cases hne : name = e.1 <;> simp [hne]

theorem names_gather : (gather st is {}).modules.map Prod.fst =
    distinct ((is.filterMap (moduleOf? st)).map Prod.fst) := by
  rw [modules_gather, keys_insertAll]
  simp

theorem nodup_names_gather : ((gather st is {}).modules.map Prod.fst).Nodup := by
  have hempty : ((({} : Library).modules).map Prod.fst).Nodup := List.nodup_nil
  rw [modules_gather]
  exact nodup_keys_insertAll hempty

theorem modules_gather_eq_iff : (gather st is {}).modules = is.filterMap (moduleOf? st) ↔
    ((is.filterMap (moduleOf? st)).map Prod.fst).Nodup := by
  rw [modules_gather]
  constructor
  · intro h
    have hkeys : ((gather st is {}).modules.map Prod.fst).Nodup := nodup_names_gather
    rwa [modules_gather, h] at hkeys
  · intro h
    exact insertAll_of_nodup (l := ([] : List (String × String))) h

theorem get?_gather {name : String} : get? name (gather st is {}).modules =
    (is.filterMap (moduleOf? st)).reverse.lookup name := by
  rw [modules_gather, get?_insertAll]
  exact Option.or_none

end Library

namespace Generation
open Session Library

/-- Of the modules of one name a library keeps the last, and it shows the block of each module that
it keeps. All are kept if and only if no two have the same name. A run names the modules of all
interfaces that were added, which are those of the library if and only if no name is repeated. -/
theorem modules_kept_iff (st : StubSettings) (is : List Interface) :
    ((∀ i lib, (add st i lib).outcome = .ok true ↔ (moduleOf? st i).isSome) ∧
      ((gather st is {}).modules = is.filterMap (moduleOf? st) ↔
        ((is.filterMap (moduleOf? st)).map Prod.fst).Nodup) ∧
      (∀ name, Assoc.get? name (gather st is {}).modules =
        (is.filterMap (moduleOf? st)).reverse.lookup name) ∧
      ∀ m ∈ (gather st is {}).modules, ∀ witPath world imports,
        (moduleBlock m).toList <:+: ((gather st is {}).render none witPath world imports).toList) ∧
    ∀ config r s c g s', s.settings config (baseOf s r) = .ok c →
      s.Quiet (apiDirectory s.cwd (baseOf s r) r.apiDir c) → Templates.Quiet s c.templatesDir →
      run config r s = (.ok g, s') → ∃ files st template lib,
        s.filesIn (apiDirectory s.cwd (baseOf s r) r.apiDir c) = .ok files ∧
        s.stubSettings c = .ok st ∧ lib = gather st (files.filterMap s.interfaceAt?) {} ∧
        g.source = lib.render template c.witDir g.world.name g.world.imports ∧
        g.modules = ((files.filterMap s.interfaceAt?).filterMap (moduleOf? st)).map Prod.fst ∧
        lib.modules.map Prod.fst = distinct g.modules ∧
        (lib.modules.map Prod.fst = g.modules ↔ g.modules.Nodup) := by
  have hadd (i : Interface) (lib : Library) :
      (add st i lib).outcome = .ok true ↔ (moduleOf? st i).isSome := by
    rw [outcome_add, outcomeOf_eq_true_iff, moduleOf?, Option.isSome_map]
  refine ⟨⟨hadd, modules_gather_eq_iff, fun _ => get?_gather,
    fun m hm _ _ _ => block_infix_render hm⟩, ?_⟩
  intro config r s c g s' hc hk ht h
  obtain ⟨-, d, hd, hworld, hnames, hsource⟩ := run_yields hc hk ht h
  obtain ⟨world, st, files, made, template, -, hst, hfiles, hmade, -, rfl⟩ := draft_eq_ok_iff.1 hd
  have hlib : made = (((files.filterMap s.interfaceAt?).filterMap (moduleOf? st)).map Prod.fst,
      gather st (files.filterMap s.interfaceAt?) {}) := by
    unfold collectAll at hmade
    split at hmade <;> cases hmade
    rfl
  subst hlib
  refine ⟨files, st, template, _, hfiles, hst, rfl, by rw [hsource, hworld], hnames, ?_, ?_⟩
  · rw [hnames]
    exact names_gather
  · constructor
    · intro he
      rw [← he]
      exact nodup_names_gather
    · intro hn
      rw [hnames] at hn ⊢
      rw [modules_gather_eq_iff.2 hn]

/-- A directory with two interfaces whose names are the same in snake case. -/
def twinFiles : Session where
  cwd := ["w"]
  tree := ⟨[(["w"], .directory), (["w", "api"], .directory),
    (["w", "api", "a.wit"], .file (Utf8.encode "world a".toList)),
    (["w", "api", "b-c.wit"], .file (Utf8.encode "record f-signature-http \x7b\n\x7d".toList)),
    (["w", "api", "b_c.wit"], .file (Utf8.encode "record g-signature-http \x7b\n\x7d".toList))]⟩

theorem filesIn_twinFiles : twinFiles.filesIn (.absolute ["w", "api"]) = .ok [
    .absolute ["w", "api", "a.wit"], .absolute ["w", "api", "b-c.wit"],
    .absolute ["w", "api", "b_c.wit"]] := by
  have hnames : twinFiles.tree.namesIn ["w", "api"] = ["a.wit", "b-c.wit", "b_c.wit"] := by
    decide
  have hlist : twinFiles.tree.list ["w"] (.absolute ["w", "api"]) = .ok ["a.wit", "b-c.wit", "b_c.wit"] :=
    congrArg Except.ok hnames
  rw [filesIn_of_list hlist]
  exact congrArg Except.ok (by decide)

theorem modules_kept_iff_twinFiles :
    let r : Request := { dryRun := true }
    let c : Config := { root := .absolute ["w"] }
    ∃ g s' lib template, run (some c) r twinFiles = (.ok g, s') ∧ g.modules = ["b_c", "b_c"] ∧
      g.source = Library.render template c.witDir g.world.name g.world.imports lib ∧
      lib.modules.map Prod.fst = ["b_c"] := by
  intro r c
  have hapi : apiDirectory twinFiles.cwd (baseOf twinFiles r) r.apiDir c = .absolute ["w", "api"] := by
    decide
  have hworlds : twinFiles.worldNames [.absolute ["w", "api", "a.wit"],
      .absolute ["w", "api", "b-c.wit"], .absolute ["w", "api", "b_c.wit"]] = ["a"] := by decide +kernel
  obtain ⟨d, hd, -⟩ := draft_of_files {} none hapi (by decide)
    filesIn_twinFiles (worldName_of_plain "a" (by rw [hworlds]; decide)
      (by rw [hworlds]; decide)) rfl (by decide +kernel) rfl
  have hc : twinFiles.settings (some c) (baseOf twinFiles r) = .ok c := rfl
  obtain ⟨s', hrun⟩ := dryRun_yields (by decide) hc nofun nofun hd
  obtain ⟨-, hruns⟩ := modules_kept_iff {} []
  obtain ⟨files, st, template, lib, hfiles, hst, -, hsource, hnames, hblocks, -⟩ :=
    hruns (some c) r twinFiles c _ s' hc nofun nofun hrun
  rw [hapi] at hfiles
  cases filesIn_twinFiles.symm.trans hfiles
  cases hst
  have hmodules : (ofDraft d).modules = ["b_c", "b_c"] := hnames.trans (by decide +kernel)
  refine ⟨_, s', lib, template, hrun, hmodules, hsource, hblocks.trans ?_⟩
  change Library.distinct (ofDraft d).modules = _
  rw [hmodules]
  decide

end Generation

end WitCaller
