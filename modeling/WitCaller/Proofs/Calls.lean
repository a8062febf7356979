import WitCaller.Proofs.Gathering
import WitCaller.World

/-!
Calls on one library, in any order. Only the interfaces that can be added change what later calls
answer: calls that fail, and those that only show the library, could as well not have been made.
-/

namespace WitCaller

namespace Library
variable {lib : Library} {imports : List String}

/-- Bring in the module that an import names, unless it names none or one that was brought in before. -/
def bringIn (lib : Library) (target : String) : Library :=
  let module := Identifier.moduleName target
  if module = "" ∨ module ∈ lib.imported then lib
  else { lib with imported := lib.imported ++ [module] }

/-- Forget which modules were brought in, and bring in those of imports one by one. -/
def reimport (imports : List String) (lib : Library) : Library :=
  imports.foldl bringIn { lib with imported := [] }

theorem foldl_bringIn : imports.foldl bringIn lib =
    { lib with imported := lib.imported ++ (importedModules imports).filter (· ∉ lib.imported) } := by
  induction imports generalizing lib with
  | nil => exact congrArg (fun l => { lib with imported := l }) (List.append_nil _).symm
  | cons target imports ih =>
    rw [List.foldl_cons, ih, bringIn]
    by_cases hempty : Identifier.moduleName target = ""
    · simp [hempty, importedModules]
    · have hcons : importedModules (target :: imports) = Identifier.moduleName target ::
          (importedModules imports).filter (· ≠ Identifier.moduleName target) := by
        simp [importedModules, hempty, distinct]
      by_cases hseen : Identifier.moduleName target ∈ lib.imported
      · -- The other modules that were brought in differ from this one, which is there already.
        have hrest : ((importedModules imports).filter (· ≠ Identifier.moduleName target)).filter
            (· ∉ lib.imported) = (importedModules imports).filter (· ∉ lib.imported) := by
          rw [List.filter_filter]
          refine List.filter_congr fun module _ => ?_
          by_cases hm : module ∈ lib.imported
          · simp [hm]
          · have hne : module ≠ Identifier.moduleName target := fun h => hm (h ▸ hseen)
            simp [hm, hne]
        simp only [hseen, or_true, if_true, hcons]
        rw [List.filter_cons_of_neg (by simpa using hseen), hrest]
      · have hrest : ((importedModules imports).filter (· ≠ Identifier.moduleName target)).filter
            (· ∉ lib.imported) = (importedModules imports).filter
              (· ∉ lib.imported ++ [Identifier.moduleName target]) := by
          rw [List.filter_filter]
          refine List.filter_congr fun module _ => ?_
          simp [not_or]
        simp only [hempty, hseen, or_false, if_false, hcons]
        rw [List.filter_cons_of_pos (by simpa using hseen), hrest, List.append_assoc]
        rfl

/-- Which modules were brought in before does not matter. -/
theorem reimport_eq : lib.reimport imports = lib.withImports imports := by
  rw [reimport, foldl_bringIn]
  simp [withImports]

end Library

/-- A call on a library: add an interface, bring in imports, or show the library for a world. -/
inductive Call where
  | add (i : Interface)
  | uses (imports : List String)
  | render (world : World)
  deriving DecidableEq

/-- What a call answers. -/
inductive Answer where
  | added (outcome : Except StubError Bool)
  | modules (names : List String)
  | source (text : String)

/-- What all calls on one library have in common. -/
structure Assembler where
  stubs : StubSettings
  template : Option Template := none
  witPath : String

namespace Assembler
variable {a : Assembler} {lib lib' : Library} {c : Call} {cs ds : List Call}

/-- The answer to a call. -/
def answer (a : Assembler) (lib : Library) : Call → Answer
  | .add i => .added (lib.add a.stubs i).outcome
  | .uses imports => .modules (lib.reimport imports).imported
  | .render w => .source (lib.render a.template a.witPath w.name w.imports)

/-- The library after a call. -/
def effect (a : Assembler) (lib : Library) : Call → Library
  | .add i => (lib.add a.stubs i).library
  | .uses imports => lib.reimport imports
  | .render w => lib.reimport w.imports

/-- The library after calls. -/
def run (a : Assembler) (lib : Library) (cs : List Call) : Library := cs.foldl a.effect lib

/-- The answers to calls, in order. -/
def answers (a : Assembler) (lib : Library) : List Call → List Answer
  | [] => []
  | c :: cs => a.answer lib c :: a.answers (a.effect lib c) cs

/-- Whether a call adds an interface and does not fail. -/
def adds (a : Assembler) (lib : Library) : Call → Bool
  | .add i => (lib.add a.stubs i).outcome.isOk
  | _ => false

/-- The calls that add an interface and do not fail when all calls are made in order. -/
def kept (a : Assembler) (lib : Library) : List Call → List Call
  | [] => []
  | c :: cs =>
    if a.adds lib c then c :: a.kept (a.effect lib c) cs else a.kept (a.effect lib c) cs

theorem length_answers : (a.answers lib cs).length = cs.length := by
  induction cs generalizing lib with
  | nil => rfl
  | cons c cs ih => rw [answers, List.length_cons, List.length_cons, ih]

theorem answers_append : a.answers lib (cs ++ ds) = a.answers lib cs ++ a.answers (a.run lib cs) ds := by
  induction cs generalizing lib with
  | nil => rfl
  | cons c cs ih =>
    rw [List.cons_append, answers, answers, ih, List.cons_append]
    rfl

/-- Two libraries that only differ in what no call shows: which types the interfaces have, and which
modules were brought in last. -/
def Alike (lib lib' : Library) : Prop :=
  lib.modules = lib'.modules ∧ lib.usesHashMap = lib'.usesHashMap

theorem answer_of_alike (h : Alike lib lib') : a.answer lib c = a.answer lib' c := by
  cases c with
  | add i => rw [answer, answer, Library.outcome_add, Library.outcome_add]
  | uses imports =>
    rw [answer, answer, Library.reimport_eq, Library.reimport_eq]
    rfl
  | render w => rw [answer, answer, Library.render_congr h.1 h.2]

theorem alike_reimport {imports : List String} : Alike (lib.reimport imports) lib := by
  rw [Library.reimport_eq]
  exact ⟨rfl, rfl⟩

/-- An interface that makes no module leaves the modules and the need of the hash map as they are. -/
theorem alike_add {st : StubSettings} {i : Interface} (h : (lib.add st i).outcome ≠ .ok true) :
    Alike (lib.add st i).library lib := by
  have hnone : i.stubs? st = none := by
    rwa [Library.outcome_add, ne_eq, Library.outcomeOf_eq_true_iff, Option.not_isSome_iff_eq_none] at h
  rw [Library.library_add, hnone]
  exact ⟨rfl, rfl⟩

theorem alike_effect_of_not_adds (h : a.adds lib c = false) : Alike (a.effect lib c) lib := by
  cases c with
  | add i =>
    refine alike_add fun hmade => ?_
    rw [adds, hmade] at h
    cases h
  | uses imports => exact alike_reimport
  | render w => exact alike_reimport

theorem alike_effect (h : Alike lib lib') (hc : a.adds lib c = true) :
    Alike (a.effect lib c) (a.effect lib' c) := by
  cases c with
  | add i =>
    refine ⟨?_, ?_⟩
    · rw [effect, effect, Library.modules_add, Library.modules_add, h.1]
    · rw [effect, effect, Library.usesHashMap_add, Library.usesHashMap_add, h.2]
  | uses imports => cases hc
  | render w => cases hc

/-- The calls that are kept lead to a library that later calls cannot tell from the one after all. -/
theorem alike_run (h : Alike lib lib') : Alike (a.run lib cs) (a.run lib' (a.kept lib cs)) := by
  induction cs generalizing lib lib' with
  | nil => exact h
  | cons c cs ih =>
    rw [kept]
    split
    -- A call that is kept is made on both sides, and one that is not changes nothing that shows.
    · next hc => exact ih (alike_effect h hc)
    · next hc =>
      obtain ⟨hm, hh⟩ := alike_effect_of_not_adds (Bool.not_eq_true _ ▸ hc)
      exact ih ⟨hm.trans h.1, hh.trans h.2⟩

/-- Every call answers what it would answer if, of the calls before it, only those had been made that
add an interface and do not fail. An interface that cannot be added leaves the modules and the need of
the hash map as they are, and a library that is shown twice is shown with the same text. -/
theorem answers_kept (a : Assembler) (lib : Library) :
    (∀ before c after, (a.answers lib (before ++ c :: after))[before.length]? =
      (a.answers lib (a.kept lib before ++ [c])).getLast?) ∧
    (∀ i e, (lib.add a.stubs i).outcome = .error e →
      (lib.add a.stubs i).library.modules = lib.modules ∧
      (lib.add a.stubs i).library.usesHashMap = lib.usesHashMap) ∧
    ∀ w, ∃ text, a.answers lib [.render w, .render w] = [.source text, .source text] := by
  refine ⟨fun before c after => ?_, fun i e he => ?_, fun w => ?_⟩
  · have hsame : a.answer (a.run lib before) c = a.answer (a.run lib (a.kept lib before)) c :=
      answer_of_alike (alike_run ⟨rfl, rfl⟩)
    rw [answers_append, answers_append, answers, answers, answers, List.getLast?_concat,
      List.getElem?_append_right (Nat.le_of_eq length_answers), length_answers, Nat.sub_self, hsame]
    rfl
  · refine alike_add ?_
    rw [he]
    simp
  · refine ⟨lib.render a.template a.witPath w.name w.imports, ?_⟩
    have hagain : a.answer (a.effect lib (.render w)) (.render w) = a.answer lib (.render w) :=
      answer_of_alike alike_reimport
    rw [answers, answers, answers, hagain]
    rfl

/-- An interface whose stub needs the hash map. -/
def scores : Interface where
  path := ⟨.relative, ["scores.wit"]⟩
  items := [.signature "top-signature-local" "top" "local" [.field ⟨"returning", "map<string, u8>"⟩]]

/-- An interface whose second stub cannot be made, after the first would have needed the hash map. -/
def halfMade : Interface where
  path := ⟨.relative, ["half.wit"]⟩
  items := [.signature "a-signature-local" "a" "local" [.field ⟨"x", "map<u8, u8>"⟩],
    .signature "b-signature-local" "b" "local" [.field ⟨"y", "list<"⟩]]

theorem answers_kept_halfMade :
    let a : Assembler := { stubs := {}, witPath := "target/wit" }
    let w : World := ⟨"w", ["ns:p/scores", "scores"]⟩
    let before : List Call := [.add halfMade, .render w, .uses ["x"], .add scores, .add halfMade]
    a.kept {} before = [.add scores] ∧
      (a.answers {} (before ++ .render w :: [.render w]))[5]? =
        (a.answers {} [.add scores, .render w]).getLast? ∧
      ∃ e, (({} : Library).add a.stubs halfMade).outcome = .error e ∧
        (({} : Library).add a.stubs halfMade).library.usesHashMap = false := by
  intro a w before
  have hkept : a.kept {} before = [.add scores] := by decide +kernel
  obtain ⟨hsame, hfails, -⟩ := answers_kept a {}
  have hlast := hsame before (.render w) [.render w]
  rw [hkept] at hlast
  have hfailed : (({} : Library).add a.stubs halfMade).outcome.isOk = false := by decide +kernel
  rcases he : (({} : Library).add a.stubs halfMade).outcome with e | made
  · exact ⟨hkept, hlast, e, rfl, (hfails halfMade e he).2⟩
  · rw [he] at hfailed
    cases hfailed

end Assembler

end WitCaller
