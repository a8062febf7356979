import Mathlib
import WitCaller.Proofs.EscapedNames
import WitCaller.Proofs.Legibility
import WitCaller.Proofs.OperationNames

/-!
Defaults of the types that an interface defines itself. The Rust type of a name is passed on as a text,
so a name that reads like a built-in type of Rust in Pascal case gets the default of that type.
-/

namespace WitCaller

theorem lookup_of_notMem {α β : Type} [BEq α] [LawfulBEq α] {a : α} {l : List (α × β)}
    (h : a ∉ l.map Prod.fst) : l.lookup a = none := by
  refine List.lookup_eq_none_iff.2 fun p hp => bne_iff_ne.2 ?_
  rintro rfl
  exact h (List.mem_map_of_mem hp)

namespace TypeToken

theorem isNameChar_of_isAlphanum {c : Char} (h : c.isAlphanum = true) : isNameChar c = true :=
  Text.of_isAlphanum (p := fun c => isNameChar c = true) (by decide +kernel) h

end TypeToken

namespace Identifier
open Text TypeToken
variable {name : String}

theorem IsLabel.isName (h : IsLabel name) : IsName name.toList := by
  refine ⟨fun hnil => ?_, fun c hc => ?_⟩
  · obtain rfl := String.toList_eq_nil_iff.1 hnil
    exact absurd h (by decide)
  · rcases h.mem_cases hc with halnum | rfl | rfl
    · exact isNameChar_of_isAlphanum halnum
    · decide
    · decide

theorem IsLabel.says (h : IsLabel name) : Says name := by
  have hsplit : splitOn '-' (bare name).toList ≠ [] := splitOn_ne_nil _ _
  obtain ⟨w, hw⟩ := List.exists_mem_of_ne_nil _ hsplit
  obtain ⟨c, hc⟩ := List.exists_mem_of_ne_nil w (h w hw).1
  have hmem : c ∈ (splitOn '-' (bare name).toList).flatten := List.mem_flatten_of_mem hw hc
  rw [flatten_splitOn, List.mem_filter, bare, String.toList_ofList, decide_eq_true_iff] at hmem
  exact ⟨c, hmem⟩

/-- A name that begins with a capital or a digit, as the types do that a program defines. -/
def IsCapitalized (name : String) : Prop :=
  name.toList.head?.any (fun c => c.isAlphanum && !c.isLower) = true

instance (name : String) : Decidable (IsCapitalized name) := inferInstanceAs (Decidable (_ = true))

theorem IsKebab.isCapitalized (h : IsKebab name) : IsCapitalized (pascal name) := by
  obtain ⟨w, ws, hws⟩ := List.exists_cons_of_ne_nil (splitOn_ne_nil '-' name.toList)
  obtain ⟨hne, halnum⟩ := h w (hws ▸ List.mem_cons_self)
  obtain ⟨c, r, rfl⟩ := List.exists_cons_of_ne_nil hne
  have hc : c.isAlphanum = true := halnum c List.mem_cons_self
  have hupper : (c.toUpper.isAlphanum && !c.toUpper.isLower) = true :=
    of_isAlphanum (p := fun c => (c.toUpper.isAlphanum && !c.toUpper.isLower) = true) (by decide +kernel) hc
  rw [IsCapitalized, pascal, String.toList_ofList, unescape_of_notMem (h.notMem (by decide) (by decide)),
    hws, List.flatMap_cons, capitalize, capital_of_isAlphanum hc]
  exact hupper

end Identifier

namespace TypeExpr
open Identifier
variable {name : String}

/-- The types of Rust that a defined type can be taken for, and the defaults of these. -/
def builtinDefaults : List (String × String) := [
  ("String", "String::new()"), ("Vec", "Vec::new()"), ("Option", "None"), ("HashMap", "HashMap::new()"),
  ("Result", "Ok(())")]

/-- The interface names, in words of lower case, that become names of such types. -/
def ambiguousNames : List String := ["string", "vec", "option", "hash-map", "result"]

theorem default_builtin : ∀ n ∈ builtinDefaults.map Prod.fst,
    builtinDefaults.lookup n = some (default (.named n [])) ∧ default (.named n []) ≠ n ++ "::default()" := by
  decide +kernel

/-- The other types with a default of their own do not begin with a capital. -/
theorem mem_builtinDefaults : ∀ n ∈ scalarDefaults.map Prod.fst, IsCapitalized n →
    n ∈ builtinDefaults.map Prod.fst := by
  decide

theorem default_of_notMem (hcapital : IsCapitalized name) (h : name ∉ builtinDefaults.map Prod.fst) :
    default (.named name []) = name ++ "::default()" := by
  have hscalar : scalarDefaults.lookup name = none :=
    lookup_of_notMem fun hmem => h (mem_builtinDefaults name hmem hcapital)
  have hresult : name ≠ "Result" := by
    rintro rfl
    exact h (by decide)
  rw [default, hscalar]
  simp only [if_neg hresult]

theorem default_of_isCapitalized (hcapital : IsCapitalized name) :
    default (.named name []) = (builtinDefaults.lookup name).getD (name ++ "::default()") ∧
      (default (.named name []) = name ++ "::default()" ↔ name ∉ builtinDefaults.map Prod.fst) := by
  by_cases h : name ∈ builtinDefaults.map Prod.fst
  · obtain ⟨hlookup, hne⟩ := default_builtin name h
    exact ⟨by rw [hlookup, Option.getD_some], iff_of_false hne (not_not.2 h)⟩
  · rw [lookup_of_notMem h, Option.getD_none]
    exact ⟨default_of_notMem hcapital h, iff_of_true (default_of_notMem hcapital h) h⟩

/-- The names that become names of built-in types are known. -/
theorem mem_builtinDefaults_pascal (h : IsLowerKebab name) :
    pascal name ∈ builtinDefaults.map Prod.fst ↔ name ∈ ambiguousNames := by
  have hnames : builtinDefaults.map Prod.fst = ambiguousNames.map pascal := by decide +kernel
  have hlower : ∀ n ∈ ambiguousNames, IsLowerKebab n := by decide
  rw [hnames, List.mem_map]
  constructor
  · rintro ⟨n, hn, he⟩
    exact (hlower n hn).pascal_inj h he ▸ hn
  · exact fun hn => ⟨name, hn, rfl⟩

theorem leaf_of_isUserName (h : IsUserName name) : leaf name = .named (pascal name) [] := by
  have hunit : ¬ (name = "_" ∨ name = "unit") := by
    rintro (rfl | rfl) <;> exact h.1 (by decide)
  rw [leaf, if_neg hunit, h.2, Option.getD_none]

theorem rustText_userName {strict : Bool} (hname : IsLabel name) (huser : IsUserName name) :
    (rustText strict name).collect.1 = .ok (pascal name) := by
  have hparse : parse .wit name = .ok (.named name []) :=
    parse_render_of_covers (t := .named name []) (.inr (.named (by simp))) (.named hname.isName (by simp))
  have hother := huser.1
  simp only [List.mem_cons, not_or] at hother
  have hobeys : Obeys strict (.named name []) := by
    intro n hn
    rw [nodes, nodesAll, List.mem_singleton] at hn
    subst hn
    simp [Admits, hother]
  have htranslate : translate (.named name []) = .named (pascal name) [] := by
    rw [translate, translateAll, image_other hother.1 hother.2.1 hother.2.2.1 hother.2.2.2.1
      hother.2.2.2.2.1, leaf_of_isUserName huser]
  exact rustText_eq_ok_iff.2 ⟨_, hparse, hobeys, by rw [htranslate, render]⟩

theorem defaultText_of_parse {text : String} {t : TypeExpr} (h : parse .rust text = .ok t) :
    defaultText text = .ok (default t) := by
  have hread : read .rust (trimmed text) = .ok t := read_ok_iff.2 ((parse_trimmed .rust text).trans h)
  rw [defaultText, hread]
  rfl

/-- The default of a type that an interface defines is that of its Rust name, unless a built-in type of
Rust has that name: then it is the default of the built-in type. -/
theorem default_userName (strict : Bool) (hname : IsLabel name) (huser : IsUserName name) :
    ∃ rust value, (rustText strict name).collect.1 = .ok rust ∧ defaultText rust = .ok value ∧
      value = (builtinDefaults.lookup (pascal name)).getD (pascal name ++ "::default()") ∧
      (value = pascal name ++ "::default()" ↔ pascal name ∉ builtinDefaults.map Prod.fst) ∧
      (IsLowerKebab (bare name) → (value = pascal name ++ "::default()" ↔ bare name ∉ ambiguousNames)) := by
  have hcapital : IsCapitalized (pascal name) := hname.pascal_bare ▸ IsKebab.isCapitalized hname
  have hparse : parse .rust (pascal name) = .ok (.named (pascal name) []) :=
    parse_render (t := .named (pascal name) []) (.named (isName_pascal hname.isName hname.says) (by simp))
  obtain ⟨hvalue, hiff⟩ := default_of_isCapitalized hcapital
  refine ⟨_, _, rustText_userName hname huser, defaultText_of_parse hparse, hvalue, hiff, fun hlower => ?_⟩
  rw [hiff, ← hname.pascal_bare, mem_builtinDefaults_pascal hlower]

/-- A table of hashes is a type of the interface; its default is that of the built-in one. -/
theorem default_userName_hashMap :
    (IsLabel "hash-map" ∧ IsUserName "hash-map" ∧ (rustText true "hash-map").collect.1 = .ok "HashMap" ∧
      defaultText "HashMap" = .ok "HashMap::new()" ∧ "HashMap::new()" ≠ "HashMap::default()") ∧
    IsLabel "%list" ∧ IsUserName "%list" ∧ (rustText true "%list").collect.1 = .ok "List" ∧
      defaultText "List" = .ok "List::default()" := by
  have hmap : IsLabel "hash-map" ∧ IsUserName "hash-map" := by decide
  have hlist : IsLabel "%list" ∧ IsUserName "%list" := by decide
  obtain ⟨rust, value, hrust, hvalue, rfl, -, hne⟩ := default_userName true hmap.1 hmap.2
  obtain ⟨rust', value', hrust', hvalue', -, -, heq⟩ := default_userName true hlist.1 hlist.2
  have hpascal : pascal "hash-map" = "HashMap" ∧ pascal "%list" = "List" := by decide +kernel
  have hrust₁ : (rustText true "hash-map").collect.1 = .ok "HashMap" := by cbv
  have hrust₂ : (rustText true "%list").collect.1 = .ok "List" := by cbv
  obtain rfl := Except.ok.inj (hrust.symm.trans hrust₁)
  obtain rfl := Except.ok.inj (hrust'.symm.trans hrust₂)
  obtain rfl := (heq (by decide)).2 (by decide)
  rw [hpascal.1] at hvalue
  rw [hpascal.2] at hvalue'
  exact ⟨⟨hmap.1, hmap.2, hrust₁, hvalue, by decide⟩, hlist.1, hlist.2, hrust₂, hvalue'⟩

end TypeExpr

end WitCaller
