import Mathlib
import WitCaller.Proofs.Steps
import WitCaller.Proofs.Printing
import WitCaller.TypeExpr.Rust

/-!
The Rust type of an interface type, said node by node: which numbers of arguments each name may have,
and what it becomes. The generator finds the Rust type of exactly the types that obey the rules, and
the text it writes is read back as the translated tree.
-/

namespace WitCaller.TypeExpr
open Logged

mutual

/-- The names in a type, each with the number of its arguments. -/
def nodes : TypeExpr → List (String × Nat)
  | .named name args => (name, args.length) :: nodesAll args
  | .tuple items => nodesAll items

def nodesAll : List TypeExpr → List (String × Nat)
  | [] => []
  | t :: ts => nodes t ++ nodesAll ts

end

/-- Whether a name may have so many arguments. The counts that have a meaning but are not in the
grammar of interfaces are refused when read strictly. -/
def Admits (strict : Bool) (name : String) (count : Nat) : Prop :=
  if name = "list" ∨ name = "option" then count = 1 ∨ count = 0 ∧ strict = false
  else if name = "result" then count = 0 ∨ count = 2 ∨ count = 1 ∧ strict = false
  else if name = "map" then count = 2 ∨ count = 1 ∧ strict = false
  else name = "tuple" ∨ count = 0

/-- Whether each name in a type has as many arguments as it may. -/
def Obeys (strict : Bool) (t : TypeExpr) : Prop := ∀ n ∈ nodes t, Admits strict n.1 n.2

/-- The Rust type of a name with these Rust types as arguments. -/
def image (name : String) (args : List TypeExpr) : TypeExpr :=
  match name, args with
  | "list", [t] => .named "Vec" [t]
  | "option", [t] => .named "Option" [t]
  | "result", [] => .named "Result" [unit, unit]
  | "result", [t] => .named "Result" [t, unit]
  | "result", [t, e] => .named "Result" [t, e]
  | "map", [v] => .named "HashMap" [.named "String" [], v]
  | "map", [k, v] => .named "HashMap" [k, v]
  | "tuple", items => .tuple items
  | name, _ => leaf name

mutual

/-- The Rust type of an interface type, node by node. -/
def translate : TypeExpr → TypeExpr
  | .named name args => image name (translateAll args)
  | .tuple items => .tuple (translateAll items)

def translateAll : List TypeExpr → List TypeExpr
  | [] => []
  | t :: ts => translate t :: translateAll ts

end

/-- A name that an interface defines itself. -/
def IsUserName (name : String) : Prop :=
  name ∉ ["list", "option", "result", "map", "tuple", "_", "unit"] ∧ primitives.lookup name = none

instance (name : String) : Decidable (IsUserName name) := inferInstanceAs (Decidable (_ ∧ _))

/-- Whether something is left of each user-defined name in Pascal case. -/
def NamesSay (t : TypeExpr) : Prop := ∀ n ∈ nodes t, IsUserName n.1 → Identifier.Says n.1

instance (t : TypeExpr) : Decidable (NamesSay t) :=
  inferInstanceAs (Decidable (∀ n ∈ nodes t, _))

theorem lax_returns (source : String) (l : Laxity) : Returns (lax false source l) () :=
  fun es => ⟨es ++ [⟨.warning, .types, l.message source⟩], rfl⟩

theorem lax_fails (source : String) (l : Laxity) : Fails (lax true source l) :=
  fun es => ⟨⟨source, .lax l⟩, es, rfl⟩

/-- That a head makes the types of a name with so many arguments, and is found exactly if these may
be its arguments. -/
def IsHead (strict : Bool) (name : String) (count : Nat)
    (m : Logged TypeSyntaxError (List TypeExpr → TypeExpr)) : Prop :=
  (Admits strict name count ∧ ∃ head, Returns m head ∧
    ∀ args : List TypeExpr, args.length = count → head args = image name args) ∨
  (¬ Admits strict name count ∧ Fails m)

theorem isHead_pure {strict : Bool} {name : String} {count : Nat} {head : List TypeExpr → TypeExpr}
    (h : Admits strict name count)
    (hh : ∀ args : List TypeExpr, args.length = count → head args = image name args) :
    IsHead strict name count (pure head) := .inl ⟨h, head, returns_pure, hh⟩

theorem isHead_lax {strict : Bool} {source name : String} {count : Nat} {l : Laxity}
    {head : List TypeExpr → TypeExpr} (h : Admits strict name count ↔ strict = false)
    (hh : ∀ args : List TypeExpr, args.length = count → head args = image name args) :
    IsHead strict name count (do lax strict source l; return head) := by
  cases strict with
  | false => exact .inl ⟨h.2 rfl, head, (lax_returns source l).bind returns_pure, hh⟩
  | true => exact .inr ⟨by simp [h], (lax_fails source l).bind⟩

theorem isHead_throw {strict : Bool} {name : String} {count : Nat} {e : TypeSyntaxError}
    (h : ¬ Admits strict name count) : IsHead strict name count (throw e) :=
  .inr ⟨h, fun es => ⟨e, es, rfl⟩⟩

theorem image_other {name : String} (hl : name ≠ "list") (ho : name ≠ "option")
    (hr : name ≠ "result") (hm : name ≠ "map") (ht : name ≠ "tuple") (args : List TypeExpr) :
    image name args = leaf name := by
  unfold image
  split <;> simp_all

theorem forall_of_nil {P : List TypeExpr → Prop} (h : P []) : ∀ as, as.length = 0 → P as := by
  intro as ha
  exact List.length_eq_zero_iff.1 ha ▸ h

theorem forall_of_one {P : List TypeExpr → Prop} (h : ∀ a, P [a]) : ∀ as, as.length = 1 → P as := by
  intro as ha
  obtain ⟨a, rfl⟩ := List.length_eq_one_iff.1 ha
  exact h a

theorem forall_of_two {P : List TypeExpr → Prop} (h : ∀ a b, P [a, b]) :
    ∀ as, as.length = 2 → P as
  | [a, b], _ => h a b

theorem isHead_rustHead (strict : Bool) (source name : String) (count : Nat) :
    IsHead strict name count (rustHead strict source name count) := by
  unfold rustHead
  split
  · exact isHead_lax (by simp [Admits]) (forall_of_nil rfl)
  · exact isHead_lax (by simp [Admits]) (forall_of_nil rfl)
  · exact isHead_pure (by simp [Admits]) (forall_of_one fun _ => rfl)
  · exact isHead_pure (by simp [Admits]) (forall_of_one fun _ => rfl)
  · exact isHead_pure (by simp [Admits]) (forall_of_nil rfl)
  · exact isHead_lax (by simp [Admits]) (forall_of_one fun _ => rfl)
  · exact isHead_pure (by simp [Admits]) (forall_of_two fun _ _ => rfl)
  · exact isHead_pure (by simp [Admits]) fun _ _ => rfl
  · exact isHead_lax (by simp [Admits]) (forall_of_one fun _ => rfl)
  · exact isHead_pure (by simp [Admits]) (forall_of_two fun _ _ => rfl)
  · split
    · next hn =>
      refine isHead_throw ?_
      rcases hn with rfl | rfl <;> simp_all [Admits]
    · split
      · next hn =>
        refine isHead_throw ?_
        rcases hn with rfl | rfl <;> simp_all [Admits]
      · split
        · next hn =>
          subst hn
          refine isHead_pure (by simp_all [Admits]) ?_
          intro args _
          refine (image_other ?_ ?_ ?_ ?_ ?_ args).symm <;> simp_all
        · refine isHead_throw ?_
          simp_all [Admits]

theorem translateAll_eq_map (ts : List TypeExpr) : translateAll ts = ts.map translate := by
  induction ts with
  | nil => rfl
  | cons t ts ih => rw [translateAll, ih, List.map_cons]

/-- Whether each name in a list of types has as many arguments as it may. -/
def ObeyAll (strict : Bool) (ts : List TypeExpr) : Prop :=
  ∀ n ∈ nodesAll ts, Admits strict n.1 n.2

theorem obeys_named {strict : Bool} {name : String} {args : List TypeExpr} :
    Obeys strict (.named name args) ↔ Admits strict name args.length ∧ ObeyAll strict args := by
  simp [Obeys, ObeyAll, nodes]

theorem obeyAll_cons {strict : Bool} {t : TypeExpr} {ts : List TypeExpr} :
    ObeyAll strict (t :: ts) ↔ Obeys strict t ∧ ObeyAll strict ts := by
  simp only [Obeys, ObeyAll, nodesAll, List.forall_mem_append]

mutual

theorem toRust_returns {strict : Bool} {source : String} {t : TypeExpr} (h : Obeys strict t) :
    Returns (toRust strict source t) t.translate := by
  match t with
  | .named name args =>
    obtain ⟨hn, ha⟩ := obeys_named.1 h
    obtain ⟨-, head, hm, hhead⟩ | ⟨hf, -⟩ := isHead_rustHead strict source name args.length
    · rw [toRust, translate, ← hhead _ (by rw [translateAll_eq_map, List.length_map])]
      exact hm.bind ((toRustAll_returns ha).bind returns_pure)
    · exact absurd hn hf
  | .tuple items =>
    rw [toRust, translate]
    exact (toRustAll_returns h).bind returns_pure

theorem toRustAll_returns {strict : Bool} {source : String} {ts : List TypeExpr}
    (h : ObeyAll strict ts) : Returns (toRustAll strict source ts) (translateAll ts) := by
  match ts with
  | [] => exact returns_pure
  | t :: ts =>
    obtain ⟨ht, hs⟩ := obeyAll_cons.1 h
    rw [toRustAll, translateAll]
    exact (toRust_returns ht).bind ((toRustAll_returns hs).bind returns_pure)

end

mutual

theorem toRust_fails {strict : Bool} {source : String} {t : TypeExpr} (h : ¬ Obeys strict t) :
    Fails (toRust strict source t) := by
  match t with
  | .named name args =>
    rw [toRust]
    obtain ⟨hn, head, hm, -⟩ | ⟨-, hf⟩ := isHead_rustHead strict source name args.length
    · have ha : ¬ ObeyAll strict args := fun ha => h (obeys_named.2 ⟨hn, ha⟩)
      exact hm.fails (toRustAll_fails ha).bind
    · exact hf.bind
  | .tuple items =>
    rw [toRust]
    exact (toRustAll_fails h).bind

theorem toRustAll_fails {strict : Bool} {source : String} {ts : List TypeExpr}
    (h : ¬ ObeyAll strict ts) : Fails (toRustAll strict source ts) := by
  match ts with
  | [] => exact absurd (by simp [ObeyAll, nodesAll]) h
  | t :: ts =>
    rw [toRustAll]
    by_cases ht : Obeys strict t
    · have hs : ¬ ObeyAll strict ts := fun hs => h (obeyAll_cons.2 ⟨ht, hs⟩)
      exact (toRust_returns ht).fails (toRustAll_fails hs).bind
    · exact (toRust_fails ht).bind

end

theorem mem_nodesAll {n : String × Nat} {ts : List TypeExpr} :
    n ∈ nodesAll ts ↔ ∃ t ∈ ts, n ∈ nodes t := by
  induction ts with
  | nil => simp [nodesAll]
  | cons t ts ih => simp [nodesAll, ih]

theorem WellNamed.isName_of_mem_nodes {t : TypeExpr} (h : t.WellNamed) :
    ∀ n ∈ nodes t, TypeToken.IsName n.1.toList := by
  induction h with
  | named hn _ ih =>
    rw [nodes]
    refine List.forall_mem_cons.2 ⟨hn, fun n hmem => ?_⟩
    obtain ⟨a, ha, hna⟩ := mem_nodesAll.1 hmem
    exact ih a ha n hna
  | tuple _ ih =>
    intro n hmem
    rw [nodes] at hmem
    obtain ⟨a, ha, hna⟩ := mem_nodesAll.1 hmem
    exact ih a ha n hna

theorem isName_of_parse {g : TypeGrammar} {text : String} {t : TypeExpr}
    (h : parse g text = .ok t) : ∀ n ∈ nodes t, TypeToken.IsName n.1.toList :=
  (wellNamed_of_parse h).1.isName_of_mem_nodes

theorem parse_trimmed (g : TypeGrammar) (text : String) : parse g (trimmed text) = parse g text := by
  rw [parse, trimmed, String.toList_ofList, TypeToken.scan_trim, parse]

theorem isName_primitives : ∀ p ∈ primitives, TypeToken.IsName p.2.toList := by decide

theorem says_builtin : ∀ n ∈ ["list", "option", "result", "map", "tuple"], Identifier.Says n := by
  decide

theorem wellNamed_leaf {name : String} (hn : TypeToken.IsName name.toList)
    (hs : IsUserName name → Identifier.Says name) : WellNamed (leaf name) := by
  unfold leaf
  split
  · exact .tuple (by simp)
  · next hu =>
    refine .named ?_ (by simp)
    cases hl : primitives.lookup name with
    | some r => exact isName_primitives _ (mem_of_lookup hl)
    | none =>
      refine Identifier.isName_pascal hn ?_
      by_cases hb : name ∈ ["list", "option", "result", "map", "tuple"]
      · exact says_builtin name hb
      · refine hs ⟨?_, hl⟩
        simp_all

theorem wellNamed_image {name : String} {args : List TypeExpr}
    (hn : TypeToken.IsName name.toList) (hs : IsUserName name → Identifier.Says name)
    (ha : ∀ a ∈ args, WellNamed a) : WellNamed (image name args) := by
  have hunit : WellNamed unit := .tuple (by simp)
  have hstring : WellNamed (.named "String" []) := .named (by decide) (by simp)
  unfold image
  split
  · exact .named (by decide) ha
  · exact .named (by decide) ha
  · exact .named (by decide) (by simp [hunit])
  · exact .named (by decide) (by simpa [hunit] using ha)
  · exact .named (by decide) ha
  · exact .named (by decide) (by simpa [hstring] using ha)
  · exact .named (by decide) ha
  · exact .tuple ha
  · exact wellNamed_leaf hn hs

mutual

theorem wellNamed_translate {t : TypeExpr} (hn : ∀ n ∈ nodes t, TypeToken.IsName n.1.toList)
    (hs : NamesSay t) : WellNamed t.translate := by
  match t with
  | .named name args =>
    rw [nodes] at hn
    rw [NamesSay, nodes] at hs
    obtain ⟨hname, hargs⟩ := List.forall_mem_cons.1 hn
    obtain ⟨hsay, hsays⟩ := List.forall_mem_cons.1 hs
    exact wellNamed_image hname hsay (wellNamed_translateAll hargs hsays)
  | .tuple items => exact .tuple (wellNamed_translateAll hn hs)

theorem wellNamed_translateAll {ts : List TypeExpr}
    (hn : ∀ n ∈ nodesAll ts, TypeToken.IsName n.1.toList)
    (hs : ∀ n ∈ nodesAll ts, IsUserName n.1 → Identifier.Says n.1) :
    ∀ t ∈ translateAll ts, WellNamed t := by
  match ts with
  | [] => exact fun t ht => nomatch ht
  | t :: ts =>
    rw [nodesAll, List.forall_mem_append] at hn hs
    rw [translateAll, List.forall_mem_cons]
    exact ⟨wellNamed_translate hn.1 hs.1, wellNamed_translateAll hn.2 hs.2⟩

end

theorem rustText_returns {strict : Bool} {witType : String} {t : TypeExpr}
    (ht : parse .wit witType = .ok t) (h : Obeys strict t) :
    Returns (rustText strict witType) t.translate.render := by
  have hread : read .wit (trimmed witType) = .ok t := by
    rw [read, parse_trimmed, ht]
    rfl
  unfold rustText
  simp only [hread]
  exact Returns.bind (a := t) (fun es => ⟨es, rfl⟩) ((toRust_returns h).bind returns_pure)

theorem rustText_fails {strict : Bool} {witType : String}
    (h : ∀ t, parse .wit witType = .ok t → ¬ Obeys strict t) : Fails (rustText strict witType) := by
  unfold rustText
  cases ht : parse .wit witType with
  | error fault =>
    have hread : read .wit (trimmed witType) = .error ⟨trimmed witType, .malformed fault⟩ := by
      rw [read, parse_trimmed, ht]
      rfl
    simp only [hread]
    exact Fails.bind fun es => ⟨_, es, rfl⟩
  | ok t =>
    have hread : read .wit (trimmed witType) = .ok t := by
      rw [read, parse_trimmed, ht]
      rfl
    simp only [hread]
    exact Returns.fails (a := t) (fun es => ⟨es, rfl⟩) (toRust_fails (h t ht)).bind

end WitCaller.TypeExpr
