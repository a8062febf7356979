import WitCaller.Proofs.TypeText
import WitCaller.TypeExpr.Rust

/-!
The grammar of types as a set of derivations, apart from any reader. A derivation has the tokens that
it spells and the tree that it stands for. The reader finds the derivation of its tokens exactly if
there is one, and there is never more than one.
-/

namespace WitCaller

namespace TypeToken
open Text

/-- That a text is cut into these tokens. Blanks fall away, a mark is a token, and so is a run of other
characters that goes on as far as it can. -/
inductive Cut : List Char → List TypeToken → Prop
  | nil : Cut [] []
  | blank {c : Char} {s : List Char} {ts : List TypeToken} (hc : isBlank c = true) (h : Cut s ts) :
      Cut (c :: s) ts
  | mark {c : Char} {m : TypeToken} {s : List Char} {ts : List TypeToken} (hc : mark? c = some m)
      (h : Cut s ts) : Cut (c :: s) (m :: ts)
  | name {n s : List Char} {ts : List TypeToken} (hn : IsName n)
      (hs : ∀ c ∈ s.head?, isNameChar c = false) (h : Cut s ts) :
      Cut (n ++ s) (.name (String.ofList n) :: ts)

theorem Cut.eq_scan {s : List Char} {ts : List TypeToken} (h : Cut s ts) : ts = scan s := by
  induction h with
  | nil => simp [scan]
  | blank hc _ ih => rw [scan_cons_blank hc, ih]
  | mark hc _ ih => rw [scan_cons_mark hc, ih]
  | name hn hs _ ih => rw [scan_name_append hn hs, ih]

theorem cut_scan (s : List Char) : Cut s (scan s) := by
  fun_induction scan s with
  | case1 => exact .nil
  | case2 c r m hm ih => exact .mark hm ih
  | case3 c r hm hc ih => exact .blank hc ih
  | case4 c r hm hc ih =>
    have hname : IsName (c :: r.takeWhile isNameChar) := by
      refine ⟨List.cons_ne_nil _ _, List.forall_mem_cons.2 ⟨?_, ?_⟩⟩
      · simp [isNameChar, hm, hc]
      · exact List.all_eq_true.1 List.all_takeWhile
    -- The run is as long as it can be: what follows it starts with no character of names.
    have hend : ∀ d ∈ (r.dropWhile isNameChar).head?, isNameChar d = false := by
      intro d hd
      have := List.head?_dropWhile_not isNameChar r
      rw [Option.mem_def.1 hd] at this
      simpa using this
    have hcut := Cut.name hname hend ih
    rwa [List.cons_append, List.takeWhile_append_dropWhile] at hcut

theorem cut_iff {s : List Char} {ts : List TypeToken} : Cut s ts ↔ ts = scan s := by
  constructor
  · exact Cut.eq_scan
  · rintro rfl
    exact cut_scan s

end TypeToken

namespace TypeExpr

mutual

/-- Derivations of a type. Only the grammar of Rust types has those with parentheses. -/
inductive Derivation (g : TypeGrammar) where
  | name (n : String)
  | applied (n : String) (items : ItemsDerivation g)
  | unit (hg : g = .rust)
  | tuple (hg : g = .rust) (items : ItemsDerivation g)

/-- Derivations of one type or more with commas between them, and perhaps one after the last. -/
inductive ItemsDerivation (g : TypeGrammar) where
  | last (item : Derivation g)
  | lastComma (item : Derivation g)
  | more (item : Derivation g) (items : ItemsDerivation g)

end

variable {g : TypeGrammar}

mutual

/-- The tokens that a derivation spells. -/
def Derivation.tokens : Derivation g → List TypeToken
  | .name n => [.name n]
  | .applied n items => .name n :: .less :: (items.tokens ++ [.greater])
  | .unit _ => [.left, .right]
  | .tuple _ items => .left :: (items.tokens ++ [.right])

def ItemsDerivation.tokens : ItemsDerivation g → List TypeToken
  | .last item => item.tokens
  | .lastComma item => item.tokens ++ [.comma]
  | .more item items => item.tokens ++ .comma :: items.tokens

end

mutual

/-- The tree that a derivation stands for. -/
def Derivation.tree : Derivation g → TypeExpr
  | .name n => .named n []
  | .applied n items => .named n items.trees
  | .unit _ => .tuple []
  | .tuple _ items => .tuple items.trees

def ItemsDerivation.trees : ItemsDerivation g → List TypeExpr
  | .last item | .lastComma item => [item.tree]
  | .more item items => item.tree :: items.trees

end

theorem ItemsDerivation.trees_ne_nil (items : ItemsDerivation g) : items.trees ≠ [] := by
  cases items <;> simp [ItemsDerivation.trees]

/-! ### What the reader returns has a derivation -/

mutual

theorem exists_derivation {g : TypeGrammar} {ts : List TypeToken} {x : Reading TypeExpr ts}
    (h : readType g ts = .ok x) : ∃ d : Derivation g, d.tokens ++ x.rest = ts ∧ d.tree = x.value := by
  match ts with
  | [] => simp [readType] at h
  | .name n :: .less :: r =>
    rw [readType] at h
    split at h
    · cases h
    · next args hargs =>
      split at h
      · cases h
      · next hne =>
        obtain rfl := Except.ok.inj h
        obtain ⟨hv, -⟩ | ⟨items, ht, hv⟩ := exists_derivation_optional hargs
        · exact absurd (List.isEmpty_iff.2 hv) hne
        · exact ⟨.applied n items, by simp [Derivation.tokens, ← ht], by simp [Derivation.tree, hv]⟩
  | .name n :: [] =>
    rw [readType] at h
    · obtain rfl := Except.ok.inj h
      exact ⟨.name n, rfl, rfl⟩
    · nofun
  | .name n :: .name _ :: r | .name n :: .greater :: r | .name n :: .comma :: r
  | .name n :: .left :: r | .name n :: .right :: r =>
    rw [readType] at h
    · obtain rfl := Except.ok.inj h
      exact ⟨.name n, rfl, rfl⟩
    · nofun
  | .left :: r =>
    cases g with
    | wit => simp [readType] at h
    | rust =>
      rw [readType] at h
      split at h
      · cases h
      · next items hitems =>
        obtain rfl := Except.ok.inj h
        obtain ⟨hv, ht⟩ | ⟨items, ht, hv⟩ := exists_derivation_optional hitems
        · exact ⟨.unit rfl, by simp [Derivation.tokens, ← ht], by simp [Derivation.tree, hv]⟩
        · exact ⟨.tuple rfl items, by simp [Derivation.tokens, ← ht], by simp [Derivation.tree, hv]⟩
  | .right :: r | .less :: r | .greater :: r | .comma :: r => simp [readType] at h
termination_by 3 * ts.length
decreasing_by
  · exact rank_lt 2 0 (Nat.lt_succ_of_lt (Nat.lt_succ_self _)) (by decide)
  · exact rank_lt 2 0 (Nat.lt_succ_self _) (by decide)

theorem exists_derivation_optional {g : TypeGrammar} {c : TypeToken} {ts : List TypeToken}
    {x : Reading (List TypeExpr) ts} (h : readOptionalItems g c ts = .ok x) :
    (x.value = [] ∧ c :: x.rest = ts) ∨
      ∃ items : ItemsDerivation g, items.tokens ++ c :: x.rest = ts ∧ items.trees = x.value := by
  match ts with
  | [] =>
    rw [readOptionalItems] at h
    exact .inr (exists_derivation_items h)
  | t :: r =>
    rw [readOptionalItems] at h
    split at h
    · next hc =>
      obtain rfl := Except.ok.inj h
      exact .inl ⟨rfl, by rw [hc, Reading.done_rest]⟩
    · exact .inr (exists_derivation_items h)
termination_by 3 * ts.length + 2
decreasing_by all_goals exact Nat.lt_succ_self _

theorem exists_derivation_items {g : TypeGrammar} {c : TypeToken} {ts : List TypeToken}
    {x : Reading (List TypeExpr) ts} (h : readItems g c ts = .ok x) :
    ∃ items : ItemsDerivation g, items.tokens ++ c :: x.rest = ts ∧ items.trees = x.value := by
  rw [readItems] at h
  split at h
  · cases h
  · next item hitem =>
    split at h
    · cases h
    · next more hmore =>
      obtain rfl := Except.ok.inj h
      obtain ⟨d, ht, hv⟩ := exists_derivation hitem
      obtain ⟨items, hts, hvs⟩ := exists_derivation_more d hmore
      exact ⟨items, hts.trans ht, by rw [hvs, hv, Reading.andThen_value]⟩
termination_by 3 * ts.length + 1
decreasing_by
  · exact Nat.lt_succ_self _
  · exact rank_lt 2 1 (Reading.shorter _) (by decide)

theorem exists_derivation_more {g : TypeGrammar} (d : Derivation g) {c : TypeToken}
    {ts : List TypeToken} {x : Reading (List TypeExpr) ts} (h : readMoreItems g c ts = .ok x) :
    ∃ items : ItemsDerivation g,
      items.tokens ++ c :: x.rest = d.tokens ++ ts ∧ items.trees = d.tree :: x.value := by
  match ts with
  | [] => simp [readMoreItems] at h
  | [t] =>
    rw [readMoreItems] at h
    split at h
    · next hc =>
      obtain rfl := Except.ok.inj h
      exact ⟨.last d, by simp [ItemsDerivation.tokens, hc], rfl⟩
    · split at h <;> cases h
  | t :: u :: r =>
    rw [readMoreItems] at h
    split at h
    · next hc =>
      obtain rfl := Except.ok.inj h
      exact ⟨.last d, by simp [ItemsDerivation.tokens, hc], rfl⟩
    · split at h
      · next hcomma =>
        split at h
        · next hc =>
          obtain rfl := Except.ok.inj h
          exact ⟨.lastComma d, by simp [ItemsDerivation.tokens, hc, hcomma], rfl⟩
        · split at h
          · cases h
          · next more hmore =>
            obtain rfl := Except.ok.inj h
            obtain ⟨items, ht, hv⟩ := exists_derivation_items hmore
            exact ⟨.more d items, by simp [ItemsDerivation.tokens, ht, hcomma],
              by simp [ItemsDerivation.trees, hv]⟩
      · cases h
termination_by 3 * ts.length + 2
decreasing_by exact rank_lt 1 2 (Nat.lt_succ_self _) (by decide)

end

/-! ### Every derivation is read -/

theorem Derivation.tokens_eq_cons (d : Derivation g) :
    ∃ u us, d.tokens = u :: us ∧ u ≠ .greater ∧ u ≠ .right := by
  cases d with
  | name n => exact ⟨.name n, [], rfl, by simp, by simp⟩
  | applied n items => exact ⟨.name n, _, rfl, by simp, by simp⟩
  | unit => exact ⟨.left, _, rfl, by simp, by simp⟩
  | tuple _ items => exact ⟨.left, _, rfl, by simp, by simp⟩

theorem ItemsDerivation.tokens_eq_cons (items : ItemsDerivation g) :
    ∃ u us, items.tokens = u :: us ∧ u ≠ .greater ∧ u ≠ .right := by
  cases items with
  | last d => exact d.tokens_eq_cons
  | lastComma d | more d =>
    obtain ⟨u, us, h, hu⟩ := d.tokens_eq_cons
    exact ⟨u, _, by rw [tokens, h, List.cons_append], hu⟩

theorem ItemsDerivation.tokens_append_ne (items : ItemsDerivation g) {c : TypeToken}
    (hc : IsCloser c) (s r : List TypeToken) : items.tokens ++ s ≠ c :: r := by
  obtain ⟨u, us, hu, hne⟩ := items.tokens_eq_cons
  rw [hu, List.cons_append]
  intro h
  exact hc.ne hne (List.cons.inj h).1

/-- Items start with no closing mark, so they are not taken for an empty list. -/
theorem ItemsDerivation.yields_optional {items : ItemsDerivation g} {c : TypeToken}
    (hc : IsCloser c) {s r : List TypeToken} {as : List TypeExpr}
    (h : Yields (readItems g c) (items.tokens ++ s) as r) :
    Yields (readOptionalItems g c) (items.tokens ++ s) as r := by
  obtain ⟨u, us, hu, hne⟩ := items.tokens_eq_cons
  rw [hu] at h ⊢
  exact TypeExpr.yields_optional (hc.ne hne) h

theorem ItemsDerivation.yields_comma {items : ItemsDerivation g} {c : TypeToken}
    (hc : IsCloser c) {s r : List TypeToken} {as : List TypeExpr}
    (h : Yields (readItems g c) (items.tokens ++ s) as r) :
    Yields (readMoreItems g c) (.comma :: (items.tokens ++ s)) as r := by
  obtain ⟨u, us, hu, hne⟩ := items.tokens_eq_cons
  rw [hu] at h ⊢
  exact TypeExpr.yields_comma hc.ne_comma (hc.ne hne) h

mutual

theorem Derivation.yields (d : Derivation g) {r : List TypeToken} (hr : r.head? ≠ some .less) :
    Yields (readType g) (d.tokens ++ r) d.tree r := by
  match d with
  | .name n => exact yields_name hr
  | .applied n items =>
    have hc : IsCloser .greater := .inl rfl
    have hitems := ItemsDerivation.yields_optional hc (items.yields hc r)
    simpa [Derivation.tokens, Derivation.tree] using
      yields_arguments (n := n) hitems items.trees_ne_nil
  | .unit hg => exact yields_tuple hg yields_nothing
  | .tuple hg items =>
    have hc : IsCloser .right := .inr rfl
    have hitems := ItemsDerivation.yields_optional hc (items.yields hc r)
    simpa [Derivation.tokens, Derivation.tree] using yields_tuple hg hitems

theorem ItemsDerivation.yields (items : ItemsDerivation g) {c : TypeToken} (hc : IsCloser c)
    (r : List TypeToken) : Yields (readItems g c) (items.tokens ++ c :: r) items.trees r := by
  match items with
  | .last d => exact yields_items (d.yields (hc.head_ne r)) yields_close
  | .lastComma d =>
    rw [ItemsDerivation.tokens, List.append_assoc]
    have hd := d.yields (r := .comma :: c :: r) (by simp)
    exact yields_items hd (yields_commaClose hc.ne_comma)
  | .more d items =>
    rw [ItemsDerivation.tokens, ItemsDerivation.trees, List.append_assoc, List.cons_append]
    exact yields_items (d.yields (by simp)) (ItemsDerivation.yields_comma hc (items.yields hc r))

end

/-! ### There is only one -/

mutual

theorem Derivation.unique (d d' : Derivation g) {r r' : List TypeToken}
    (hr : r.head? ≠ some .less) (hr' : r'.head? ≠ some .less)
    (h : d.tokens ++ r = d'.tokens ++ r') : d = d' ∧ r = r' := by
  have hgreater : IsCloser .greater := .inl rfl
  have hright : IsCloser .right := .inr rfl
  match d, d' with
  | .name n, .name n' => simpa [Derivation.tokens] using h
  -- A name has arguments exactly if it goes on with `<`.
  | .name n, .applied n' items' =>
    have hless : r = .less :: (items'.tokens ++ [.greater] ++ r') := (List.cons.inj h).2
    exact absurd (congrArg List.head? hless) hr
  | .applied n items, .name n' =>
    have hless : r' = .less :: (items.tokens ++ [.greater] ++ r) := (List.cons.inj h).2.symm
    exact absurd (congrArg List.head? hless) hr'
  | .applied n items, .applied n' items' =>
    simp only [Derivation.tokens, List.cons_append, List.append_assoc, List.nil_append,
      List.cons.injEq, TypeToken.name.injEq, true_and] at h
    obtain ⟨hitems, hrest⟩ := items.unique items' hgreater hgreater h.2
    exact ⟨by rw [h.1, hitems], (List.cons.inj hrest).2⟩
  | .unit _, .unit _ => simpa [Derivation.tokens] using h
  | .unit _, .tuple _ items' =>
    simp only [Derivation.tokens, List.cons_append, List.append_assoc, List.nil_append,
      List.cons.injEq, true_and] at h
    exact absurd h.symm (items'.tokens_append_ne hright _ _)
  | .tuple _ items, .unit _ =>
    simp only [Derivation.tokens, List.cons_append, List.append_assoc, List.nil_append,
      List.cons.injEq, true_and] at h
    exact absurd h (items.tokens_append_ne hright _ _)
  | .tuple _ items, .tuple _ items' =>
    simp only [Derivation.tokens, List.cons_append, List.append_assoc, List.nil_append,
      List.cons.injEq, true_and] at h
    obtain ⟨hitems, hrest⟩ := items.unique items' hright hright h
    exact ⟨by rw [hitems], (List.cons.inj hrest).2⟩
  | .name _, .unit _ | .name _, .tuple _ _ | .applied _ _, .unit _ | .applied _ _, .tuple _ _
  | .unit _, .name _ | .unit _, .applied _ _ | .tuple _ _, .name _ | .tuple _ _, .applied _ _ =>
    cases h

theorem ItemsDerivation.unique (items items' : ItemsDerivation g) {c c' : TypeToken}
    (hc : IsCloser c) (hc' : IsCloser c') {r r' : List TypeToken}
    (h : items.tokens ++ c :: r = items'.tokens ++ c' :: r') : items = items' ∧ c :: r = c' :: r' := by
  have hcr := hc.head_ne r
  have hcr' := hc'.head_ne r'
  have hcomma (s : List TypeToken) : (TypeToken.comma :: s).head? ≠ some .less := by simp
  -- In each case the first items agree. What follows them tells the forms apart: a closing mark, a
  -- comma before one, or a comma before another item.
  match items, items' with
  | .last d, .last d' =>
    obtain ⟨rfl, hrest⟩ := d.unique d' hcr hcr' h
    exact ⟨rfl, hrest⟩
  | .last d, .lastComma d' =>
    rw [ItemsDerivation.tokens, ItemsDerivation.tokens, List.append_assoc] at h
    exact absurd (List.cons.inj (d.unique d' hcr (hcomma _) h).2).1 hc.ne_comma
  | .last d, .more d' items' =>
    rw [ItemsDerivation.tokens, ItemsDerivation.tokens, List.append_assoc] at h
    exact absurd (List.cons.inj (d.unique d' hcr (hcomma _) h).2).1 hc.ne_comma
  | .lastComma d, .last d' =>
    rw [ItemsDerivation.tokens, ItemsDerivation.tokens, List.append_assoc] at h
    exact absurd (List.cons.inj (d.unique d' (hcomma _) hcr' h).2).1.symm hc'.ne_comma
  | .lastComma d, .lastComma d' =>
    rw [ItemsDerivation.tokens, ItemsDerivation.tokens, List.append_assoc, List.append_assoc] at h
    obtain ⟨rfl, hrest⟩ := d.unique d' (hcomma _) (hcomma _) h
    exact ⟨rfl, (List.cons.inj hrest).2⟩
  | .lastComma d, .more d' items' =>
    rw [ItemsDerivation.tokens, ItemsDerivation.tokens, List.append_assoc, List.append_assoc] at h
    have hrest := (List.cons.inj (d.unique d' (hcomma _) (hcomma _) h).2).2
    exact absurd hrest.symm (items'.tokens_append_ne hc _ _)
  | .more d items, .last d' =>
    rw [ItemsDerivation.tokens, ItemsDerivation.tokens, List.append_assoc] at h
    exact absurd (List.cons.inj (d.unique d' (hcomma _) hcr' h).2).1.symm hc'.ne_comma
  | .more d items, .lastComma d' =>
    rw [ItemsDerivation.tokens, ItemsDerivation.tokens, List.append_assoc, List.append_assoc] at h
    have hrest := (List.cons.inj (d.unique d' (hcomma _) (hcomma _) h).2).2
    exact absurd hrest (items.tokens_append_ne hc' _ _)
  | .more d items, .more d' items' =>
    rw [ItemsDerivation.tokens, ItemsDerivation.tokens, List.append_assoc, List.append_assoc] at h
    obtain ⟨rfl, hrest⟩ := d.unique d' (hcomma _) (hcomma _) h
    obtain ⟨rfl, hend⟩ := items.unique items' hc hc' (List.cons.inj hrest).2
    exact ⟨rfl, hend⟩

end

/-! ### The reader and the grammar -/

theorem ofTokens_eq_ok_iff {ts : List TypeToken} {t : TypeExpr} :
    ofTokens g ts = .ok t ↔ ∃ d : Derivation g, d.tokens = ts ∧ d.tree = t := by
  unfold ofTokens
  constructor
  · intro h
    split at h
    · cases h
    · next x hx =>
      split at h
      · next hr =>
        obtain rfl := Except.ok.inj h
        obtain ⟨d, hts, hv⟩ := exists_derivation hx
        rw [hr, List.append_nil] at hts
        exact ⟨d, hts, hv⟩
      · cases h
  · rintro ⟨d, rfl, rfl⟩
    have hyields : Yields (readType g) (d.tokens ++ []) d.tree [] := d.yields (by simp)
    rw [List.append_nil] at hyields
    obtain ⟨x, hx, hv, hr⟩ := hyields
    rw [hx]
    simp only [hr, hv]

/-- A text has one sequence of tokens. It is read as the tree of the derivation of these, of which
there is never a second one; without a derivation reading fails. -/
theorem read_iff_derivation (g : TypeGrammar) (text : String) :
    ∃ ts, (∀ us, TypeToken.Cut text.toList us ↔ us = ts) ∧
      (∀ t, read g text = .ok t ↔ ∃ d : Derivation g, d.tokens = ts ∧ d.tree = t) ∧
      (∀ d d' : Derivation g, d.tokens = ts → d'.tokens = ts → d = d') ∧
      ((∃ e, read g text = .error e) ↔ ∀ d : Derivation g, d.tokens ≠ ts) := by
  have hok (t : TypeExpr) : read g text = .ok t ↔
      ∃ d : Derivation g, d.tokens = TypeToken.scan text.toList ∧ d.tree = t := by
    rw [← ofTokens_eq_ok_iff, read, parse]
    cases ofTokens g (TypeToken.scan text.toList) with
    | error e => constructor <;> intro h <;> cases h
    | ok a => constructor <;> intro h <;> cases h <;> rfl
  refine ⟨TypeToken.scan text.toList, fun us => TypeToken.cut_iff, hok, ?_, ?_⟩
  · intro d d' hd hd'
    have hnil : ([] : List TypeToken).head? ≠ some .less := by simp
    have heq : d.tokens ++ [] = d'.tokens ++ [] := by rw [hd, hd']
    exact (d.unique d' hnil hnil heq).1
  · constructor
    · rintro ⟨e, he⟩ d hd
      have := (hok d.tree).2 ⟨d, hd, rfl⟩
      rw [he] at this
      cases this
    · intro hnone
      cases hread : read g text with
      | error e => exact ⟨e, rfl⟩
      | ok t =>
        obtain ⟨d, hd, -⟩ := (hok t).1 hread
        exact absurd hd (hnone d)

end TypeExpr

end WitCaller
