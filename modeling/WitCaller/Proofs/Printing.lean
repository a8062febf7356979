import WitCaller.Proofs.Derivations

/-!
Types and their texts. The text of a type whose names are names has a derivation that stands for the
type itself, so reading takes the printed text back to the type, and no two such types have the same
text. What reading returns is always such a type.
-/

namespace WitCaller

namespace TypeExpr
open TypeToken

/-- A type without a tuple in it. -/
inductive TupleFree : TypeExpr → Prop
  | named {name : String} {args : List TypeExpr} (ha : ∀ a ∈ args, TupleFree a) :
      TupleFree (.named name args)

/-- That a grammar has forms for all of a type. -/
def Covers (g : TypeGrammar) (t : TypeExpr) : Prop := g = .rust ∨ t.TupleFree

variable {g : TypeGrammar}

theorem Covers.args {name : String} {args : List TypeExpr} (h : Covers g (.named name args)) :
    ∀ a ∈ args, Covers g a := by
  intro a ha
  apply h.imp_right
  intro hfree
  cases hfree with
  | named hargs => exact hargs a ha

theorem Covers.eq_rust {items : List TypeExpr} (h : Covers g (.tuple items)) : g = .rust := by
  rcases h with hg | hfree
  · exact hg
  · cases hfree

/-! ### The text of a type has a derivation -/

/-- That the tokens of the text of a type have a derivation that stands for the type. -/
def Derivable (g : TypeGrammar) (t : TypeExpr) : Prop :=
  ∃ d : Derivation g, d.tokens = t.tokens ∧ d.tree = t

theorem Derivable.separated {t : TypeExpr} {ts : List TypeExpr} (h : ∀ a ∈ t :: ts, Derivable g a) :
    ∃ items : ItemsDerivation g,
      items.tokens = separated ((t :: ts).map tokens) ∧ items.trees = t :: ts := by
  induction ts generalizing t with
  | nil =>
    obtain ⟨d, hd, ht⟩ := h t (List.mem_singleton_self t)
    exact ⟨.last d, hd, congrArg (fun u => [u]) ht⟩
  | cons u us ih =>
    obtain ⟨⟨d, hd, ht⟩, hs⟩ := List.forall_mem_cons.1 h
    obtain ⟨items, hitems, htrees⟩ := ih hs
    refine ⟨.more d items, ?_, ?_⟩
    · rw [ItemsDerivation.tokens, hd, hitems]
      rfl
    · rw [ItemsDerivation.trees, ht, htrees]

theorem Derivable.named {n : String} {args : List TypeExpr} (h : ∀ a ∈ args, Derivable g a) :
    Derivable g (.named n args) := by
  cases args with
  | nil => exact ⟨.name n, rfl, rfl⟩
  | cons a as =>
    obtain ⟨items, hitems, htrees⟩ := Derivable.separated h
    refine ⟨.applied n items, ?_, ?_⟩
    · rw [Derivation.tokens, hitems, tokens, tokensAll_eq_map, List.cons_append, List.cons_append]
    · rw [Derivation.tree, htrees]

/-- A tuple of one item is the only place where a comma stands after the last item. -/
theorem Derivable.tuple {items : List TypeExpr} (hg : g = .rust) (h : ∀ a ∈ items, Derivable g a) :
    Derivable g (.tuple items) := by
  match items with
  | [] => exact ⟨.unit hg, rfl, rfl⟩
  | [a] =>
    obtain ⟨d, hd, ht⟩ := h a (List.mem_singleton_self a)
    refine ⟨.tuple hg (.lastComma d), ?_, ?_⟩
    · simp [Derivation.tokens, ItemsDerivation.tokens, hd, tokens, tokensAll, enclosed]
    · rw [Derivation.tree, ItemsDerivation.trees, ht]
  | a :: b :: l =>
    obtain ⟨d, hd, ht⟩ := Derivable.separated h
    refine ⟨.tuple hg d, ?_, ?_⟩
    · rw [Derivation.tokens, hd, tokens, tokensAll_eq_map, List.map_cons, List.map_cons, enclosed]
      · rfl
      · simp
    · rw [Derivation.tree, ht]

theorem derivable {t : TypeExpr} (hc : Covers g t) (h : t.WellNamed) : Derivable g t := by
  induction h with
  | named _ _ ih => exact Derivable.named fun a ha => ih a ha (hc.args a ha)
  | tuple _ ih =>
    have hg : g = .rust := hc.eq_rust
    exact Derivable.tuple hg fun a ha => ih a ha (.inl hg)

/-- A type is read back from its text. -/
theorem parse_render_of_covers {t : TypeExpr} (hc : Covers g t) (h : t.WellNamed) :
    parse g t.render = .ok t := by
  obtain ⟨d, htokens, htree⟩ := derivable hc h
  rw [parse, scan_render h]
  exact ofTokens_eq_ok_iff.2 ⟨d, htokens, htree⟩

theorem parse_render {t : TypeExpr} (h : t.WellNamed) : parse .rust t.render = .ok t :=
  parse_render_of_covers (.inl rfl) h

/-! ### What reading returns -/

/-- That the names among tokens are names. -/
def Named (ts : List TypeToken) : Prop := ∀ n, .name n ∈ ts → IsName n.toList

theorem named_append {ts us : List TypeToken} : Named (ts ++ us) ↔ Named ts ∧ Named us := by
  simp only [Named, List.mem_append, or_imp, forall_and]

mutual

theorem Derivation.wellNamed (d : Derivation g) (h : Named d.tokens) : d.tree.WellNamed := by
  match d with
  | .name n => exact .named (h n (List.mem_singleton_self _)) (by simp)
  | .applied n items =>
    have hname : IsName n.toList := h n (List.mem_cons_self ..)
    have hitems : Named items.tokens := fun m hm => h m (by simp [Derivation.tokens, hm])
    exact .named hname (items.wellNamed hitems)
  | .unit _ => exact .tuple (by simp)
  | .tuple _ items =>
    have hitems : Named items.tokens := fun m hm => h m (by simp [Derivation.tokens, hm])
    exact .tuple (items.wellNamed hitems)

theorem ItemsDerivation.wellNamed (items : ItemsDerivation g) (h : Named items.tokens) :
    ∀ t ∈ items.trees, t.WellNamed := by
  match items with
  | .last d => exact List.forall_mem_singleton.2 (d.wellNamed h)
  | .lastComma d => exact List.forall_mem_singleton.2 (d.wellNamed (named_append.1 h).1)
  | .more d items =>
    obtain ⟨hd, hitems⟩ := named_append.1 h
    have hrest : Named items.tokens := fun m hm => hitems m (List.mem_cons_of_mem _ hm)
    exact List.forall_mem_cons.2 ⟨d.wellNamed hd, items.wellNamed hrest⟩

end

mutual

theorem Derivation.covers (d : Derivation g) : Covers g d.tree := by
  match d with
  | .name _ => exact .inr (.named (by simp))
  | .applied n items =>
    rcases items.covers with hg | hfree
    · exact .inl hg
    · exact .inr (.named hfree)
  | .unit hg | .tuple hg _ => exact .inl hg

theorem ItemsDerivation.covers (items : ItemsDerivation g) :
    g = .rust ∨ ∀ t ∈ items.trees, t.TupleFree := by
  match items with
  | .last d | .lastComma d => exact d.covers.imp_right List.forall_mem_singleton.2
  | .more d items =>
    rcases d.covers, items.covers with ⟨hg | hd, hg | hitems⟩
    all_goals first | exact .inl hg | exact .inr (List.forall_mem_cons.2 ⟨hd, hitems⟩)

end

theorem wellNamed_of_parse {text : String} {t : TypeExpr} (h : parse g text = .ok t) :
    t.WellNamed ∧ Covers g t := by
  obtain ⟨d, htokens, rfl⟩ := ofTokens_eq_ok_iff.1 h
  have hnamed : Named d.tokens := by
    intro n hn
    rw [htokens] at hn
    exact isName_of_mem_scan hn
  exact ⟨d.wellNamed hnamed, d.covers⟩

/-- A type whose names are names is read back from its text as a Rust type, and as an interface type
if it has no tuples. So such types have different texts. Reading never returns any other type. -/
theorem parse_render_and_wellNamed :
    (∀ t : TypeExpr, t.WellNamed → parse .rust t.render = .ok t ∧
      (t.TupleFree → parse .wit t.render = .ok t)) ∧
    (∀ t u : TypeExpr, t.WellNamed → u.WellNamed → t.render = u.render → t = u) ∧
    (∀ text t, parse .rust text = .ok t → t.WellNamed) ∧
    (∀ text t, parse .wit text = .ok t → t.WellNamed ∧ t.TupleFree) := by
  refine ⟨?_, ?_, ?_, ?_⟩
  · intro t h
    exact ⟨parse_render h, fun hfree => parse_render_of_covers (.inr hfree) h⟩
  · intro t u ht hu heq
    have hback : parse .rust t.render = .ok u := by rw [heq, parse_render hu]
    exact Except.ok.inj ((parse_render ht).symm.trans hback)
  · intro text t h
    exact (wellNamed_of_parse h).1
  · intro text t h
    obtain ⟨hnamed, hcovers⟩ := wellNamed_of_parse h
    exact ⟨hnamed, hcovers.resolve_left (by decide)⟩

theorem parse_render_and_wellNamed_nested :
    let user : TypeExpr := .named "user-id" []
    let wit : TypeExpr := .named "list" [user]
    let rust : TypeExpr := .named "Result" [.tuple [wit], .tuple []]
    parse .rust "Result<(list<user-id>,), ()>" = .ok rust ∧
      parse .wit "list<user-id>" = .ok wit ∧ wit.render ≠ rust.render := by
  intro user wit rust
  have huser : user.WellNamed := .named (by decide) (by simp)
  have hwit : wit.WellNamed := .named (by decide) (List.forall_mem_singleton.2 huser)
  have hitems : ∀ t ∈ [TypeExpr.tuple [wit], .tuple []], t.WellNamed :=
    List.forall_mem_cons.2 ⟨.tuple (List.forall_mem_singleton.2 hwit),
      List.forall_mem_singleton.2 (.tuple (by simp))⟩
  have hrust : rust.WellNamed := .named (by decide) hitems
  have hfree : wit.TupleFree := .named (List.forall_mem_singleton.2 (.named (by simp)))
  obtain ⟨hback, hinj, -⟩ := parse_render_and_wellNamed
  refine ⟨(hback rust hrust).1, (hback wit hwit).2 hfree, ?_⟩
  intro heq
  have hsame : wit = rust := hinj wit rust hwit hrust heq
  have hname : "list" = "Result" := (TypeExpr.named.inj hsame).1
  exact absurd hname (by decide)

end TypeExpr

end WitCaller
