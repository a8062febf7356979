import WitCaller.Proofs.Translation

/-!
Which texts of Rust types can be read. A name of which nothing is left in Pascal case leaves a gap in
the text, and a gap goes unnoticed only after the last comma of several items.
-/

namespace WitCaller

namespace Identifier
open Text

/-- Nothing is left of a name that is all hyphens. -/
theorem pascal_eq_empty {name : String} (h : ¬ Says name) : pascal name = "" := by
  have hflat : (splitOn '-' (unescape name.toList)).flatten = [] := by
    rw [flatten_splitOn, List.filter_eq_nil_iff]
    intro c hc hne
    exact h ⟨c, hc, by simpa using hne⟩
  have hparts := List.flatten_eq_nil_iff.1 hflat
  have hall : (splitOn '-' (unescape name.toList)).flatMap capitalize = [] := by
    rw [List.flatMap_eq_nil_iff]
    intro p hp
    rw [hparts p hp]
    rfl
  rw [pascal, hall]

end Identifier

namespace TypeExpr
open Logged

/-- Whether nothing of a type can be seen in its text. -/
def isNameless : TypeExpr → Bool
  | .named name [] => name == ""
  | _ => false

mutual

/-- Whether the text of a type can be read. -/
def legible : TypeExpr → Bool
  | .named name args => name != "" && legibleAll args
  | .tuple items => legibleAll items

/-- Whether the items of a list can be read. -/
def legibleAll : List TypeExpr → Bool
  | [] => true
  | t :: ts => legible t && legibleMore ts

/-- Whether the items after a comma can be read. The last may be missing: then the comma ends the
list. -/
def legibleMore : List TypeExpr → Bool
  | [] => true
  | t :: ts => (legible t || isNameless t && ts.isEmpty) && legibleMore ts

end

/-- A type whose names are names or missing; only without arguments is one missing. -/
inductive Spelled : TypeExpr → Prop
  | nameless : Spelled (.named "" [])
  | named {name : String} {args : List TypeExpr} (hn : TypeToken.IsName name.toList)
      (ha : ∀ a ∈ args, Spelled a) : Spelled (.named name args)
  | tuple {items : List TypeExpr} (hi : ∀ t ∈ items, Spelled t) : Spelled (.tuple items)

variable {t : TypeExpr} {ts us r : List TypeToken} {name : String} {args items : List TypeExpr}

theorem eq_nameless (h : t.isNameless = true) : t = .named "" [] := by
  unfold isNameless at h
  split at h
  · rw [beq_iff_eq.1 h]
  · cases h

theorem spelled_leaf (hn : TypeToken.IsName name.toList) : Spelled (leaf name) := by
  unfold leaf
  split
  · exact .tuple (by simp)
  · cases hl : primitives.lookup name with
    | some r => exact .named (isName_primitives _ (mem_of_lookup hl)) (by simp)
    | none =>
      rw [Option.getD_none]
      by_cases hs : Identifier.Says name
      · exact .named (Identifier.isName_pascal hn hs) (by simp)
      · exact Identifier.pascal_eq_empty hs ▸ .nameless

theorem spelled_image (hn : TypeToken.IsName name.toList) (ha : ∀ a ∈ args, Spelled a) :
    Spelled (image name args) := by
  have hunit : Spelled unit := .tuple (by simp)
  have hstring : Spelled (.named "String" []) := .named (by decide) (by simp)
  unfold image
  split
  · exact .named (by decide) ha
  · exact .named (by decide) ha
  · exact .named (by decide) (by simp [hunit])
  · exact .named (by decide) (by simpa [hunit] using ha)
  · exact .named (by decide) ha
  · exact .named (by decide) (by simpa [hstring] using ha)
  · exact .named (by decide) ha
  · exact .tuple ha
  · exact spelled_leaf hn

mutual

theorem spelled_translate {t : TypeExpr} (hn : ∀ n ∈ nodes t, TypeToken.IsName n.1.toList) :
    Spelled t.translate := by
  match t with
  | .named name args =>
    rw [nodes] at hn
    obtain ⟨hname, hargs⟩ := List.forall_mem_cons.1 hn
    exact spelled_image hname (spelled_translateAll hargs)
  | .tuple items => exact .tuple (spelled_translateAll hn)

theorem spelled_translateAll {ts : List TypeExpr} (hn : ∀ n ∈ nodesAll ts, TypeToken.IsName n.1.toList) :
    ∀ t ∈ translateAll ts, Spelled t := by
  match ts with
  | [] => exact fun t ht => nomatch ht
  | t :: ts =>
    rw [nodesAll, List.forall_mem_append] at hn
    rw [translateAll, List.forall_mem_cons]
    exact ⟨spelled_translate hn.1, spelled_translateAll hn.2⟩

end

/-- Whether a token can be seen in a text: a missing name cannot. -/
def isSeen (u : TypeToken) : Bool := u != .name ""

/-- The tokens of a type that can be seen in its text. -/
def seen (t : TypeExpr) : List TypeToken := t.tokens.filter isSeen

theorem isSeen_name (hn : TypeToken.IsName name.toList) : isSeen (.name name) = true := by
  rw [isSeen, bne_iff_ne]
  rintro ⟨⟩
  exact hn.1 rfl

theorem filter_separated (l : List (List TypeToken)) :
    (separated l).filter isSeen = separated (l.map (List.filter isSeen)) := by
  induction l with
  | nil => rfl
  | cons s l ih =>
    cases l with
    | nil => rfl
    | cons u l =>
      rw [separated, List.filter_append, List.filter_cons_of_pos rfl, ih]
      rfl

theorem filter_separated_tokens (ts : List TypeExpr) :
    (separated (ts.map tokens)).filter isSeen = separated (ts.map seen) := by
  rw [filter_separated, List.map_map]
  rfl

theorem seen_name (hn : TypeToken.IsName name.toList) : seen (.named name []) = [.name name] :=
  List.filter_cons_of_pos (isSeen_name hn)

theorem seen_named (hn : TypeToken.IsName name.toList) :
    seen (.named name (t :: args)) =
      .name name :: .less :: separated ((t :: args).map seen) ++ [.greater] := by
  rw [seen, tokens, tokensAll_eq_map, List.cons_append, List.cons_append,
    List.filter_cons_of_pos (isSeen_name hn), List.filter_cons_of_pos rfl, List.filter_append,
    filter_separated_tokens]
  rfl

theorem seen_tuple : seen (.tuple items) = enclosed (items.map seen) := by
  rw [seen, tokens, tokensAll_eq_map]
  rcases items with _ | ⟨t, _ | ⟨u, ts⟩⟩
  · rfl
  · show (TypeToken.left :: (t.tokens ++ [.comma, .right])).filter isSeen = _
    rw [List.filter_cons_of_pos rfl, List.filter_append]
    rfl
  · show (TypeToken.left :: (separated ((t :: u :: ts).map tokens) ++ [.right])).filter isSeen = _
    rw [List.filter_cons_of_pos rfl, List.filter_append, filter_separated_tokens]
    rfl

/-- The text of a type is cut into the tokens that can be seen. -/
theorem scansTo_seen (h : Spelled t) : ScansTo t.render t.seen := by
  induction h with
  | nameless => exact fun r _ => rfl
  | @named name args hn _ ih =>
    have hname : ScansTo name [.name name] := fun r hr => by
      simpa using TypeToken.scan_name_append hn hr
    cases args with
    | nil => simpa only [render, seen_name hn] using hname
    | cons a as =>
      simp only [render, renderAll_eq_map, seen_named hn]
      exact (hname.append scansApart_less (scansTo_join ih) rfl).append_marks scansApart_greater rfl
  | tuple _ ih =>
    simp only [render, renderAll_eq_map, seen_tuple]
    exact scansTo_parenthesized ih

/-- That a reader leaves these tokens if `p` holds, and fails if not. -/
def Settles {α : Type} (f : (ts : List TypeToken) → Except TypeFault (Reading α ts))
    (ts r : List TypeToken) (p : Bool) : Prop :=
  if p then ∃ a, Yields f ts a r else ∃ e, f ts = .error e

section
variable {g : TypeGrammar} {c u : TypeToken} {p q : Bool}

theorem settles_items (h : Settles (readType g) ts us p) (hs : Settles (readMoreItems g c) us r q) :
    Settles (readItems g c) ts r (p && q) := by
  cases p with
  | false =>
    obtain ⟨e, he⟩ := h
    exact ⟨e, by rw [readItems, he]⟩
  | true =>
    obtain ⟨a, ha⟩ := h
    cases q with
    | true =>
      obtain ⟨as, has⟩ := hs
      exact ⟨a :: as, yields_items ha has⟩
    | false =>
      obtain ⟨x, hx, rfl, rfl⟩ := ha
      obtain ⟨e, he⟩ := hs
      exact ⟨e, by rw [readItems, hx]; simp only [he]⟩

theorem settles_comma (hc : c ≠ .comma) (hu : u ≠ c) (h : Settles (readItems g c) (u :: us) r p) :
    Settles (readMoreItems g c) (.comma :: u :: us) r p := by
  cases p with
  | true =>
    obtain ⟨as, has⟩ := h
    exact ⟨as, yields_comma hc hu has⟩
  | false =>
    obtain ⟨e, he⟩ := h
    refine ⟨e, ?_⟩
    rw [readMoreItems, if_neg hc.symm, if_pos rfl]
    simp only [if_neg hu, he]

theorem settles_optional (hu : u ≠ c) (h : Settles (readItems g c) (u :: us) r p) :
    Settles (readOptionalItems g c) (u :: us) r p := by
  unfold Settles Yields at h ⊢
  rw [readOptionalItems, if_neg hu]
  exact h

theorem settles_tuple (h : Settles (readOptionalItems .rust .right) ts r p) :
    Settles (readType .rust) (.left :: ts) r p := by
  cases p with
  | true =>
    obtain ⟨as, has⟩ := h
    exact ⟨.tuple as, yields_tuple rfl has⟩
  | false =>
    obtain ⟨e, he⟩ := h
    exact ⟨e, by rw [readType, he]⟩

theorem readItems_ne_nil {as : List TypeExpr} (h : Yields (readItems g c) ts as r) : as ≠ [] := by
  obtain ⟨x, hx, rfl, -⟩ := h
  rw [readItems] at hx
  split at hx
  · cases hx
  · split at hx
    · cases hx
    · cases hx
      exact List.cons_ne_nil _ _

theorem settles_arguments {n : String} (hu : u ≠ .greater)
    (h : Settles (readItems g .greater) (u :: us) r p) :
    Settles (readType g) (.name n :: .less :: u :: us) r p := by
  cases p with
  | true =>
    obtain ⟨as, has⟩ := h
    exact ⟨.named n as, yields_arguments (yields_optional hu has) (readItems_ne_nil has)⟩
  | false =>
    obtain ⟨e, he⟩ := settles_optional hu h
    exact ⟨e, by rw [readType, he]⟩

end

/-- What may follow a type: nothing, a comma, or a mark that ends a list. -/
def Ends (r : List TypeToken) : Prop := ∀ u ∈ r.head?, u = .comma ∨ IsCloser u

/-- That a type is read off its tokens if it is legible, and nothing is if it is not. -/
def Decided (t : TypeExpr) : Prop :=
  ∀ r, Ends r → Settles (readType .rust) (t.seen ++ r) r t.legible

theorem readType_of_ends (h : Ends r) : ∃ e, readType .rust r = .error e := by
  cases r with
  | nil => exact ⟨_, by rw [readType]⟩
  | cons u us => rcases h u rfl with rfl | rfl | rfl <;> exact ⟨.unexpected _, by rw [readType] <;> simp⟩

theorem seen_eq_cons (h : Spelled t) : t = .named "" [] ∨
    ∃ u us, t.seen = u :: us ∧ u ≠ .greater ∧ u ≠ .right := by
  cases h with
  | nameless => exact .inl rfl
  | @named name args hn _ =>
    refine .inr ?_
    cases args with
    | nil => exact ⟨_, _, seen_name hn, by simp, by simp⟩
    | cons a as => exact ⟨_, _, seen_named hn, by simp, by simp⟩
  | @tuple items _ =>
    refine .inr ?_
    rw [seen_tuple]
    match items with
    | [] | [_] | _ :: _ :: _ => exact ⟨.left, _, rfl, by simp, by simp⟩

/-- A list of types begins with another mark than its last one, unless its only item is missing. -/
theorem separated_seen_eq_cons {c : TypeToken} (hc : IsCloser c) {ts : List TypeExpr}
    (h : Spelled t) (hne : t :: ts ≠ [.named "" []]) (r : List TypeToken) :
    ∃ u us, separated ((t :: ts).map seen) ++ c :: r = u :: us ∧ u ≠ c := by
  rcases seen_eq_cons h with rfl | ⟨u, us, ht, hu⟩
  · cases ts with
    | nil => exact absurd rfl hne
    | cons v vs => exact ⟨.comma, _, rfl, hc.ne_comma.symm⟩
  · cases ts with
    | nil => exact ⟨u, us ++ c :: r, by simp [separated, ht], hc.ne hu⟩
    | cons v vs =>
      exact ⟨u, us ++ .comma :: separated ((v :: vs).map seen) ++ c :: r,
        by simp [separated, ht], hc.ne hu⟩

theorem legibleMore_cons {ts : List TypeExpr} (hne : t :: ts ≠ [.named "" []]) :
    legibleMore (t :: ts) = legibleAll (t :: ts) := by
  have hlast : (t.isNameless && ts.isEmpty) = false := by
    rw [← Bool.not_eq_true, Bool.and_eq_true, List.isEmpty_iff]
    rintro ⟨ht, rfl⟩
    exact hne (by rw [eq_nameless ht])
  rw [legibleMore, hlast, Bool.or_false, legibleAll]

theorem settles_separated {c : TypeToken} (hc : IsCloser c) {ts : List TypeExpr}
    (hs : ∀ a ∈ t :: ts, Spelled a) (h : ∀ a ∈ t :: ts, Decided a) (r : List TypeToken) :
    Settles (readItems .rust c) (separated ((t :: ts).map seen) ++ c :: r) r
      (legibleAll (t :: ts)) := by
  have hclose (r : List TypeToken) : Ends (c :: r) := by
    rintro u ⟨⟩
    exact .inr hc
  have hcomma (r : List TypeToken) : Ends (.comma :: r) := by
    rintro u ⟨⟩
    exact .inl rfl
  induction ts generalizing t with
  | nil =>
    exact settles_items (q := true) (h t (List.mem_singleton_self t) _ (hclose r)) ⟨[], yields_close⟩
  | cons v vs ih =>
    obtain ⟨-, hs⟩ := List.forall_mem_cons.1 hs
    obtain ⟨ht, hvs⟩ := List.forall_mem_cons.1 h
    have hmore : Settles (readMoreItems .rust c)
        (.comma :: (separated ((v :: vs).map seen) ++ c :: r)) r (legibleMore (v :: vs)) := by
      by_cases hne : v :: vs = [.named "" []]
      · rw [hne]
        exact ⟨[], yields_commaClose hc.ne_comma⟩
      · obtain ⟨u, us, hu, huc⟩ := separated_seen_eq_cons hc (hs v List.mem_cons_self) hne r
        have hitems := ih hs hvs
        rw [hu] at hitems ⊢
        rw [legibleMore_cons hne]
        exact settles_comma hc.ne_comma huc hitems
    have hitem := ht _ (hcomma (separated ((v :: vs).map seen) ++ c :: r))
    rw [List.map_cons, List.map_cons, separated, ← List.map_cons, List.append_assoc, legibleAll]
    exact settles_items hitem hmore

theorem settles_enclosed {ts : List TypeExpr} (hs : ∀ a ∈ ts, Spelled a) (h : ∀ a ∈ ts, Decided a)
    (r : List TypeToken) :
    Settles (readType .rust) (enclosed (ts.map seen) ++ r) r (legibleAll ts) := by
  have hright : IsCloser .right := .inr rfl
  match ts with
  | [] => exact ⟨_, yields_tuple rfl yields_nothing⟩
  | [t] =>
    have hends : Ends (.comma :: .right :: r) := by
      rintro u ⟨⟩
      exact .inl rfl
    have hitems : Settles (readItems .rust .right) (t.seen ++ .comma :: .right :: r) r
        (legibleAll [t]) :=
      settles_items (q := true) (h t (List.mem_singleton_self t) _ hends)
        ⟨[], yields_commaClose hright.ne_comma⟩
    rcases seen_eq_cons (hs t (List.mem_singleton_self t)) with rfl | ⟨u, us, ht, -, hu⟩
    · exact settles_tuple (settles_optional (by simp) hitems)
    · rw [ht, List.cons_append] at hitems
      simpa [enclosed, ht] using settles_tuple (settles_optional hu hitems)
  | t :: v :: ts =>
    have hitems := settles_separated hright hs h r
    have hlist : t :: v :: ts ≠ [.named "" []] := by simp
    obtain ⟨u, us, hu, hne⟩ := separated_seen_eq_cons hright (hs t List.mem_cons_self) hlist r
    rw [hu] at hitems
    have htuple := settles_tuple (settles_optional hne hitems)
    rw [← hu] at htuple
    simpa [enclosed] using htuple

theorem decided_of_spelled (h : Spelled t) : Decided t := by
  induction h with
  | nameless => exact fun r hr => readType_of_ends hr
  | @named name args hn hs ih =>
    have hname : (name != "") = true := by
      rw [bne_iff_ne]
      rintro rfl
      exact hn.1 rfl
    intro r hr
    rw [legible, hname, Bool.true_and]
    cases args with
    | nil =>
      rw [seen_name hn]
      refine ⟨_, yields_name fun hless => ?_⟩
      rcases hr .less hless with h | h | h <;> cases h
    | cons a as =>
      have hgreater : IsCloser .greater := .inl rfl
      rw [seen_named hn]
      by_cases hne : a :: as = [.named "" []]
      · rw [hne]
        obtain ⟨x, hx, hv, -⟩ := yields_nothing (g := .rust) (c := .greater) (r := r)
        refine ⟨.emptyArguments name, ?_⟩
        show readType .rust (.name name :: .less :: .greater :: r) = _
        rw [readType, hx]
        simp only [hv, List.isEmpty_nil, if_true]
        rfl
      · obtain ⟨u, us, hu, huc⟩ := separated_seen_eq_cons hgreater (hs a List.mem_cons_self) hne r
        have hitems := settles_separated hgreater hs ih r
        rw [hu] at hitems
        have hargs := settles_arguments (n := name) huc hitems
        rw [← hu] at hargs
        simpa using hargs
  | tuple hs ih =>
    intro r _
    rw [seen_tuple, legible]
    exact settles_enclosed hs ih r

/-- The text of a type can be read exactly if it is legible. -/
theorem parse_render_iff (h : Spelled t) : (∃ e, parse .rust t.render = .ok e) ↔ t.legible = true := by
  have hscan : TypeToken.scan t.render.toList = t.seen := by
    have hs := scansTo_seen h [] (by simp)
    simpa [TypeToken.scan] using hs
  have hd := decided_of_spelled h [] (by rintro u ⟨⟩)
  rw [List.append_nil] at hd
  rw [parse, hscan, ofTokens]
  cases hl : t.legible with
  | true =>
    rw [hl] at hd
    obtain ⟨a, x, hx, -, hr⟩ := hd
    rw [hx]
    simp [hr]
  | false =>
    rw [hl] at hd
    obtain ⟨e, he⟩ := hd
    rw [he]
    simp

theorem read_ok_iff {g : TypeGrammar} {text : String} :
    read g text = .ok t ↔ parse g text = .ok t := by
  rw [read]
  cases parse g text with
  | error => simp [Except.mapError]
  | ok u => simp [Except.mapError]

/-- A text has a default value exactly if it can be read. -/
theorem defaultText_returns_iff {text : String} :
    (∃ d, defaultText text = .ok d) ↔ ∃ t, read .rust text = .ok t := by
  have hread (t : TypeExpr) : read .rust (trimmed text) = .ok t ↔ read .rust text = .ok t := by
    rw [read_ok_iff, parse_trimmed, read_ok_iff]
  constructor
  · rintro ⟨d, hd⟩
    rw [defaultText] at hd
    cases ht : read .rust (trimmed text) with
    | error =>
      rw [ht] at hd
      cases hd
    | ok t => exact ⟨t, (hread t).1 ht⟩
  · rintro ⟨t, ht⟩
    refine ⟨default t, ?_⟩
    rw [defaultText, (hread t).2 ht]
    rfl

theorem rustText_eq_ok_iff {strict : Bool} {witType r : String} :
    (rustText strict witType).collect.1 = .ok r ↔
      ∃ t, parse .wit witType = .ok t ∧ Obeys strict t ∧ t.translate.render = r := by
  by_cases hex : ∃ t, parse .wit witType = .ok t ∧ Obeys strict t
  · obtain ⟨t, ht, hobeys⟩ := hex
    rw [(rustText_returns ht hobeys).collect, Except.ok.injEq]
    constructor
    · intro hr
      exact ⟨t, ht, hobeys, hr⟩
    · rintro ⟨u, hu, -, hr⟩
      cases ht.symm.trans hu
      exact hr
  · constructor
    · intro h
      exact absurd h ((rustText_fails fun t ht ho => hex ⟨t, ht, ho⟩).collect r)
    · rintro ⟨t, ht, hobeys, -⟩
      exact absurd ⟨t, ht, hobeys⟩ hex

theorem parse_of_rustText {strict : Bool} {witType r : String}
    (h : (rustText strict witType).collect.1 = .ok r) :
    ∃ t, parse .wit witType = .ok t ∧ t.translate.render = r := by
  obtain ⟨t, ht, -, hr⟩ := rustText_eq_ok_iff.1 h
  exact ⟨t, ht, hr⟩

/-- What is found for an interface type can be read again, and has a default value, exactly if
nothing is missing in it but the last of several items; and nothing is missing if something is left
of every user-defined name in Pascal case. -/
theorem rustText_readBack_iff {strict : Bool} {witType r : String}
    (h : (rustText strict witType).collect.1 = .ok r) :
    ∃ t, parse .wit witType = .ok t ∧ t.translate.render = r ∧
      ((∃ e, read .rust r = .ok e) ↔ t.translate.legible = true) ∧
      ((∃ d, defaultText r = .ok d) ↔ t.translate.legible = true) ∧
      (NamesSay t → t.translate.legible = true) := by
  obtain ⟨t, ht, rfl⟩ := parse_of_rustText h
  have hn := isName_of_parse ht
  have hparse := parse_render_iff (spelled_translate hn)
  have hread : (∃ e, read .rust t.translate.render = .ok e) ↔ t.translate.legible = true := by
    simp only [read_ok_iff, hparse]
  refine ⟨t, ht, rfl, hread, defaultText_returns_iff.trans hread, fun hs => ?_⟩
  exact hparse.1 ⟨_, parse_render (wellNamed_translate hn hs)⟩

/-- An option of a missing type cannot be read, and a pair whose second type is missing can. -/
theorem rustText_readBack_iff_hyphen :
    ((rustText true "option<->").collect.1 = .ok "Option<>" ∧
      ¬ (∃ e, read .rust "Option<>" = .ok e) ∧ ¬ ∃ d, defaultText "Option<>" = .ok d) ∧
    (rustText true "tuple<u8, ->").collect.1 = .ok "(u8, )" ∧
      (∃ e, read .rust "(u8, )" = .ok e) ∧ ∃ d, defaultText "(u8, )" = .ok d := by
  have hoption : (rustText true "option<->").collect.1 = .ok "Option<>" := by cbv
  have hpair : (rustText true "tuple<u8, ->").collect.1 = .ok "(u8, )" := by cbv
  obtain ⟨t, ht, -, hread, hdefault, -⟩ := rustText_readBack_iff hoption
  obtain ⟨u, hu, -, hread', hdefault', -⟩ := rustText_readBack_iff hpair
  have ht' : parse .wit "option<->" = .ok (.named "option" [.named "-" []]) := by cbv
  have hu' : parse .wit "tuple<u8, ->" = .ok (.named "tuple" [.named "u8" [], .named "-" []]) := by
    cbv
  obtain rfl := Except.ok.inj (ht'.symm.trans ht)
  obtain rfl := Except.ok.inj (hu'.symm.trans hu)
  have hmissing : ¬ (translate (.named "option" [.named "-" []])).legible = true := by decide
  have hlegible : (translate (.named "tuple" [.named "u8" [], .named "-" []])).legible = true := by
    decide
  exact ⟨⟨hoption, fun h => hmissing (hread.1 h), fun h => hmissing (hdefault.1 h)⟩,
    hpair, hread'.2 hlegible, hdefault'.2 hlegible⟩

end TypeExpr
end WitCaller
