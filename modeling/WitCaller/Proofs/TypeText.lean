import WitCaller.Proofs.Blanks
import WitCaller.Proofs.Naming

/-!
The text of a type and its tokens. Blanks at the ends of a text do not matter, every name that is cut
out of a text is a name, and the text of a type whose names are names is cut into its tokens again.
-/

namespace WitCaller

namespace TypeToken
open Text

theorem scan_cons_mark {c : Char} {m : TypeToken} (h : mark? c = some m) (r : List Char) :
    scan (c :: r) = m :: scan r := by
  rw [scan, h]

theorem mark?_of_isBlank {c : Char} (h : isBlank c = true) : mark? c = none := by
  unfold mark?
  split <;> first | rfl | cases h

theorem isNameChar_of_isBlank {c : Char} (h : isBlank c = true) : isNameChar c = false := by
  simp [isNameChar, h]

theorem scan_cons_blank {c : Char} (h : isBlank c = true) (r : List Char) :
    scan (c :: r) = scan r := by
  rw [scan, mark?_of_isBlank h]
  simp [h]

theorem scan_blanks_append {b : List Char} (hb : ∀ c ∈ b, isBlank c = true) (s : List Char) :
    scan (b ++ s) = scan s := by
  induction b with
  | nil => rfl
  | cons c b ih =>
    obtain ⟨hc, hb⟩ := List.forall_mem_cons.1 hb
    rw [List.cons_append, scan_cons_blank hc, ih hb]

theorem scan_append_blanks {b : List Char} (hb : ∀ c ∈ b, isBlank c = true) (s : List Char) :
    scan (s ++ b) = scan s := by
  have hname : ∀ c ∈ b, isNameChar c = false := fun c hc => isNameChar_of_isBlank (hb c hc)
  have htake (r : List Char) : (r ++ b).takeWhile isNameChar = r.takeWhile isNameChar ∧
      (r ++ b).dropWhile isNameChar = r.dropWhile isNameChar ++ b := by
    induction r with
    | nil =>
      cases b with
      | nil => simp
      | cons c b => simp [hname c (List.mem_cons_self ..)]
    | cons c r ih => by_cases hc : isNameChar c = true <;> simp [hc, ih]
  fun_induction scan s with
  | case1 => simpa [scan] using scan_blanks_append hb []
  | case2 c r m hm ih => rw [List.cons_append, scan, hm, ih]
  | case3 c r hm hc ih => rw [List.cons_append, scan_cons_blank hc, ih]
  | case4 c r hm hc ih =>
    rw [List.cons_append, scan, hm]
    simp only [hc, Bool.false_eq_true, if_false, (htake r).1, (htake r).2, ih]

/-- Blanks at the ends of a text do not matter. -/
theorem scan_trim (s : List Char) : scan (trim s) = scan s := by
  obtain ⟨b, b', hs, hb, hb'⟩ := trim_between s
  conv_rhs => rw [hs]
  rw [scan_blanks_append hb, scan_append_blanks hb']

/-- Every name that is cut out of a text is a name. -/
theorem isName_of_mem_scan {s : List Char} {n : String} (h : .name n ∈ scan s) :
    IsName n.toList := by
  fun_induction scan s with
  | case1 => simp at h
  | case2 c r m hm ih =>
    rcases List.mem_cons.1 h with rfl | h
    · simp [mark?] at hm
      split at hm <;> cases hm
    · exact ih h
  | case3 c r hm hc ih => exact ih h
  | case4 c r hm hc ih =>
    rcases List.mem_cons.1 h with h | h
    · obtain rfl := TypeToken.name.inj h
      have hc' : isNameChar c = true := by simp [isNameChar, hm, hc]
      rw [String.toList_ofList]
      refine ⟨List.cons_ne_nil _ _, List.forall_mem_cons.2 ⟨hc', ?_⟩⟩
      exact List.all_eq_true.1 List.all_takeWhile
    · exact ih h

theorem takeWhile_append_of_head {p : Char → Bool} {s r : List Char} (hs : ∀ c ∈ s, p c = true)
    (hr : ∀ c ∈ r.head?, p c = false) :
    (s ++ r).takeWhile p = s ∧ (s ++ r).dropWhile p = r := by
  rw [List.takeWhile_append_of_pos hs, List.dropWhile_append_of_pos hs]
  cases r with
  | nil => simp
  | cons c r =>
    have := hr c rfl
    simp [this]

theorem scan_name_append {s r : List Char} (hs : IsName s)
    (hr : ∀ c ∈ r.head?, isNameChar c = false) :
    scan (s ++ r) = .name (String.ofList s) :: scan r := by
  obtain ⟨hne, hall⟩ := hs
  cases s with
  | nil => exact absurd rfl hne
  | cons c s =>
    obtain ⟨hc, hs⟩ := List.forall_mem_cons.1 hall
    obtain ⟨ht, hd⟩ := takeWhile_append_of_head hs hr
    simp only [isNameChar, Bool.and_eq_true, Bool.not_eq_true', Option.isNone_iff_eq_none] at hc
    rw [List.cons_append, scan, hc.2]
    simp only [hc.1, Bool.false_eq_true, if_false, ht, hd]

end TypeToken

namespace TypeExpr
open TypeToken

/-- A type all of whose names can be read back. -/
inductive WellNamed : TypeExpr → Prop
  | named {name : String} {args : List TypeExpr} (hn : IsName name.toList)
      (ha : ∀ a ∈ args, WellNamed a) : WellNamed (.named name args)
  | tuple {items : List TypeExpr} (hi : ∀ t ∈ items, WellNamed t) : WellNamed (.tuple items)

/-- Token lists with commas between them. -/
def separated : List (List TypeToken) → List TypeToken
  | [] => []
  | [s] => s
  | s :: t :: r => s ++ .comma :: separated (t :: r)

/-- Token lists between parentheses, as the items of a tuple. -/
def enclosed : List (List TypeToken) → List TypeToken
  | [s] => .left :: s ++ [.comma, .right]
  | ss => .left :: separated ss ++ [.right]

mutual

/-- The tokens of the text of a type. -/
def tokens : TypeExpr → List TypeToken
  | .named n [] => [.name n]
  | .named n (a :: as) => .name n :: .less :: separated (tokensAll (a :: as)) ++ [.greater]
  | .tuple items => enclosed (tokensAll items)

def tokensAll : List TypeExpr → List (List TypeToken)
  | [] => []
  | t :: ts => tokens t :: tokensAll ts

end

/-- That a text is cut into these tokens where no name goes on after it. -/
def ScansTo (s : String) (ts : List TypeToken) : Prop :=
  ∀ r : List Char, (∀ c ∈ r.head?, isNameChar c = false) → scan (s.toList ++ r) = ts ++ scan r

/-- That a text is cut into these tokens whatever follows, and does not go on with a name. -/
def ScansApart (s : String) (ts : List TypeToken) : Prop :=
  ∀ r : List Char, scan (s.toList ++ r) = ts ++ scan r ∧
    ∀ c ∈ (s.toList ++ r).head?, isNameChar c = false

theorem ScansTo.append_marks {s m : String} {us ms ts : List TypeToken} (h : ScansTo s us)
    (hm : ScansApart m ms) (he : us ++ ms = ts) : ScansTo (s ++ m) ts := by
  intro r _
  rw [String.toList_append, List.append_assoc, h _ (hm r).2, (hm r).1, ← he, List.append_assoc]

theorem ScansApart.append {s m : String} {us ms ts : List TypeToken} (hm : ScansApart m ms)
    (h : ScansTo s us) (he : ms ++ us = ts) : ScansTo (m ++ s) ts := by
  intro r hr
  rw [String.toList_append, List.append_assoc, (hm _).1, h r hr, ← he, List.append_assoc]

theorem ScansTo.append {s m t : String} {us ms vs ts : List TypeToken} (h : ScansTo s us)
    (hm : ScansApart m ms) (ht : ScansTo t vs) (he : us ++ (ms ++ vs) = ts) :
    ScansTo (s ++ m ++ t) ts := by
  intro r hr
  have hs := h _ (hm (t.toList ++ r)).2
  have hmt := (hm.append ht rfl) r hr
  rw [String.toList_append, List.append_assoc] at hmt
  rw [String.toList_append, String.toList_append, List.append_assoc, List.append_assoc, hs, hmt,
    ← he]
  simp only [List.append_assoc]

theorem scansApart_left : ScansApart "(" [.left] := fun r => ⟨scan_cons_mark rfl r, by simp; decide⟩

theorem scansApart_right : ScansApart ")" [.right] :=
  fun r => ⟨scan_cons_mark rfl r, by simp; decide⟩

theorem scansApart_less : ScansApart "<" [.less] := fun r => ⟨scan_cons_mark rfl r, by simp; decide⟩

theorem scansApart_greater : ScansApart ">" [.greater] :=
  fun r => ⟨scan_cons_mark rfl r, by simp; decide⟩

theorem scansApart_comma : ScansApart ", " [.comma] := fun r =>
  ⟨(scan_cons_mark rfl (' ' :: r)).trans (congrArg _ (scan_cons_blank rfl r)), by simp; decide⟩

theorem scansApart_commaRight : ScansApart ",)" [.comma, .right] := fun r =>
  ⟨(scan_cons_mark rfl (')' :: r)).trans (congrArg _ (scan_cons_mark rfl r)), by simp; decide⟩

theorem scansTo_join {α : Type} {f : α → String} {g : α → List TypeToken} {l : List α}
    (h : ∀ a ∈ l, ScansTo (f a) (g a)) :
    ScansTo (Text.join ", " (l.map f)) (separated (l.map g)) := by
  induction l with
  | nil => exact fun r _ => rfl
  | cons a l ih =>
    obtain ⟨ha, hl⟩ := List.forall_mem_cons.1 h
    cases l with
    | nil => exact ha
    | cons b l => exact ha.append scansApart_comma (ih hl) rfl

theorem scansTo_parenthesized {α : Type} {f : α → String} {g : α → List TypeToken} {l : List α}
    (h : ∀ a ∈ l, ScansTo (f a) (g a)) :
    ScansTo (parenthesized (l.map f)) (enclosed (l.map g)) := by
  have hall : ScansTo ("(" ++ Text.join ", " (l.map f) ++ ")")
      (.left :: separated (l.map g) ++ [.right]) :=
    (scansApart_left.append (scansTo_join h) rfl).append_marks scansApart_right rfl
  match l with
  | [] | _ :: _ :: _ => exact hall
  | [a] =>
    have ha := h a (List.mem_singleton_self a)
    exact (scansApart_left.append ha rfl).append_marks scansApart_commaRight rfl

theorem tokensAll_eq_map (ts : List TypeExpr) : tokensAll ts = ts.map tokens := by
  induction ts with
  | nil => rfl
  | cons t ts ih => rw [tokensAll, ih, List.map_cons]

theorem scansTo_render {t : TypeExpr} (h : t.WellNamed) : ScansTo t.render t.tokens := by
  induction h with
  | @named n args hn _ ih =>
    have hname : ScansTo n [.name n] := fun r hr => by
      simpa using scan_name_append hn hr
    cases args with
    | nil => simpa only [render, tokens] using hname
    | cons a as =>
      simp only [render, tokens, renderAll_eq_map, tokensAll_eq_map]
      exact (hname.append scansApart_less (scansTo_join ih) rfl).append_marks scansApart_greater rfl
  | tuple _ ih =>
    simp only [render, tokens, renderAll_eq_map, tokensAll_eq_map]
    exact scansTo_parenthesized ih

theorem scan_render {t : TypeExpr} (h : t.WellNamed) : scan t.render.toList = t.tokens := by
  have := scansTo_render h [] (by simp)
  simpa [scan] using this

/-- That a reader takes this value off tokens and leaves these. -/
def Yields {α : Type} (f : (ts : List TypeToken) → Except TypeFault (Reading α ts))
    (ts : List TypeToken) (a : α) (r : List TypeToken) : Prop :=
  ∃ x, f ts = .ok x ∧ x.value = a ∧ x.rest = r

section
variable {g : TypeGrammar} {c t : TypeToken} {n : String} {a : TypeExpr} {as : List TypeExpr}
  {ts us r : List TypeToken}

theorem yields_name (hr : r.head? ≠ some .less) :
    Yields (readType g) (.name n :: r) (.named n []) r := by
  unfold Yields
  rw [readType]
  · exact ⟨_, rfl, rfl, rfl⟩
  · rintro us rfl
    exact hr rfl

theorem yields_arguments (h : Yields (readOptionalItems g .greater) ts as r) (ha : as ≠ []) :
    Yields (readType g) (.name n :: .less :: ts) (.named n as) r := by
  obtain ⟨x, hx, rfl, rfl⟩ := h
  unfold Yields
  rw [readType, hx]
  simp only [List.isEmpty_iff, ha, if_false]
  exact ⟨_, rfl, rfl, rfl⟩

theorem yields_tuple (hg : g = .rust) (h : Yields (readOptionalItems g .right) ts as r) :
    Yields (readType g) (.left :: ts) (.tuple as) r := by
  subst hg
  obtain ⟨x, hx, rfl, rfl⟩ := h
  unfold Yields
  rw [readType, hx]
  exact ⟨_, rfl, rfl, rfl⟩

theorem yields_nothing : Yields (readOptionalItems g c) (c :: r) [] r := by
  unfold Yields
  rw [readOptionalItems.eq_def]
  simp only [if_true]
  exact ⟨_, rfl, rfl, rfl⟩

theorem yields_optional (hc : t ≠ c) (h : Yields (readItems g c) (t :: ts) as r) :
    Yields (readOptionalItems g c) (t :: ts) as r := by
  unfold Yields
  rw [readOptionalItems, if_neg hc]
  exact h

theorem yields_items (h : Yields (readType g) ts a us) (hs : Yields (readMoreItems g c) us as r) :
    Yields (readItems g c) ts (a :: as) r := by
  obtain ⟨x, hx, rfl, rfl⟩ := h
  obtain ⟨y, hy, rfl, rfl⟩ := hs
  unfold Yields
  rw [readItems, hx]
  simp only [hy]
  exact ⟨_, rfl, rfl, rfl⟩

theorem yields_close : Yields (readMoreItems g c) (c :: r) [] r := by
  unfold Yields
  rw [readMoreItems.eq_def]
  simp only [if_true]
  exact ⟨_, rfl, rfl, rfl⟩

theorem yields_commaClose (hc : c ≠ .comma) :
    Yields (readMoreItems g c) (.comma :: c :: r) [] r := by
  unfold Yields
  rw [readMoreItems.eq_def]
  simp only [if_neg hc.symm, if_true]
  exact ⟨_, rfl, rfl, rfl⟩

theorem yields_comma (hc : c ≠ .comma) (ht : t ≠ c) (h : Yields (readItems g c) (t :: ts) as r) :
    Yields (readMoreItems g c) (.comma :: t :: ts) as r := by
  obtain ⟨x, hx, rfl, rfl⟩ := h
  unfold Yields
  rw [readMoreItems, if_neg hc.symm, if_pos rfl]
  simp only [if_neg ht, hx]
  exact ⟨_, rfl, rfl, rfl⟩

end

/-- The marks that end a list of types. -/
def IsCloser (c : TypeToken) : Prop := c = .greater ∨ c = .right

theorem IsCloser.ne_comma {c : TypeToken} (hc : IsCloser c) : c ≠ .comma := by
  rcases hc with rfl | rfl <;> simp

theorem IsCloser.head_ne {c : TypeToken} (hc : IsCloser c) (r : List TypeToken) :
    (c :: r).head? ≠ some .less := by
  rcases hc with rfl | rfl <;> simp

theorem IsCloser.ne {c u : TypeToken} (hc : IsCloser c) (hu : u ≠ .greater ∧ u ≠ .right) :
    u ≠ c := by
  rcases hc with rfl | rfl
  · exact hu.1
  · exact hu.2

end TypeExpr
end WitCaller
