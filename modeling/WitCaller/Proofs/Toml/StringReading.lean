import WitCaller.Proofs.Toml.Outcomes

/-!
How the four forms of a string are read, as two relations: one for a string within a line and one for a
string of several lines. Each says what one step takes off the text and what it says, up to the closing
quotes. The readers are opened here once; what other modules show of them is by induction on the steps.
-/

namespace WitCaller.Toml
open Reading
variable {α β γ : Type} {c q y : Char} {e p r s t x : List Char} {k k' : Continuation}

/-- What stands after a backslash, and the character that it says. -/
inductive Escapes : List Char → Char → Prop where
  | letter {e y : Char} (hy : escape? e = some y) : Escapes [e] y
  | number {c y : Char} {ds : List Char} (hc : c = 'u' ∧ ds.length = 4 ∨ c = 'U' ∧ ds.length = 8)
      (hy : hexChar? ds = some y) : Escapes (c :: ds) y

/-- Characters that stand for themselves in a string with this quote. -/
def Verbatim (q c : Char) : Prop := isControl c = false ∧ c ≠ q ∧ (q = '\x22' → c ≠ '\\')

/-- How the rest of a string within a line is read. Only double quotes know escapes. -/
inductive LineRead (q : Char) : List Char → List Char → List Char → Prop where
  | close {t : List Char} : LineRead q (q :: t) [] t
  | char {c : Char} {r x t : List Char} (hc : Verbatim q c) (h : LineRead q r x t) :
      LineRead q (c :: r) (c :: x) t
  | escape {e r x t : List Char} {y : Char} (hq : q = '\x22') (he : Escapes e y)
      (h : LineRead q r x t) : LineRead q ('\\' :: (e ++ r)) (y :: x) t

/-- Whether nothing is left to skip before a character. -/
def Settled (k : Continuation) (c : Char) : Prop :=
  k ≠ .toLineEnd ∧ ¬ (k = .blanks ∧ (isSpace c ∨ c = '\n'))

/-- Whether a character is skipped, and what is left to skip after it. -/
def Skips (k : Continuation) (c : Char) (k' : Continuation) : Prop :=
  k = .toLineEnd ∧ (isSpace c ∧ k' = .toLineEnd ∨ ¬ isSpace c ∧ c = '\n' ∧ k' = .blanks) ∨
    k = .blanks ∧ (isSpace c ∨ c = '\n') ∧ k' = .blanks

/-- How the rest of a string of several lines is read. Up to two quotes before the closing ones belong
to the string. With double quotes, a backslash at the end of a line takes out what is blank after it. -/
inductive LongRead (q : Char) : Continuation → List Char → List Char → List Char → Prop where
  | close {k : Continuation} {n : Nat} {t : List Char} (hk : Settled k q) (hn : n ≤ 2)
      (ht : n < 2 → t.head? ≠ some q) :
      LongRead q k (q :: q :: q :: (List.replicate n q ++ t)) (List.replicate n q) t
  | char {k : Continuation} {c : Char} {r x t : List Char} (hk : Settled k c)
      (hn : ¬ [q, q, q] <+: c :: r) (hb : q = '\x22' → c ≠ '\\') (hc : ¬ (isControl c ∧ c ≠ '\n'))
      (h : LongRead q .none r x t) : LongRead q k (c :: r) (c :: x) t
  | skip {k k' : Continuation} {c : Char} {r x t : List Char} (hq : q = '\x22') (hk : Skips k c k')
      (h : LongRead q k' r x t) : LongRead q k (c :: r) x t
  | escape {k : Continuation} {e r x t : List Char} {y : Char} (hq : q = '\x22')
      (hk : Settled k '\\') (he : Escapes e y) (h : LongRead q .none r x t) :
      LongRead q k ('\\' :: (e ++ r)) (y :: x) t
  | join {k : Continuation} {c : Char} {r x t : List Char} (hq : q = '\x22') (hk : Settled k '\\')
      (hc : c = '\n' ∨ isSpace c)
      (h : LongRead q (if c = '\n' then .blanks else .toLineEnd) r x t) :
      LongRead q k ('\\' :: c :: r) x t

/-! ### What one step reads -/

theorem outcome_bind_eq_some {o : Option γ} {f : γ → Option (Reading α s)} {a : α} :
    outcome (o.bind f) = some (a, t) ↔ ∃ b, o = some b ∧ outcome (f b) = some (a, t) := by
  cases o with
  | none => simp
  | some b => simp

/-- A reader that goes on after some characters. -/
theorem outcome_lift {f : α → β} {x? : Option (Reading α r)} [EndOf r s] :
    outcome (do return (← x?).lift f : Option (Reading β s)) = onValue f (outcome x?) :=
  outcome_bind fun _ => ⟨rfl, rfl⟩

theorem isHex_of_hexChar? {ds : List Char} (hy : hexChar? ds = some y) : ∀ d ∈ ds, isHex d := by
  obtain ⟨ns, hns, -⟩ := Option.bind_eq_some_iff.1 hy
  clear hy
  induction ds generalizing ns with
  | nil => exact List.forall_mem_nil _
  | cons d ds ih =>
    rw [List.mapM_cons] at hns
    obtain ⟨n, hn, hns⟩ := Option.bind_eq_some_iff.1 hns
    obtain ⟨ns', hns', -⟩ := Option.bind_eq_some_iff.1 hns
    refine List.forall_mem_cons.2 ⟨?_, ih ns' hns'⟩
    rw [isHex, hn]
    rfl

/-- An escape is one letter, or it is `u` or `U` with its digits. -/
theorem Escapes.spelled : ∀ {e : List Char} {y : Char}, Escapes e y →
    (∃ l, e = [l] ∧ escape? l = some y) ∨
      (∃ a b c d, e = ['u', a, b, c, d] ∧ hexChar? [a, b, c, d] = some y) ∨
      ∃ a b c d f g h i, e = ['U', a, b, c, d, f, g, h, i] ∧
        hexChar? [a, b, c, d, f, g, h, i] = some y
  | _, _, .letter hy => .inl ⟨_, rfl, hy⟩
  | _, _, @number _ _ [a, b, c, d] (.inl ⟨rfl, _⟩) hy => .inr (.inl ⟨a, b, c, d, rfl, hy⟩)
  | _, _, @number _ _ [a, b, c, d, f, g, h, i] (.inr ⟨rfl, _⟩) hy =>
    .inr (.inr ⟨a, b, c, d, f, g, h, i, rfl, hy⟩)

/-- An escape lies within its line. -/
theorem Escapes.not_mem (he : Escapes e y) : '\n' ∉ e := by
  cases he with
  | letter hy =>
    rw [List.mem_singleton]
    rintro rfl
    cases hy
  | number hc hy =>
    rw [List.mem_cons, not_or]
    refine ⟨?_, fun hm => ?_⟩
    · rcases hc with ⟨rfl, -⟩ | ⟨rfl, -⟩
      · decide
      · decide
    · have hex := isHex_of_hexChar? hy _ hm
      cases hex

theorem outcome_basicTail_quote : outcome (basicTail ('\x22' :: r)) = some ([], r) := by
  rw [basicTail_quote]
  rfl

theorem outcome_basicTail_other (hq : c ≠ '\x22') (hb : c ≠ '\\') (hc : ¬ isControl c) :
    outcome (basicTail (c :: r)) = onValue (c :: ·) (outcome (basicTail r)) := by
  rw [basicTail, if_neg hc, if_neg hb]
  · exact outcome_lift
  all_goals
    intros
    contradiction

theorem outcome_basicTail_escape (he : Escapes e y) :
    outcome (basicTail ('\\' :: (e ++ r))) = onValue (y :: ·) (outcome (basicTail r)) := by
  rcases he.spelled with
    ⟨l, rfl, hy⟩ | ⟨a, b, c, d, rfl, hy⟩ | ⟨a, b, c, d, f, g, h, i, rfl, hy⟩
  · rw [List.singleton_append, basicTail, hy]
    · exact outcome_lift
    · rintro _ _ _ _ _ rfl
      cases hy
    · rintro _ _ _ _ _ _ _ _ _ rfl
      cases hy
  · change outcome (basicTail ('\\' :: 'u' :: a :: b :: c :: d :: r)) = _
    rw [basicTail, hy]
    exact outcome_lift
  · change outcome (basicTail ('\\' :: 'U' :: a :: b :: c :: d :: f :: g :: h :: i :: r)) = _
    rw [basicTail, hy]
    exact outcome_lift

theorem verbatim_basic (hq : c ≠ '\x22') (hb : c ≠ '\\') (hc : ¬ isControl c) : Verbatim '\x22' c :=
  ⟨Bool.not_eq_true _ ▸ hc, hq, fun _ => hb⟩

theorem verbatim_literal (hq : c ≠ '\x27') (hc : ¬ isControl c) : Verbatim '\x27' c :=
  ⟨Bool.not_eq_true _ ▸ hc, hq, nofun⟩

theorem Verbatim.not_control (hc : Verbatim q c) : ¬ isControl c := by
  rw [hc.1]
  exact Bool.false_ne_true

theorem lineRead_basicTail : outcome (basicTail s) = some (x, t) ↔ LineRead '\x22' s x t := by
  constructor
  · intro h
    fun_induction basicTail s generalizing x with
    | case1 => cases h
    | case2 r =>
      cases h
      exact .close
    | case3 a b c d r ih =>
      obtain ⟨y, hy, h⟩ := outcome_bind_eq_some.1 h
      obtain ⟨x, hx, rfl⟩ := onValue_eq_some.1 (outcome_lift.symm.trans h)
      exact .escape rfl (.number (.inl ⟨rfl, rfl⟩) hy) (ih hx)
    | case4 a b c d e f g h' r ih =>
      obtain ⟨y, hy, h⟩ := outcome_bind_eq_some.1 h
      obtain ⟨x, hx, rfl⟩ := onValue_eq_some.1 (outcome_lift.symm.trans h)
      exact .escape rfl (.number (.inr ⟨rfl, rfl⟩) hy) (ih hx)
    | case5 e r _ _ ih =>
      obtain ⟨y, hy, h⟩ := outcome_bind_eq_some.1 h
      obtain ⟨x, hx, rfl⟩ := onValue_eq_some.1 (outcome_lift.symm.trans h)
      exact .escape rfl (.letter hy) (ih hx)
    | case6 => cases h
    | case7 => cases h
    | case8 c r hq _ _ _ hc hb ih =>
      obtain ⟨x, hx, rfl⟩ := onValue_eq_some.1 (outcome_lift.symm.trans h)
      exact .char (verbatim_basic hq hb hc) (ih hx)
  · intro h
    induction h with
    | close => exact outcome_basicTail_quote
    | char hc _ ih =>
      rw [outcome_basicTail_other hc.2.1 (hc.2.2 rfl) hc.not_control, ih]
      rfl
    | escape _ he _ ih =>
      rw [outcome_basicTail_escape he, ih]
      rfl

theorem outcome_literalTail_quote : outcome (literalTail ('\x27' :: r)) = some ([], r) := by
  rw [literalTail_quote]
  rfl

theorem outcome_literalTail_other (hq : c ≠ '\x27') (hc : ¬ isControl c) :
    outcome (literalTail (c :: r)) = onValue (c :: ·) (outcome (literalTail r)) := by
  rw [literalTail, if_neg hc]
  · exact outcome_lift
  · exact hq

theorem lineRead_literalTail : outcome (literalTail s) = some (x, t) ↔ LineRead '\x27' s x t := by
  constructor
  · intro h
    fun_induction literalTail s generalizing x with
    | case1 => cases h
    | case2 r =>
      cases h
      exact .close
    | case3 => cases h
    | case4 c r hq hc ih =>
      obtain ⟨x, hx, rfl⟩ := onValue_eq_some.1 (outcome_lift.symm.trans h)
      exact .char (verbatim_literal hq hc) (ih hx)
  · intro h
    induction h with
    | close => exact outcome_literalTail_quote
    | char hc _ ih =>
      rw [outcome_literalTail_other hc.2.1 hc.not_control, ih]
      rfl
    | escape hq => exact absurd hq (by decide)

/-! ### Closing quotes -/

theorem closing_eq_none (h : ¬ [q, q, q] <+: s) : closing q s = none := by
  unfold closing
  split
  · next a b c d e r =>
    rw [if_neg]
    rintro ⟨rfl, rfl, rfl⟩
    exact h ⟨d :: e :: r, rfl⟩
  · next a b c d =>
    rw [if_neg]
    rintro ⟨rfl, rfl, rfl⟩
    exact h ⟨[d], rfl⟩
  · next a b c =>
    rw [if_neg]
    rintro ⟨rfl, rfl, rfl⟩
    exact h ⟨[], rfl⟩
  · rfl

theorem outcome_closing_three (hr : r.head? ≠ some q) :
    outcome (closing q (q :: q :: q :: r)) = some ([], r) := by
  rcases r with _ | ⟨d, _ | ⟨e, r⟩⟩
  · simp [closing]
  · have hd : d ≠ q := fun hd => hr (by rw [hd]; rfl)
    simp [closing, hd]
  · have hd : d ≠ q := fun hd => hr (by rw [hd]; rfl)
    simp [closing, hd]

theorem outcome_closing_four (hr : r.head? ≠ some q) :
    outcome (closing q (q :: q :: q :: q :: r)) = some ([q], r) := by
  rcases r with _ | ⟨e, r⟩
  · simp [closing]
  · have he : e ≠ q := fun he => hr (by rw [he]; rfl)
    simp [closing, he]

theorem outcome_closing_five :
    outcome (closing q (q :: q :: q :: q :: q :: r)) = some ([q, q], r) := by
  simp [closing]

/-- Closing quotes take as many as there are, up to five. -/
theorem outcome_closing {n : Nat} (hn : n ≤ 2) (ht : n < 2 → t.head? ≠ some q) :
    outcome (closing q (q :: q :: q :: (List.replicate n q ++ t))) = some (List.replicate n q, t) := by
  match n with
  | 0 => exact outcome_closing_three (ht (by decide))
  | 1 => exact outcome_closing_four (ht (by decide))
  | 2 => exact outcome_closing_five
  | n + 3 => omega

theorem exists_replicate_append (q : Char) (r : List Char) :
    ∃ n t, n ≤ 2 ∧ r = List.replicate n q ++ t ∧ (n < 2 → t.head? ≠ some q) := by
  by_cases h₁ : r.head? = some q
  · obtain ⟨r, rfl⟩ := List.head?_eq_some_iff.1 h₁
    by_cases h₂ : r.head? = some q
    · obtain ⟨r, rfl⟩ := List.head?_eq_some_iff.1 h₂
      exact ⟨2, r, Nat.le_refl 2, rfl, fun h => absurd h (by decide)⟩
    · exact ⟨1, r, by decide, rfl, fun _ => h₂⟩
  · exact ⟨0, r, by decide, rfl, fun _ => h₁⟩

theorem closing_eq_some (h : outcome (closing q s) = some (x, t)) :
    ∃ n ≤ 2, s = q :: q :: q :: (List.replicate n q ++ t) ∧ x = List.replicate n q ∧
      (n < 2 → t.head? ≠ some q) := by
  by_cases hp : [q, q, q] <+: s
  · obtain ⟨r, rfl⟩ := hp
    obtain ⟨n, r, hn, rfl, ht⟩ := exists_replicate_append q r
    cases (outcome_closing hn ht).symm.trans h
    exact ⟨n, hn, rfl, rfl, ht⟩
  · rw [closing_eq_none hp] at h
    cases h

theorem not_closing_of_ne (hc : c ≠ q) : ¬ [q, q, q] <+: c :: r := by
  rintro ⟨t, ht⟩
  exact hc (List.cons.inj ht).1.symm

theorem not_prefix_of_closing_eq_none (h : closing q s = none) : ¬ [q, q, q] <+: s := by
  rintro ⟨r, rfl⟩
  obtain ⟨n, r, hn, rfl, ht⟩ := exists_replicate_append q r
  have hc := outcome_closing hn ht
  change outcome (closing q ([q, q, q] ++ (List.replicate n q ++ r))) = _ at hc
  rw [h] at hc
  cases hc

/-! ### Strings of several lines -/

/-- At a line end that a backslash takes out, reading goes on with what follows the blanks. -/
theorem outcome_longBasicTail_skip (h : Skips k c k') :
    outcome (longBasicTail k (c :: r)) = outcome (longBasicTail k' r) := by
  refine Eq.trans ?_ onValue_id
  rw [longBasicTail.eq_def]
  rcases h with ⟨rfl, ⟨hs, rfl⟩ | ⟨hs, rfl, rfl⟩⟩ | ⟨rfl, hs, rfl⟩
  · simp only [if_pos, hs]
    exact outcome_lift
  · simp only [if_pos, if_neg hs]
    exact outcome_lift
  · simp only [reduceCtorEq, if_false, hs, and_self, if_true]
    exact outcome_lift

theorem outcome_longBasicTail_closing (h : outcome (closing '\x22' s) = some (x, t)) :
    outcome (longBasicTail .none s) = some (x, t) := by
  cases s with
  | nil => cases h
  | cons c r =>
    rw [longBasicTail.eq_def]
    simp only [reduceCtorEq, false_and, if_false]
    cases hc : closing '\x22' (c :: r) with
    | none =>
      rw [hc] at h
      cases h
    | some y =>
      rw [hc] at h
      exact h

theorem not_closing_backslash : ¬ ['\x22', '\x22', '\x22'] <+: '\\' :: r :=
  not_closing_of_ne (by decide)

/-- A backslash that starts no numbered escape. -/
theorem longBasicTail_backslash {e : Char} (hu : e ≠ 'u') (hU : e ≠ 'U') :
    longBasicTail .none ('\\' :: e :: r) =
      if e = '\n' then do return (← longBasicTail .blanks r).lift id
      else if isSpace e then do return (← longBasicTail .toLineEnd r).lift id
      else do
        let x ← escape? e
        return (← longBasicTail .none r).lift (x :: ·) := by
  rw [longBasicTail.eq_def]
  simp only [reduceCtorEq, false_and, if_false, closing_eq_none not_closing_backslash]
  simp [hu, hU]

theorem outcome_longBasicTail_escape (he : Escapes e y) :
    outcome (longBasicTail .none ('\\' :: (e ++ r))) =
      onValue (y :: ·) (outcome (longBasicTail .none r)) := by
  rcases he.spelled with
    ⟨e, rfl, hy⟩ | ⟨a, b, c, d, rfl, hy⟩ | ⟨a, b, c, d, f, g, h, i, rfl, hy⟩
  · have hne : e ≠ 'u' ∧ e ≠ 'U' ∧ e ≠ '\n' ∧ ¬ isSpace e := by
      refine ⟨?_, ?_, ?_, fun hs => ?_⟩
      iterate 3
        rintro rfl
        cases hy
      rw [isSpace, Bool.or_eq_true, beq_iff_eq, beq_iff_eq] at hs
      rcases hs with rfl | rfl
      · cases hy
      · cases hy
    obtain ⟨hu, hU, hn, hs⟩ := hne
    rw [List.singleton_append, longBasicTail_backslash hu hU, if_neg hn, if_neg hs, hy]
    exact outcome_lift
  · change outcome (longBasicTail .none ('\\' :: 'u' :: a :: b :: c :: d :: r)) = _
    rw [longBasicTail.eq_def]
    simp only [reduceCtorEq, false_and, if_false, closing_eq_none not_closing_backslash, hy]
    exact outcome_lift
  · change outcome (longBasicTail .none
      ('\\' :: 'U' :: a :: b :: c :: d :: f :: g :: h :: i :: r)) = _
    rw [longBasicTail.eq_def]
    simp only [reduceCtorEq, false_and, if_false, closing_eq_none not_closing_backslash, hy]
    exact outcome_lift

/-- A backslash before a line end, or before blanks that reach it. -/
theorem outcome_longBasicTail_join (hc : c = '\n' ∨ isSpace c) :
    outcome (longBasicTail .none ('\\' :: c :: r)) =
      outcome (longBasicTail (if c = '\n' then .blanks else .toLineEnd) r) := by
  refine Eq.trans ?_ onValue_id
  have hu : c ≠ 'u' := by
    rintro rfl
    revert hc
    decide
  have hU : c ≠ 'U' := by
    rintro rfl
    revert hc
    decide
  rw [longBasicTail_backslash hu hU]
  by_cases hn : c = '\n'
  · rw [if_pos hn, if_pos hn]
    exact outcome_lift
  · rw [if_neg hn, if_neg hn, if_pos (hc.resolve_left hn)]
    exact outcome_lift

theorem outcome_longBasicTail_other (hn : ¬ ['\x22', '\x22', '\x22'] <+: c :: r)
    (hb : c ≠ '\\') (hc : ¬ (isControl c ∧ c ≠ '\n')) :
    outcome (longBasicTail .none (c :: r)) = onValue (c :: ·) (outcome (longBasicTail .none r)) := by
  rw [longBasicTail.eq_def]
  simp only [reduceCtorEq, false_and, if_false, closing_eq_none hn]
  split
  · exact absurd rfl hb
  · exact absurd rfl hb
  · exact absurd rfl hb
  · rw [if_neg (not_or.2 ⟨hc, hb⟩)]
    exact outcome_lift

theorem longRead_longBasicTail :
    outcome (longBasicTail k s) = some (x, t) ↔ LongRead '\x22' k s x t := by
  constructor
  · intro h
    fun_induction longBasicTail k s generalizing x with
    | case1 => cases h
    | case2 c r hs ih =>
      rw [outcome_lift, onValue_id] at h
      exact .skip rfl (.inl ⟨rfl, .inl ⟨hs, rfl⟩⟩) (ih h)
    | case3 r hs ih =>
      rw [outcome_lift, onValue_id] at h
      exact .skip rfl (.inl ⟨rfl, .inr ⟨hs, rfl, rfl⟩⟩) (ih h)
    | case4 => cases h
    | case5 k c r hk hb ih =>
      rw [outcome_lift, onValue_id] at h
      exact .skip rfl (.inr ⟨hb.1, hb.2, rfl⟩) (ih h)
    | case6 k c r hk hb y hy =>
      obtain ⟨n, hn, hs, rfl, ht⟩ := closing_eq_some ((congrArg outcome hy).trans h)
      obtain ⟨rfl, rfl⟩ := List.cons.inj hs
      exact .close ⟨hk, hb⟩ hn ht
    | case7 k hk a b c d r hb _ ih =>
      obtain ⟨y, hy, h⟩ := outcome_bind_eq_some.1 h
      obtain ⟨x, hx, rfl⟩ := onValue_eq_some.1 (outcome_lift.symm.trans h)
      exact .escape rfl ⟨hk, hb⟩ (.number (.inl ⟨rfl, rfl⟩) hy) (ih hx)
    | case8 k hk a b c d e f g h' r hb _ ih =>
      obtain ⟨y, hy, h⟩ := outcome_bind_eq_some.1 h
      obtain ⟨x, hx, rfl⟩ := onValue_eq_some.1 (outcome_lift.symm.trans h)
      exact .escape rfl ⟨hk, hb⟩ (.number (.inr ⟨rfl, rfl⟩) hy) (ih hx)
    | case9 k hk r hb _ _ _ ih =>
      rw [outcome_lift, onValue_id] at h
      exact .join rfl ⟨hk, hb⟩ (.inl rfl) (ih h)
    | case10 k hk e r _ _ hn hs hb _ ih =>
      rw [outcome_lift, onValue_id] at h
      refine .join rfl ⟨hk, hb⟩ (.inr hs) ?_
      rw [if_neg hn]
      exact ih h
    | case11 k hk e r _ _ _ _ hb _ ih =>
      obtain ⟨y, hy, h⟩ := outcome_bind_eq_some.1 h
      obtain ⟨x, hx, rfl⟩ := onValue_eq_some.1 (outcome_lift.symm.trans h)
      exact .escape rfl ⟨hk, hb⟩ (.letter hy) (ih hx)
    | case12 => cases h
    | case13 k hk c r _ _ _ hc hb hq ih =>
      obtain ⟨hc, hbackslash⟩ := not_or.1 hc
      obtain ⟨x, hx, rfl⟩ := onValue_eq_some.1 (outcome_lift.symm.trans h)
      exact .char ⟨hk, hb⟩ (not_prefix_of_closing_eq_none hq) (fun _ => hbackslash) hc (ih hx)
  · intro h
    induction h with
    | close hk hn ht =>
      rw [longBasicTail_settled hk.1 hk.2]
      exact outcome_longBasicTail_closing (outcome_closing hn ht)
    | char hk hn hb hc _ ih =>
      rw [longBasicTail_settled hk.1 hk.2, outcome_longBasicTail_other hn (hb rfl) hc, ih]
      rfl
    | skip _ hk _ ih => rw [outcome_longBasicTail_skip hk, ih]
    | escape _ hk he _ ih =>
      rw [longBasicTail_settled hk.1 hk.2, outcome_longBasicTail_escape he, ih]
      rfl
    | join _ hk hc _ ih => rw [longBasicTail_settled hk.1 hk.2, outcome_longBasicTail_join hc, ih]

theorem outcome_longLiteralTail_closing (h : outcome (closing '\x27' s) = some (x, t)) :
    outcome (longLiteralTail s) = some (x, t) := by
  cases s with
  | nil => cases h
  | cons c r =>
    rw [longLiteralTail]
    cases hc : closing '\x27' (c :: r) with
    | none =>
      rw [hc] at h
      cases h
    | some y =>
      rw [hc] at h
      exact h

theorem outcome_longLiteralTail_other (hn : ¬ ['\x27', '\x27', '\x27'] <+: c :: r)
    (hc : ¬ (isControl c ∧ c ≠ '\n')) :
    outcome (longLiteralTail (c :: r)) = onValue (c :: ·) (outcome (longLiteralTail r)) := by
  rw [longLiteralTail, closing_eq_none hn]
  simp only [if_neg hc]
  exact outcome_lift

/-- Between single quotes no backslash takes anything out. -/
theorem LongRead.longLiteralTail (h : LongRead '\x27' k s x t) :
    outcome (longLiteralTail s) = some (x, t) := by
  induction h with
  | close _ hn ht => exact outcome_longLiteralTail_closing (outcome_closing hn ht)
  | char _ hn _ hc _ ih =>
    rw [outcome_longLiteralTail_other hn hc, ih]
    rfl
  | skip hq => exact absurd hq (by decide)
  | escape hq => exact absurd hq (by decide)
  | join hq => exact absurd hq (by decide)

theorem settled_none : Settled .none c := ⟨nofun, nofun⟩

theorem longRead_longLiteralTail :
    outcome (longLiteralTail s) = some (x, t) ↔ LongRead '\x27' .none s x t := by
  refine ⟨fun h => ?_, LongRead.longLiteralTail⟩
  fun_induction Toml.longLiteralTail s generalizing x with
  | case1 => cases h
  | case2 c r y hy =>
    obtain ⟨n, hn, hs, rfl, ht⟩ := closing_eq_some ((congrArg outcome hy).trans h)
    obtain ⟨rfl, rfl⟩ := List.cons.inj hs
    exact .close settled_none hn ht
  | case3 => cases h
  | case4 c r hq hc ih =>
    obtain ⟨x, hx, rfl⟩ := onValue_eq_some.1 (outcome_lift.symm.trans h)
    exact .char settled_none (not_prefix_of_closing_eq_none hq) (fun h => absurd h (by decide)) hc (ih hx)

end WitCaller.Toml
