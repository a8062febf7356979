import WitCaller.Proofs.Toml.Cuts
import WitCaller.Proofs.Toml.Plain

/-!
The four forms of a string as a grammar, without a reader. Whatever the reader of a document takes for a
string has one of these forms, and says no more characters than stand between its quotes.
-/

namespace WitCaller.Toml
open Reading
variable {c q : Char} {k : Continuation} {p r s t x : List Char} {n : Nat}

/-- What stands after a backslash that takes it for another character. -/
inductive Escape : List Char → Prop where
  | letter {c : Char} (hc : c ∈ "bfnrt\x22\\".toList) : Escape [c]
  | number {c : Char} {ds : List Char} (hds : ∀ d ∈ ds, isHex d)
      (hc : c = 'u' ∧ ds.length = 4 ∨ c = 'U' ∧ ds.length = 8) : Escape (c :: ds)

/-- What stands between the quotes of a string within a line. Only double quotes know escapes. -/
inductive LineBody (q : Char) : List Char → Prop where
  | nil : LineBody q []
  | char {c : Char} {r : List Char} (hc : Verbatim q c) (hr : LineBody q r) : LineBody q (c :: r)
  | escape {e r : List Char} (hq : q = '\x22') (he : Escape e) (hr : LineBody q r) :
      LineBody q ('\\' :: (e ++ r))

/-- The ends of lines. -/
def IsLineEnd (g : List Char) : Prop := g = ['\n'] ∨ g = ['\r', '\n']

/-- A piece of a string of several lines that is no quote. A backslash may take out the end of its
line. -/
inductive LongPiece (q : Char) : List Char → Prop where
  | char {c : Char} (hc : Verbatim q c) : LongPiece q [c]
  | lineEnd {g : List Char} (hg : IsLineEnd g) : LongPiece q g
  | escape {e : List Char} (hq : q = '\x22') (he : Escape e) : LongPiece q ('\\' :: e)
  | joined {g w : List Char} (hq : q = '\x22') (hw : ∀ c ∈ w, isSpace c) (hg : IsLineEnd g) :
      LongPiece q ('\\' :: (w ++ g))

/-- What stands between the tripled quotes of a string of several lines, with the number of quotes at
its end. One or two quotes may stand anywhere. -/
inductive LongBody (q : Char) : Nat → List Char → Prop where
  | quotes {n : Nat} (hn : n ≤ 2) : LongBody q n (List.replicate n q)
  | piece {k n : Nat} {p r : List Char} (hk : k ≤ 2) (hp : LongPiece q p) (hr : LongBody q n r) :
      LongBody q n (List.replicate k q ++ (p ++ r))

/-- A string in one of its four forms, with its quote and the number of quotes of its own that it has
right before the closing ones. -/
inductive StringLiteral (q : Char) : Nat → List Char → Prop where
  | line {s : List Char} (hq : q = '\x22' ∨ q = '\x27') (hs : LineBody q s) :
      StringLiteral q 0 (q :: (s ++ [q]))
  | long {n : Nat} {s : List Char} (hq : q = '\x22' ∨ q = '\x27') (hs : LongBody q n s) :
      StringLiteral q n (q :: q :: q :: (s ++ [q, q, q]))

theorem StringLiteral.quote (hp : StringLiteral q n p) : q = '\x22' ∨ q = '\x27' := by
  cases hp with
  | line hq => exact hq
  | long hq => exact hq

theorem StringLiteral.count_le (hp : StringLiteral q n p) : n ≤ 2 := by
  cases hp with
  | line => exact Nat.zero_le 2
  | @long _ s _ hs =>
    induction hs with
    | quotes hn => exact hn
    | piece _ _ _ ih => exact ih

theorem Escapes.escape {e : List Char} (he : Escapes e c) : Escape e := by
  cases he with
  | letter hy =>
    refine .letter ?_
    unfold escape? at hy
    split at hy
    case h_8 => cases hy
    all_goals simp
  | number hc hy => exact .number (isHex_of_hexChar? hy) hc

/-- What a reader has taken within a line: the string and its closing quote. It says as many characters
as it has only if it has no escapes. -/
def ReadInLine (q : Char) (s x t : List Char) : Prop :=
  ∃ p, s = p ++ q :: t ∧ LineBody q p ∧ x.length ≤ p.length ∧
    (q = '\x22' → x.length = p.length → Plain p)

theorem ReadInLine.char (hc : Verbatim q c) (h : ReadInLine q s x t) :
    ReadInLine q (c :: s) (c :: x) t := by
  obtain ⟨p, rfl, hp, hle, hplain⟩ := h
  refine ⟨c :: p, rfl, .char hc hp, Nat.succ_le_succ hle, fun hq hl => ?_⟩
  subst hq
  exact List.forall_mem_cons.2 ⟨⟨hc.2.1, hc.2.2 rfl, hc.1⟩, hplain rfl (Nat.succ.inj hl)⟩

theorem ReadInLine.escape {e : List Char} (he : Escape e) (h : ReadInLine '\x22' s x t) :
    ReadInLine '\x22' ('\\' :: (e ++ s)) (c :: x) t := by
  obtain ⟨p, rfl, hp, hle, -⟩ := h
  have hne : 0 < e.length := by cases he <;> simp
  refine ⟨'\\' :: (e ++ p), by simp, .escape rfl he hp, by simp; omega, fun _ hl => ?_⟩
  simp only [List.length_cons, List.length_append] at hl
  omega

theorem LineRead.readInLine (h : LineRead q s x t) : ReadInLine q s x t := by
  induction h with
  | close => exact ⟨[], rfl, .nil, Nat.le_refl 0, fun _ _ => List.forall_mem_nil _⟩
  | char hc _ ih => exact ih.char hc
  | escape hq he _ ih =>
    subst hq
    exact ih.escape he.escape

theorem longPiece_of_ne (hc : ¬ (isControl c ∧ c ≠ '\n')) (hq : c ≠ q) (hb : q = '\x22' → c ≠ '\\') :
    LongPiece q [c] := by
  by_cases hn : c = '\n'
  · exact .lineEnd (.inl (by rw [hn]))
  · exact .char ⟨Bool.not_eq_true _ ▸ fun hcontrol => hc ⟨hcontrol, hn⟩, hq, hb⟩

theorem longPiece_of_blank (hc : isSpace c ∨ c = '\n') : LongPiece '\x22' [c] := by
  rw [isSpace, Bool.or_eq_true, beq_iff_eq, beq_iff_eq] at hc
  rcases hc with (rfl | rfl) | rfl
  · exact longPiece_of_ne (by decide) (by decide) fun _ => by decide
  · exact longPiece_of_ne (by decide) (by decide) fun _ => by decide
  · exact .lineEnd (.inl rfl)

/-- What a reader has taken of a string of several lines after some text: the rest of the string and the
closing quotes. -/
def ReadOn (q : Char) (front s x t : List Char) : Prop :=
  ∃ n p, s = front ++ (p ++ q :: q :: q :: t) ∧ LongBody q n p ∧ x.length ≤ p.length

theorem ReadOn.piece {y : List Char} (hp : LongPiece q p) (hy : y.length ≤ p.length)
    (h : ReadOn q [] s x t) : ReadOn q [] (p ++ s) (y ++ x) t := by
  obtain ⟨n, b, rfl, hb, hle⟩ := h
  refine ⟨n, p ++ b, by simp, LongBody.piece (k := 0) (Nat.zero_le 2) hp hb, ?_⟩
  simp only [List.length_append]
  omega

theorem ReadOn.escape {e : List Char} (he : Escape e) (h : ReadOn '\x22' [] s x t) :
    ReadOn '\x22' [] ('\\' :: (e ++ s)) (c :: x) t :=
  h.piece (.escape rfl he) (y := [c]) (Nat.le_add_left 1 _)

/-- A quote that does not close a string makes a run of quotes longer. -/
theorem ReadOn.quote (hn : ¬ [q, q, q] <+: q :: s) (h : ReadOn q [] s x t) :
    ReadOn q [] (q :: s) (q :: x) t := by
  obtain ⟨n, b, rfl, hb, hle⟩ := h
  cases hb with
  | quotes hn' =>
    refine absurd ?_ hn
    match n with
    | 0 | 1 | 2 | n + 3 => exact ⟨_, rfl⟩
  | @piece k _ p r hk hp hr =>
    match k with
    | 2 => exact absurd ⟨_, rfl⟩ hn
    | 0 | 1 => exact ⟨n, _, rfl, LongBody.piece (k := _ + 1) (by omega) hp hr, Nat.succ_le_succ hle⟩
    | k + 3 => omega

/-- What stands before the rest of a string when a backslash has still something to skip. -/
def Opening : Continuation → List Char → Prop
  | .toLineEnd, w => ∃ u, (∀ c ∈ u, isSpace c) ∧ w = u ++ ['\n']
  | _, w => w = []

theorem opening_nil {k : Continuation} (hk : k ≠ .toLineEnd) : Opening k [] := by
  cases k with
  | toLineEnd => exact absurd rfl hk
  | none => rfl
  | blanks => rfl

theorem replicate_append_cons : List.replicate n q ++ q :: t = q :: (List.replicate n q ++ t) := by
  rw [List.append_cons, ← List.replicate_succ', List.replicate_succ, List.cons_append]

/-- Each step of reading takes a piece of the string, or makes a run of quotes longer. Only a step that
leaves blanks to skip takes part of a piece, which what is left then begins with. -/
theorem LongRead.readOn (h : LongRead q k s x t) : ∃ w, Opening k w ∧ ReadOn q w s x t := by
  induction h with
  | close hk hn =>
    refine ⟨[], opening_nil hk.1, _, _, ?_, .quotes hn, Nat.le_refl _⟩
    simp only [List.nil_append, replicate_append_cons]
  | @char k c _ _ _ hk hn hb hc _ ih =>
    obtain ⟨_, rfl, hread⟩ := ih
    refine ⟨[], opening_nil hk.1, ?_⟩
    by_cases hquote : c = q
    · subst hquote
      exact hread.quote hn
    · exact hread.piece (p := [c]) (y := [c]) (longPiece_of_ne hc hquote hb) (Nat.le_refl 1)
  | @skip k k' c _ _ _ hq hk _ ih =>
    subst hq
    obtain ⟨rfl, ⟨hs, rfl⟩ | ⟨-, rfl, rfl⟩⟩ | ⟨rfl, hb, rfl⟩ := hk
    · obtain ⟨_, ⟨u, hu, rfl⟩, n, p, rfl, hp, hle⟩ := ih
      exact ⟨_, ⟨c :: u, List.forall_mem_cons.2 ⟨hs, hu⟩, rfl⟩, n, p, rfl, hp, hle⟩
    · obtain ⟨_, rfl, n, p, rfl, hp, hle⟩ := ih
      exact ⟨['\n'], ⟨[], List.forall_mem_nil _, rfl⟩, n, p, rfl, hp, hle⟩
    · obtain ⟨_, rfl, hread⟩ := ih
      exact ⟨[], rfl, hread.piece (p := [c]) (y := []) (longPiece_of_blank hb) (Nat.zero_le 1)⟩
  | escape hq hk he _ ih =>
    subst hq
    obtain ⟨_, rfl, hread⟩ := ih
    exact ⟨[], opening_nil hk.1, hread.escape he.escape⟩
  | @join k c _ x t hq hk hc _ ih =>
    subst hq
    refine ⟨[], opening_nil hk.1, ?_⟩
    by_cases hn : c = '\n'
    · subst hn
      obtain ⟨_, rfl, hread⟩ := ih
      have hjoined : LongPiece '\x22' ['\\', '\n'] :=
        .joined (w := []) rfl (List.forall_mem_nil _) (.inl rfl)
      exact hread.piece hjoined (y := []) (Nat.zero_le 2)
    · rw [if_neg hn] at ih
      obtain ⟨_, ⟨u, hu, rfl⟩, n, p, rfl, hp, hle⟩ := ih
      have hjoined : LongPiece '\x22' ('\\' :: (c :: u ++ ['\n'])) :=
        .joined rfl (List.forall_mem_cons.2 ⟨hc.resolve_left hn, hu⟩) (.inl rfl)
      have hread : ReadOn '\x22' [] (p ++ '\x22' :: '\x22' :: '\x22' :: t) x t := ⟨n, p, rfl, hp, hle⟩
      exact hread.piece hjoined (y := []) (Nat.zero_le _)

/-- Before the first character nothing is left to skip. -/
theorem LongRead.readOn_none (h : LongRead q .none s x t) : ReadOn q [] s x t := by
  obtain ⟨_, rfl, hread⟩ := h.readOn
  exact hread

/-- A line end right after the opening quotes, which the string does not say. -/
theorem readOn_of_tripled (read tail : List Char → Option (List Char × List Char))
    (hline : ∀ r, read (q :: q :: q :: '\n' :: r) = tail r)
    (hlong : ∀ r, r.head? ≠ some '\n' → read (q :: q :: q :: r) = tail r)
    (htail : ∀ {r x t}, tail r = some (x, t) → ReadOn q [] r x t)
    (h : read (q :: q :: q :: s) = some (x, t)) : ReadOn q [] s x t := by
  by_cases hs : s.head? = some '\n'
  · obtain ⟨r, rfl⟩ := List.head?_eq_some_iff.1 hs
    rw [hline] at h
    exact (htail h).piece (p := ['\n']) (y := []) (.lineEnd (.inl rfl)) (Nat.zero_le 1)
  · rw [hlong s hs] at h
    exact htail h

/-- What the reader of a document takes for a string stands within a line or between tripled quotes. -/
theorem readText_cases (h : outcome (readText s) = some (x, t)) :
    ∃ q r, (q = '\x22' ∨ q = '\x27') ∧
      (s = q :: r ∧ ¬ [q, q] <+: r ∧ ReadInLine q r x t ∨ s = q :: q :: q :: r ∧ ReadOn q [] r x t) := by
  rcases s with _ | ⟨c, s⟩
  · cases h
  · by_cases hd : c = '\x22'
    · subst hd
      by_cases hs : ['\x22', '\x22'] <+: s
      · obtain ⟨r, rfl⟩ := hs
        refine ⟨'\x22', r, .inl rfl, .inr ⟨rfl, ?_⟩⟩
        exact readOn_of_tripled (fun s => outcome (readText s)) (fun s => outcome (longBasicTail .none s))
          (fun _ => outcome_readText_long_line) (fun _ => outcome_readText_long)
          (fun hr => (longRead_longBasicTail.1 hr).readOn_none) h
      · rw [outcome_readText_basic hs] at h
        exact ⟨'\x22', s, .inl rfl, .inl ⟨rfl, hs, (lineRead_basicTail.1 h).readInLine⟩⟩
    · by_cases hq : c = '\x27'
      · subst hq
        by_cases hs : ['\x27', '\x27'] <+: s
        · obtain ⟨r, rfl⟩ := hs
          refine ⟨'\x27', r, .inr rfl, .inr ⟨rfl, ?_⟩⟩
          exact readOn_of_tripled (fun s => outcome (readText s)) (fun s => outcome (longLiteralTail s))
            (fun _ => outcome_readText_long_literal_line) (fun _ => outcome_readText_long_literal)
            (fun hr => (longRead_longLiteralTail.1 hr).readOn_none) h
        · rw [outcome_readText_literal hs] at h
          exact ⟨'\x27', s, .inr rfl, .inl ⟨rfl, hs, (lineRead_literalTail.1 h).readInLine⟩⟩
      · rw [outcome_readText_none hd hq] at h
        cases h

/-- What the reader of a document takes for a string is one. -/
theorem exists_literal_of_readText (h : outcome (readText s) = some (x, t)) :
    ∃ q n p, s = p ++ t ∧ StringLiteral q n p := by
  obtain ⟨q, r, hq, ⟨rfl, -, p, rfl, hp, -⟩ | ⟨rfl, n, p, rfl, hp, -⟩⟩ := readText_cases h
  · exact ⟨q, 0, q :: (p ++ [q]), by simp, .line hq hp⟩
  · exact ⟨q, n, q :: q :: q :: (p ++ [q, q, q]), by simp, .long hq hp⟩

/-- Between double quotes a text is read as one that is not shorter only if it needs no escapes. -/
theorem plain_of_readText (h : outcome (readText ('\x22' :: (p ++ ['\x22']))) = some (x, []))
    (hle : p.length ≤ x.length) : Plain p := by
  obtain ⟨q, r, hq, ⟨hs, -, b, rfl, -, hx, hplain⟩ | ⟨hs, n, b, rfl, -, hx⟩⟩ := readText_cases h
  · obtain ⟨rfl, hs⟩ := List.cons.inj hs
    rw [List.append_cancel_right hs] at hle ⊢
    exact hplain rfl (Nat.le_antisymm hx hle)
  · have hl := congrArg List.length hs
    simp only [List.length_cons, List.length_append, List.length_nil] at hl
    omega

end WitCaller.Toml
