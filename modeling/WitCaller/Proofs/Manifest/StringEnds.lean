import WitCaller.Manifest.ArrayText
import WitCaller.Proofs.Toml.StringForms

/-!
Where the scan of an array ends a string. It ends a string of several lines at the first three quotes
in a row, also if the string itself has quotes right before the closing ones.
-/

namespace WitCaller.Manifest
open Toml Reading
variable {c q : Char} {b : Bool} {k n depth : Nat} {e p r s t : List Char} {a : ArrayText}

theorem isEscape_self : isEscape q q = false := by
  rw [isEscape, Bool.and_eq_false_iff, beq_eq_false_iff_ne, beq_eq_false_iff_ne]
  by_cases hq : q = '\x22'
  · subst hq
    exact .inr (by decide)
  · exact .inl hq

theorem isEscape_of_verbatim (hc : Verbatim q c) : isEscape q c = false := by
  rw [isEscape, Bool.and_eq_false_iff, beq_eq_false_iff_ne, beq_eq_false_iff_ne]
  by_cases hq : q = '\x22'
  · exact .inr (hc.2.2 hq)
  · exact .inl hq

theorem stringTail_quote : stringTail q false (q :: r) = some ([q], r) := by
  cases r with
  | nil => simp [stringTail, isEscape_self]
  | cons d r => simp [stringTail, isEscape_self]

theorem stringTail_tripled : stringTail q true (q :: q :: q :: r) = some ([q, q, q], r) := by
  simp [stringTail, isEscape_self]

/-- That the scan of a string passes over a text in it, whatever follows. -/
def PassesOver (q : Char) (tripled : Bool) (p : List Char) : Prop :=
  ∀ r, stringTail q tripled (p ++ r) = (stringTail q tripled r).map fun y => (p ++ y.1, y.2)

theorem passesOver_nil : PassesOver q b [] := fun r => by
  rw [List.nil_append]
  exact Option.map_id'.symm

theorem PassesOver.append (hp : PassesOver q b p) (hr : PassesOver q b r) : PassesOver q b (p ++ r) := by
  intro s
  rw [List.append_assoc, hp, hr, Option.map_map]
  simp [Function.comp_def]

/-- A character that neither closes a string nor takes the next one with it. -/
def Idle (q c : Char) : Prop := c ≠ q ∧ isEscape q c = false

theorem passesOver_char (hc : Idle q c) : PassesOver q b [c] := by
  obtain ⟨hne, hescape⟩ := hc
  intro r
  cases r with
  | nil => simp [stringTail, hne]
  | cons d r => simp [stringTail, hne, hescape]

theorem passesOver_idle (hp : ∀ c ∈ p, Idle q c) : PassesOver q b p := by
  induction p with
  | nil => exact passesOver_nil
  | cons c p ih =>
    obtain ⟨hc, hp⟩ := List.forall_mem_cons.1 hp
    exact (passesOver_char hc).append (ih hp)

theorem passesOver_escaped (hp : ∀ c ∈ p, Idle '\x22' c) : PassesOver '\x22' b ('\\' :: c :: p) := by
  have hpair : PassesOver '\x22' b ['\\', c] := fun r => by simp [stringTail, isEscape]
  exact hpair.append (passesOver_idle hp)

theorem idle_of_verbatim (hc : Verbatim q c) : Idle q c := ⟨hc.2.1, isEscape_of_verbatim hc⟩

theorem idle_of_isHex (hc : isHex c) : Idle '\x22' c := by
  constructor
  · rintro rfl
    cases hc
  · rw [isEscape, Bool.and_eq_false_iff]
    refine .inr (beq_eq_false_iff_ne.2 ?_)
    rintro rfl
    cases hc

/-- Blanks and the characters of line ends are idle in any string. -/
theorem idle_of_space (hq : q = '\x22' ∨ q = '\x27') (hc : isSpace c ∨ c = '\n' ∨ c = '\r') : Idle q c := by
  rw [isSpace, Bool.or_eq_true, beq_iff_eq, beq_iff_eq] at hc
  rcases hq with rfl | rfl <;> rcases hc with (rfl | rfl) | rfl | rfl <;> exact ⟨by decide, rfl⟩

theorem idle_of_isLineEnd (hq : q = '\x22' ∨ q = '\x27') (hp : IsLineEnd p) : ∀ c ∈ p, Idle q c := by
  intro c hc
  refine idle_of_space hq (.inr ?_)
  rcases hp with rfl | rfl
  · exact .inl (List.mem_singleton.1 hc)
  · simpa [or_comm] using hc

theorem passesOver_escape (he : Escape e) : PassesOver '\x22' b ('\\' :: e) := by
  cases he with
  | letter => exact passesOver_escaped (List.forall_mem_nil _)
  | number hds => exact passesOver_escaped fun d hd => idle_of_isHex (hds d hd)

theorem passesOver_lineBody (hp : LineBody q p) : PassesOver q b p := by
  induction hp with
  | nil => exact passesOver_nil
  | char hc _ ih => exact (passesOver_char (idle_of_verbatim hc)).append ih
  | escape hq he _ ih =>
    subst hq
    exact (passesOver_escape he).append ih

theorem stringTail_lineBody (hp : LineBody q p) :
    stringTail q false (p ++ q :: t) = some (p ++ [q], t) := by
  rw [passesOver_lineBody hp, stringTail_quote]
  rfl

theorem passesOver_longPiece (hq : q = '\x22' ∨ q = '\x27') (hp : LongPiece q p) :
    PassesOver q b p := by
  cases hp with
  | char hc => exact passesOver_char (idle_of_verbatim hc)
  | lineEnd hg => exact passesOver_idle (idle_of_isLineEnd hq hg)
  | escape hquote he =>
    subst hquote
    exact passesOver_escape he
  | @joined g w hquote hw hg =>
    subst hquote
    have hidle : ∀ c ∈ w ++ g, Idle '\x22' c := by
      intro c hc
      rcases List.mem_append.1 hc with hc | hc
      · exact idle_of_space hq (.inl (hw c hc))
      · exact idle_of_isLineEnd hq hg c hc
    have hne : w ++ g ≠ [] := by
      rcases hg with rfl | rfl <;> simp
    obtain ⟨d, z, hz⟩ := List.exists_cons_of_ne_nil hne
    rw [hz] at hidle ⊢
    exact passesOver_escaped (List.forall_mem_cons.1 hidle).2

theorem head_of_longPiece (hq : q = '\x22' ∨ q = '\x27') (hp : LongPiece q p) :
    ∃ c r, p = c :: r ∧ c ≠ q := by
  cases hp with
  | char hc => exact ⟨_, [], rfl, hc.2.1⟩
  | lineEnd hg =>
    have hidle := idle_of_isLineEnd hq hg
    rcases hg with rfl | rfl <;> exact ⟨_, _, rfl, (hidle _ List.mem_cons_self).1⟩
  | escape hquote => exact ⟨_, _, rfl, by rw [hquote]; decide⟩
  | joined hquote => exact ⟨_, _, rfl, by rw [hquote]; decide⟩

/-- One or two quotes before something else close no string of several lines. -/
theorem passesOver_quotes (hk : k ≤ 2) (hc : c ≠ q) (hp : PassesOver q true (c :: p)) :
    PassesOver q true (List.replicate k q ++ c :: p) := by
  have hone (r : List Char) : stringTail q true (q :: (c :: p ++ r)) =
      (stringTail q true (c :: p ++ r)).map fun y => (q :: y.1, y.2) := by
    simp [stringTail, isEscape_self, hc]
  have htwo (r : List Char) : stringTail q true (q :: q :: (c :: p ++ r)) =
      (stringTail q true (q :: (c :: p ++ r))).map fun y => (q :: y.1, y.2) := by
    simp [stringTail, isEscape_self, hc]
  intro r
  match k with
  | 0 => exact hp r
  | 1 =>
    change stringTail q true (q :: (c :: p ++ r)) = _
    rw [hone, hp, Option.map_map]
    rfl
  | 2 =>
    change stringTail q true (q :: q :: (c :: p ++ r)) = _
    rw [htwo, hone, hp, Option.map_map, Option.map_map]
    rfl
  | k + 3 => omega

/-- All of a string of several lines is passed over but the quotes at its end. -/
theorem exists_front_of_longBody (hq : q = '\x22' ∨ q = '\x27') (hs : LongBody q n s) :
    ∃ front, s = front ++ List.replicate n q ∧ PassesOver q true front := by
  induction hs with
  | quotes => exact ⟨[], rfl, passesOver_nil⟩
  | @piece k n p r hk hp hr ih =>
    obtain ⟨front, rfl, hfront⟩ := ih
    obtain ⟨c, u, rfl, hc⟩ := head_of_longPiece hq hp
    refine ⟨List.replicate k q ++ c :: u ++ front, by simp, ?_⟩
    exact (passesOver_quotes hk hc (passesOver_longPiece hq hp)).append hfront

theorem exists_stringTail_longBody (hq : q = '\x22' ∨ q = '\x27') (hs : LongBody q n s) :
    ∃ front, s ++ [q, q, q] = front ++ List.replicate n q ∧
      ∀ t, stringTail q true (s ++ q :: q :: q :: t) = some (front, List.replicate n q ++ t) := by
  obtain ⟨front, rfl, hfront⟩ := exists_front_of_longBody hq hs
  have hquotes : List.replicate n q ++ [q, q, q] = [q, q, q] ++ List.replicate n q := by
    rw [show [q, q, q] = List.replicate 3 q from rfl, List.replicate_append_replicate,
      List.replicate_append_replicate, Nat.add_comm]
  refine ⟨front ++ [q, q, q], by simp [hquotes], fun t => ?_⟩
  have htail : List.replicate n q ++ q :: q :: q :: t = q :: q :: q :: (List.replicate n q ++ t) := by
    simpa using congrArg (· ++ t) hquotes
  rw [List.append_assoc, htail, hfront, stringTail_tripled]
  rfl

/-- The scan cuts a string where its closing quotes would stand if it had no quotes of its own right
before them. -/
theorem splitString_literal (hp : StringLiteral q n p) (ht : t.head? ≠ some q) :
    ∃ s front, p = q :: s ∧ p = front ++ List.replicate n q ∧
      splitString q (s ++ t) = some (front, List.replicate n q ++ t) := by
  cases hp with
  | @line s hq hs =>
    refine ⟨s ++ [q], q :: (s ++ [q]), rfl, by simp, ?_⟩
    have hshort : (s ++ [q] ++ t).take 2 ≠ [q, q] := by
      cases hs with
      | nil =>
        intro h
        cases t with
        | nil => cases h
        | cons d r => exact ht (congrArg some (List.cons.inj (List.cons.inj h).2).1)
      | char hc => simp [hc.2.1]
      | escape hquote => simp [hquote]
    rw [splitString, if_neg hshort, List.append_assoc, List.singleton_append, stringTail_lineBody hs]
    rfl
  | @long _ s hq hs =>
    obtain ⟨front, hfront, htail⟩ := exists_stringTail_longBody hq hs
    refine ⟨_, q :: q :: q :: front, rfl, by simp [hfront], ?_⟩
    rw [splitString, if_pos (by simp)]
    simp [htail]

theorem scanArray_quote (hq : q = '\x22' ∨ q = '\x27') : scanArray depth (q :: s) =
    match splitString q s with
    | none => .error .unterminatedString
    | some (p, t) => (scanArray depth t).map (ArrayText.token p) := by
  have hhash : q ≠ '#' := by
    rintro rfl
    exact absurd hq (by decide)
  rw [scanArray.eq_def]
  simp only [if_neg hhash, if_pos hq]
  cases splitString q s <;> rfl

theorem scanArray_string (hq : q = '\x22' ∨ q = '\x27') (h : splitString q s = some (p, t)) :
    scanArray depth (q :: s) = (scanArray depth t).map (ArrayText.token p) := by
  rw [scanArray_quote hq, h]

theorem scanArray_open (hq : q = '\x22' ∨ q = '\x27') (h : splitString q s = none) :
    scanArray depth (q :: s) = .error .unterminatedString := by
  rw [scanArray_quote hq, h]

theorem scanArray_bracket : scanArray 0 (']' :: t) = .ok ⟨[], [], t⟩ := by
  rw [scanArray, if_neg (by decide), if_neg (by decide), if_neg (by decide), if_pos rfl]

theorem map_token (p r : List Char) (x : Except ArrayFault ArrayText) :
    (x.map (ArrayText.token r)).map (ArrayText.token p) = x.map (ArrayText.token (p ++ r)) := by
  cases x with
  | error => rfl
  | ok a => simp [Except.map, ArrayText.token]

/-- Two quotes are an empty string to the scan. -/
theorem scanArray_twoQuotes (hq : q = '\x22' ∨ q = '\x27') (ht : t.head? ≠ some q) :
    scanArray depth (q :: q :: t) = (scanArray depth t).map (ArrayText.token [q, q]) := by
  obtain ⟨s, front, hs, hfront, hsplit⟩ := splitString_literal (.line hq .nil) ht
  obtain rfl : s = [q] := (List.cons.inj hs).2.symm
  obtain rfl : front = [q, q] := by simpa using hfront.symm
  exact scanArray_string hq hsplit

/-- The scan of a string, before a text that does not start with its quote, ends at the end of the
string if and only if the string has no quotes of its own right before the closing ones; otherwise it
ends as many characters before as there are such quotes. Two of them are passed over as an empty string,
so that the scan of an array goes on behind the string with none or two of them; but with one of them it
goes on as if a string began there. -/
theorem scan_literal_iff (hp : StringLiteral q n p) (ht : t.head? ≠ some q) :
    (splitString q (p.drop 1 ++ t) = some (p, t) ↔ n = 0) ∧
    (∃ front, p = front ++ List.replicate n q ∧
      splitString q (p.drop 1 ++ t) = some (front, List.replicate n q ++ t) ∧
      (n = 1 → ∀ depth, scanArray depth (p ++ t) =
        (scanArray depth (q :: t)).map (ArrayText.token front))) ∧
    (n ≠ 1 → ∀ depth, scanArray depth (p ++ t) = (scanArray depth t).map (ArrayText.token p)) := by
  have hq := hp.quote
  have hn := hp.count_le
  obtain ⟨s, front, hs, hfront, hsplit⟩ := splitString_literal hp ht
  have hscan (depth : Nat) : scanArray depth (p ++ t) =
      (scanArray depth (List.replicate n q ++ t)).map (ArrayText.token front) := by
    rw [hs]
    exact scanArray_string hq hsplit
  have hdrop : p.drop 1 = s := by rw [hs, List.drop_one, List.tail_cons]
  rw [hdrop, hsplit]
  refine ⟨?_, ⟨front, hfront, rfl, ?_⟩, ?_⟩
  · constructor
    · intro h
      obtain ⟨rfl, -⟩ := Prod.mk.inj (Option.some.inj h)
      simpa using hfront
    · rintro rfl
      simp [hfront]
  · rintro rfl depth
    exact hscan depth
  · intro hne depth
    rw [hscan]
    match n, hn, hne with
    | 0, _, _ => simp [hfront]
    | 2, _, _ =>
      change (scanArray depth (q :: q :: t)).map _ = _
      rw [scanArray_twoQuotes hq ht, map_token, hfront]
      rfl

/-- A string of several lines that ends in a quote is cut before that quote, and the rest of the array is
taken for a string; backslashes before closing quotes do no harm. -/
theorem scan_literal_iff_quoteAtEnd :
    let quoted := "\x22\x22\x22a\x22\x22\x22\x22".toList
    let slashed := "'''\\'''".toList
    let rest := "]\n".toList
    (StringLiteral '\x22' 1 quoted ∧ outcome (readText (quoted ++ rest)) = some ("a\x22".toList, rest) ∧
      splitString '\x22' (quoted.drop 1 ++ rest) ≠ some (quoted, rest) ∧
      scanArray 0 (quoted ++ rest) = .error .unterminatedString) ∧
    StringLiteral '\x27' 0 slashed ∧ splitString '\x27' (slashed.drop 1 ++ rest) = some (slashed, rest) ∧
      scanArray 0 (slashed ++ rest) = .ok ⟨slashed, [], ['\n']⟩ := by
  intro quoted slashed rest
  have hquoted : StringLiteral '\x22' 1 quoted := by
    have hpiece : LongPiece '\x22' ['a'] := .char ⟨by decide, by decide, by decide⟩
    exact .long (.inl rfl) (.piece (k := 0) (Nat.zero_le 2) hpiece (.quotes (n := 1) (by decide)))
  have hslashed : StringLiteral '\x27' 0 slashed := by
    have hpiece : LongPiece '\x27' ['\\'] := .char ⟨by decide, by decide, by decide⟩
    exact .long (.inr rfl) (.piece (k := 0) (Nat.zero_le 2) hpiece (.quotes (n := 0) (Nat.zero_le 2)))
  obtain ⟨hends, ⟨front, hfront, -, hscan⟩, -⟩ := scan_literal_iff hquoted (t := rest) (by decide)
  obtain ⟨hends', -, hscan'⟩ := scan_literal_iff hslashed (t := rest) (by decide)
  refine ⟨⟨hquoted, by decide +kernel, fun h => absurd (hends.1 h) (by decide), ?_⟩, hslashed,
    hends'.2 rfl, ?_⟩
  · rw [hscan rfl, scanArray_open (.inl rfl) (by decide +kernel)]
    rfl
  · rw [hscan' (by decide)]
    exact congrArg (Except.map _) scanArray_bracket

end WitCaller.Manifest
