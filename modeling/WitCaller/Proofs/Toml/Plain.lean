import WitCaller.Proofs.Toml.Statements

/-!
Text that needs no escapes: keys of bare characters and short strings, and the lines they make.
-/

namespace WitCaller.Toml
open Reading
variable {c : Char} {k p s t r : List Char} {st : Statement}

/-- Text that can stand between quotes as it is. -/
def Plain (p : List Char) : Prop := ∀ c ∈ p, c ≠ '\x22' ∧ c ≠ '\\' ∧ isControl c = false

instance (p : List Char) : Decidable (Plain p) :=
  decidable_of_iff (p.all fun c => c != '\x22' && c != '\\' && !isControl c) (by simp [Plain, and_assoc])

theorem outcome_basicTail_plain (hp : Plain p) : outcome (basicTail (p ++ '\x22' :: t)) = some (p, t) := by
  induction p with
  | nil => exact outcome_basicTail_quote
  | cons c p ih =>
    obtain ⟨hq, hb, hc⟩ := hp c List.mem_cons_self
    rw [List.cons_append, outcome_basicTail_other hq hb (by rw [hc]; decide),
      ih fun d hd => hp d (List.mem_cons_of_mem c hd)]
    rfl

theorem outcome_readText_plain (hp : Plain p) (ht : t.head? ≠ some '\x22') :
    outcome (readText ('\x22' :: (p ++ '\x22' :: t))) = some (p, t) := by
  rw [outcome_readText_basic, outcome_basicTail_plain hp]
  rintro ⟨r, hr⟩
  cases p with
  | nil =>
    have he : '\x22' :: r = t := (List.cons.inj hr).2
    exact ht (by rw [← he]; rfl)
  | cons c p => exact (hp c List.mem_cons_self).1 (List.cons.inj hr).1.symm

theorem outcome_readValue_plain (hp : Plain p) (ht : t.head? ≠ some '\x22') :
    outcome (readValue ('\x22' :: (p ++ '\x22' :: t))) = some (.text (String.ofList p), t) := by
  rw [outcome_readValue_text (.inl rfl), outcome_readText_plain hp ht]
  rfl

theorem rawPart?_bare (hk : ∀ c ∈ k, isBare c) (hne : k ≠ []) (ht : ∀ c r, t = c :: r → isBare c = false) :
    rawPart? (k ++ t) = some (String.ofList k, t) := by
  obtain ⟨c, k, rfl⟩ := List.exists_cons_of_ne_nil hne
  have hc := hk c List.mem_cons_self
  have hk' : ∀ d ∈ k, isBare d := fun d hd => hk d (List.mem_cons_of_mem c hd)
  have hstop : t.takeWhile isBare = [] ∧ t.dropWhile isBare = t := by
    cases t with
    | nil => exact ⟨rfl, rfl⟩
    | cons d r => simp [ht d r rfl]
  rw [List.cons_append, rawPart?, if_pos hc, List.takeWhile_append_of_pos hk',
    List.dropWhile_append_of_pos hk', hstop.1, hstop.2, List.append_nil]

theorem outcome_readKeyPart_bare (hk : ∀ c ∈ k, isBare c) (hne : k ≠ [])
    (ht : ∀ c r, t = c :: r → isBare c = false) :
    outcome (readKeyPart (k ++ t)) = some (String.ofList k, skipSpace t) := by
  rw [outcome_readKeyPart, rawPart?_bare hk hne ht]
  rfl

/-- A key of bare characters and the blanks after it, before something else than a point. -/
theorem outcome_readKey_bare (hk : ∀ c ∈ k, isBare c) (hne : k ≠ [])
    (ht : ∀ c r, t = c :: r → isBare c = false) (hp : ∀ r, skipSpace t ≠ '.' :: r) :
    outcome (readKey (k ++ t)) = some ([String.ofList k], skipSpace t) := by
  rw [outcome_readKey, outcome_readKeyPart_bare hk hne ht, Option.bind_some]
  split
  · next r he => exact absurd he (hp r)
  · rfl

/-- A line with one statement. -/
theorem readStatements_line (hc : ¬ (isSpace c ∨ c = '\n')) (hh : c ≠ '#')
    (h : outcome (readStatement (c :: s)) = some (st, '\n' :: r)) :
    readStatements (c :: s) = (readStatements r).map (st :: ·) := by
  have hline : skipLineTail false ('\n' :: r) = some ('\n' :: r) := by
    rw [skipLineTail, if_pos rfl]
  rw [readStatements_eq, skipGaps_stop hc hh, Option.bind_some, if_neg (by simp), h, Option.bind_some,
    hline, Option.bind_some, readStatements_lineFeed]

theorem not_gap_of_isBare (hc : isBare c) : ¬ (isSpace c ∨ c = '\n') ∧ c ≠ '#' ∧ c ≠ '[' := by
  refine ⟨?_, ?_, ?_⟩
  · rintro (hs | rfl)
    · rw [isSpace, Bool.or_eq_true, beq_iff_eq, beq_iff_eq] at hs
      rcases hs with rfl | rfl <;> cases hc
    · cases hc
  · rintro rfl
    cases hc
  · rintro rfl
    cases hc

/-- A pair with a bare key, written `key = value`, on a line of its own. -/
theorem readStatements_pair {v : Value} (hk : ∀ c ∈ k, isBare c) (hne : k ≠ [])
    (hv : outcome (readValue s) = some (v, '\n' :: r)) (hs : skipSpace s = s) :
    readStatements (k ++ ' ' :: '=' :: ' ' :: s) =
      (readStatements r).map (.pair ⟨[String.ofList k], v⟩ :: ·) := by
  have hkey : outcome (readKey (k ++ ' ' :: '=' :: ' ' :: s)) =
      some ([String.ofList k], '=' :: ' ' :: s) :=
    outcome_readKey_bare (t := ' ' :: '=' :: ' ' :: s) hk hne (by rintro c r ⟨⟩; decide)
      (by rintro r ⟨⟩)
  have hvalue : outcome (readValue (skipSpace (' ' :: s))) = some (v, '\n' :: r) := by
    have he : skipSpace (' ' :: s) = s := hs
    rw [he, hv]
  have hpair : outcome (readPair (k ++ ' ' :: '=' :: ' ' :: s)) =
      some (⟨[String.ofList k], v⟩, '\n' :: r) := by
    rw [outcome_readPair, hkey]
    simp only [Option.bind_some]
    rw [hvalue]
    rfl
  obtain ⟨c, k, rfl⟩ := List.exists_cons_of_ne_nil hne
  obtain ⟨hgap, hhash, hbracket⟩ := not_gap_of_isBare (hk c List.mem_cons_self)
  refine readStatements_line hgap hhash ?_
  rw [outcome_readStatement_pair (by simpa using hbracket)]
  exact onValue_eq_some.2 ⟨_, hpair, rfl⟩

end WitCaller.Toml
