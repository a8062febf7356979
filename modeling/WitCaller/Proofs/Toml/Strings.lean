import WitCaller.Proofs.Toml.StringReading

/-!
A reader takes the front of a text and does not look far beyond it: before other texts it would take
the same. Here this is shown of the four forms of a string.
-/

namespace WitCaller.Toml
open Reading
variable {α β : Type} {read : List Char → Option (α × List Char)}
  {read' : List Char → Option (β × List Char)} {front front' ok ok' : List Char → Prop} {a : α} {b : β}
  {c q : Char} {k : Continuation} {s t r p x : List Char}

/-- Texts that end in something else than a line feed. -/
def Ended (p : List Char) : Prop := ∃ c, p.getLast? = some c ∧ c ≠ '\n'

/-- Texts within a line. -/
def Inline (p : List Char) : Prop := p ≠ [] ∧ '\n' ∉ p

/-- The front of a text makes a value, and would make it before any other text with a property. -/
def Takes (front : List Char → Prop) (read : List Char → Option (α × List Char))
    (ok : List Char → Prop) (a : α) (s t : List Char) : Prop :=
  ∃ p, s = p ++ t ∧ front p ∧ ∀ t', ok t' → read (p ++ t') = some (a, t')

theorem Ended.append (h : Ended p) : Ended (s ++ p) := by
  obtain ⟨c, hc, hn⟩ := h
  refine ⟨c, ?_, hn⟩
  rw [List.getLast?_append, hc]
  rfl

theorem Ended.ne_nil (h : Ended p) : p ≠ [] := by
  rintro rfl
  obtain ⟨c, hc, -⟩ := h
  cases hc

theorem ended_concat {c : Char} (hc : c ≠ '\n') : Ended (p ++ [c]) := ⟨c, List.getLast?_concat, hc⟩

theorem Inline.append (hs : '\n' ∉ s) (h : Inline p) : Inline (s ++ p) := by
  refine ⟨List.append_ne_nil_of_right_ne_nil s h.1, fun hm => ?_⟩
  rcases List.mem_append.1 hm with hm | hm
  · exact hs hm
  · exact h.2 hm

theorem Inline.ended (h : Inline p) : Ended p := by
  refine ⟨p.getLast h.1, List.getLast?_eq_some_getLast h.1, fun hc => h.2 ?_⟩
  rw [← hc]
  exact List.getLast_mem h.1

theorem Takes.mono (h : Takes front read ok a s t) (hf : ∀ p, front p → front' p)
    (hok : ∀ t, ok' t → ok t) : Takes front' read ok' a s t := by
  obtain ⟨p, hs, he, hp⟩ := h
  exact ⟨p, hs, hf p he, fun t' ht => hp t' (hok t' ht)⟩

/-- A reader that reads on after some characters. -/
theorem Takes.prepend {u : List Char} {f : α → β} (hread : ∀ t, read' (u ++ t) = onValue f (read t))
    (hf : ∀ p, front p → front' (u ++ p)) (h : read' (u ++ r) = some (b, t))
    (hr : ∀ a, read r = some (a, t) → Takes front read ok a r t) :
    Takes front' read' ok b (u ++ r) t := by
  rw [hread] at h
  obtain ⟨a, ha, rfl⟩ := onValue_eq_some.1 h
  obtain ⟨p, rfl, he, hp⟩ := hr a ha
  refine ⟨u ++ p, by rw [List.append_assoc], hf p he, fun t' ht => ?_⟩
  rw [List.append_assoc, hread, hp t' ht]
  rfl

theorem Verbatim.ne_lineFeed (hc : Verbatim q c) : c ≠ '\n' := by
  rintro rfl
  cases hc.1

/-- What is read of a string within a line is read before any other text. -/
theorem LineRead.exists_front (h : LineRead q s x t) (hq : q ≠ '\n') :
    ∃ p, s = p ++ t ∧ Inline p ∧ ∀ t', LineRead q (p ++ t') x t' := by
  induction h with
  | close => exact ⟨[q], rfl, ⟨List.cons_ne_nil q [], by simpa using hq.symm⟩, fun _ => .close⟩
  | @char c _ _ _ hc _ ih =>
    obtain ⟨p, rfl, hp, hread⟩ := ih
    have hn : '\n' ∉ [c] := by simpa using hc.ne_lineFeed.symm
    exact ⟨c :: p, rfl, hp.append hn, fun t' => .char hc (hread t')⟩
  | @escape e _ _ _ _ hquote he _ ih =>
    obtain ⟨p, rfl, hp, hread⟩ := ih
    have hn : '\n' ∉ '\\' :: e := by simpa using he.not_mem
    refine ⟨'\\' :: e ++ p, by simp, hp.append hn, fun t' => ?_⟩
    rw [List.cons_append, List.cons_append, List.append_assoc]
    exact .escape hquote he (hread t')

theorem basicTail_takes (h : outcome (basicTail s) = some (x, t)) :
    Takes Inline (fun s => outcome (basicTail s)) (fun _ => True) x s t := by
  obtain ⟨p, hs, hp, hread⟩ := (lineRead_basicTail.1 h).exists_front (by decide)
  exact ⟨p, hs, hp, fun t' _ => lineRead_basicTail.2 (hread t')⟩

theorem literalTail_takes (h : outcome (literalTail s) = some (x, t)) :
    Takes Inline (fun s => outcome (literalTail s)) (fun _ => True) x s t := by
  obtain ⟨p, hs, hp, hread⟩ := (lineRead_literalTail.1 h).exists_front (by decide)
  exact ⟨p, hs, hp, fun t' _ => lineRead_literalTail.2 (hread t')⟩

/-- Texts that can hold tripled quotes at their end. -/
def Tripled (p : List Char) : Prop := Ended p ∧ 3 ≤ p.length

/-- A reader takes the front of a text with at least three characters, and would take it before any
text that does not go on with a quote. -/
def TakesLong (read : List Char → Option (α × List Char)) (q : Char) (a : α) (s t : List Char) : Prop :=
  Takes Tripled read (fun t => t.head? ≠ some q) a s t

theorem Tripled.append (h : Tripled p) : Tripled (s ++ p) := by
  refine ⟨h.1.append, ?_⟩
  rw [List.length_append]
  exact Nat.le_add_left_of_le h.2

theorem tripled_replicate {n : Nat} (hq : q ≠ '\n') : Tripled (q :: q :: q :: List.replicate n q) := by
  have hlast : List.replicate (n + 3) q = List.replicate (n + 2) q ++ [q] := List.replicate_succ'
  refine ⟨?_, by simp⟩
  change Ended (List.replicate (n + 3) q)
  rw [hlast]
  exact ended_concat hq

/-- Three characters that are at hand decide whether quotes close a string. -/
theorem Tripled.not_prefix {t' : List Char} (hp : Tripled p) (hn : ¬ [q, q, q] <+: c :: (p ++ t)) :
    ¬ [q, q, q] <+: c :: (p ++ t') := by
  intro hq
  rw [← List.cons_append] at hq hn
  have hlength : [q, q, q].length ≤ (c :: p).length := Nat.le_succ_of_le hp.2
  have hfit : [q, q, q] <+: c :: p := List.prefix_of_prefix_length_le hq (List.prefix_append _ _) hlength
  exact hn (hfit.trans (List.prefix_append _ _))

/-- What is read of a string of several lines is read before any text that does not begin with its
quote. -/
theorem LongRead.exists_front (h : LongRead q k s x t) (hq : q ≠ '\n') :
    ∃ p, s = p ++ t ∧ Tripled p ∧ ∀ t', t'.head? ≠ some q → LongRead q k (p ++ t') x t' := by
  induction h with
  | @close k n t hk hn _ =>
    exact ⟨q :: q :: q :: List.replicate n q, rfl, tripled_replicate hq, fun _ ht => .close hk hn fun _ => ht⟩
  | @char k c _ _ _ hk hn hb hc _ ih =>
    obtain ⟨p, rfl, hp, hread⟩ := ih
    exact ⟨c :: p, rfl, hp.append (s := [c]), fun t' ht =>
      .char hk (hp.not_prefix hn) hb hc (hread t' ht)⟩
  | @skip k k' c _ _ _ hquote hk _ ih =>
    obtain ⟨p, rfl, hp, hread⟩ := ih
    exact ⟨c :: p, rfl, hp.append (s := [c]), fun t' ht => .skip hquote hk (hread t' ht)⟩
  | @escape k e _ _ _ _ hquote hk he _ ih =>
    obtain ⟨p, rfl, hp, hread⟩ := ih
    refine ⟨'\\' :: (e ++ p), by simp, hp.append (s := '\\' :: e), fun t' ht => ?_⟩
    rw [List.cons_append, List.append_assoc]
    exact .escape hquote hk he (hread t' ht)
  | @join k c _ _ _ hquote hk hc _ ih =>
    obtain ⟨p, rfl, hp, hread⟩ := ih
    exact ⟨'\\' :: c :: p, rfl, hp.append (s := ['\\', c]), fun t' ht =>
      .join hquote hk hc (hread t' ht)⟩

theorem longLiteralTail_takes (h : outcome (longLiteralTail s) = some (x, t)) :
    TakesLong (fun s => outcome (longLiteralTail s)) '\x27' x s t := by
  obtain ⟨p, hs, hp, hread⟩ := (longRead_longLiteralTail.1 h).exists_front (by decide)
  exact ⟨p, hs, hp, fun t' ht => longRead_longLiteralTail.2 (hread t' ht)⟩

theorem longBasicTail_takes (h : outcome (longBasicTail k s) = some (x, t)) :
    TakesLong (fun s => outcome (longBasicTail k s)) '\x22' x s t := by
  obtain ⟨p, hs, hp, hread⟩ := (longRead_longBasicTail.1 h).exists_front (by decide)
  exact ⟨p, hs, hp, fun t' ht => longRead_longBasicTail.2 (hread t' ht)⟩

/-- Texts that do not go on with a quote. -/
def Unquoted (t : List Char) : Prop := t.head? ≠ some '\x22' ∧ t.head? ≠ some '\x27'

theorem outcome_readText_long (hr : r.head? ≠ some '\n') :
    outcome (readText ('\x22' :: '\x22' :: '\x22' :: r)) = outcome (longBasicTail .none r) := by
  refine Eq.trans ?_ onValue_id
  rw [readText.eq_2]
  · exact outcome_bind fun x => ⟨rfl, rfl⟩
  · rintro r' rfl
    exact hr rfl

theorem outcome_readText_long_line :
    outcome (readText ('\x22' :: '\x22' :: '\x22' :: '\n' :: r)) =
      outcome (longBasicTail .none r) := by
  refine Eq.trans ?_ onValue_id
  rw [readText.eq_1]
  exact outcome_bind fun x => ⟨rfl, rfl⟩

theorem outcome_readText_basic (hr : ¬ ['\x22', '\x22'] <+: r) :
    outcome (readText ('\x22' :: r)) = outcome (basicTail r) := by
  refine Eq.trans ?_ onValue_id
  rw [readText.eq_3]
  · exact outcome_bind fun x => ⟨rfl, rfl⟩
  · rintro r' rfl
    exact hr ⟨_, rfl⟩
  · rintro r' rfl
    exact hr ⟨_, rfl⟩

theorem outcome_readText_long_literal (hr : r.head? ≠ some '\n') :
    outcome (readText ('\x27' :: '\x27' :: '\x27' :: r)) = outcome (longLiteralTail r) := by
  refine Eq.trans ?_ onValue_id
  rw [readText.eq_5]
  · exact outcome_bind fun x => ⟨rfl, rfl⟩
  · rintro r' rfl
    exact hr rfl

theorem outcome_readText_long_literal_line :
    outcome (readText ('\x27' :: '\x27' :: '\x27' :: '\n' :: r)) = outcome (longLiteralTail r) := by
  refine Eq.trans ?_ onValue_id
  rw [readText.eq_4]
  exact outcome_bind fun x => ⟨rfl, rfl⟩

theorem outcome_readText_literal (hr : ¬ ['\x27', '\x27'] <+: r) :
    outcome (readText ('\x27' :: r)) = outcome (literalTail r) := by
  refine Eq.trans ?_ onValue_id
  rw [readText.eq_6]
  · exact outcome_bind fun x => ⟨rfl, rfl⟩
  · rintro r' rfl
    exact hr ⟨_, rfl⟩
  · rintro r' rfl
    exact hr ⟨_, rfl⟩

theorem Takes.long {read tail : List Char → Option (List Char × List Char)}
    (hline : ∀ r, read (q :: q :: q :: '\n' :: r) = tail r)
    (hlong : ∀ r, r.head? ≠ some '\n' → read (q :: q :: q :: r) = tail r)
    (htail : ∀ {r x t}, tail r = some (x, t) → TakesLong tail q x r t)
    (h : read (q :: q :: q :: r) = some (x, t)) :
    Takes Ended read (fun t => t.head? ≠ some q) x (q :: q :: q :: r) t := by
  by_cases hr : r.head? = some '\n'
  · obtain ⟨r, rfl⟩ := List.head?_eq_some_iff.1 hr
    rw [hline] at h
    obtain ⟨p, rfl, ⟨he, -⟩, hp⟩ := htail h
    exact ⟨[q, q, q, '\n'] ++ p, rfl, he.append, fun t' ht => (hline _).trans (hp t' ht)⟩
  · rw [hlong r hr] at h
    obtain ⟨p, rfl, ⟨he, -⟩, hp⟩ := htail h
    obtain ⟨c, p, rfl⟩ := List.exists_cons_of_ne_nil he.ne_nil
    refine ⟨[q, q, q] ++ c :: p, rfl, he.append, fun t' ht => (hlong _ ?_).trans (hp t' ht)⟩
    exact hr

theorem Takes.short {read tail : List Char → Option (List Char × List Char)}
    (hshort : ∀ r, ¬ [q, q] <+: r → read (q :: r) = tail r)
    (htail : ∀ {r x t}, tail r = some (x, t) → Takes Inline tail (fun _ => True) x r t)
    (hr : ¬ [q, q] <+: r) (h : read (q :: r) = some (x, t)) :
    Takes Ended read (fun t => t.head? ≠ some q) x (q :: r) t := by
  rw [hshort r hr] at h
  obtain ⟨p, rfl, he, hp⟩ := htail h
  refine ⟨q :: p, rfl, he.ended.append (s := [q]), fun t' ht => (hshort _ ?_).trans (hp t' trivial)⟩
  -- With one character taken the first quote is followed by the closing one only.
  rcases p with _ | ⟨c, _ | ⟨d, p⟩⟩
  · exact absurd rfl he.1
  · rintro ⟨y, hy⟩
    have hy' : q :: y = t' := (List.cons.inj hy).2
    exact ht (by rw [← hy']; rfl)
  · rintro ⟨y, hy⟩
    have hc : q = c := (List.cons.inj hy).1
    have hd : q = d := (List.cons.inj (List.cons.inj hy).2).1
    exact hr ⟨p ++ t, by rw [← hc, ← hd]; rfl⟩

theorem outcome_readText_none (hd : c ≠ '\x22') (hs : c ≠ '\x27') :
    outcome (readText (c :: r)) = none := by
  rw [readText_unquoted hd hs]
  rfl

theorem readText_takes (h : outcome (readText s) = some (x, t)) :
    Takes Ended (fun s => outcome (readText s)) Unquoted x s t := by
  rcases s with _ | ⟨c, r⟩
  · cases h
  · by_cases hd : c = '\x22'
    · subst hd
      refine Takes.mono ?_ (fun _ => id) fun _ => And.left
      by_cases hr : ['\x22', '\x22'] <+: r
      · obtain ⟨r, rfl⟩ := hr
        exact .long (fun _ => outcome_readText_long_line) (fun _ => outcome_readText_long)
          longBasicTail_takes h
      · exact .short (fun _ => outcome_readText_basic) basicTail_takes hr h
    · by_cases hs : c = '\x27'
      · subst hs
        refine Takes.mono ?_ (fun _ => id) fun _ => And.right
        by_cases hr : ['\x27', '\x27'] <+: r
        · obtain ⟨r, rfl⟩ := hr
          exact .long (fun _ => outcome_readText_long_literal_line)
            (fun _ => outcome_readText_long_literal) longLiteralTail_takes h
        · exact .short (fun _ => outcome_readText_literal) literalTail_takes hr h
      · rw [outcome_readText_none hd hs] at h
        cases h

theorem outcome_readShortText_basic :
    outcome (readShortText ('\x22' :: r)) = outcome (basicTail r) := by
  refine Eq.trans ?_ onValue_id
  exact outcome_bind fun x => ⟨rfl, rfl⟩

theorem outcome_readShortText_literal :
    outcome (readShortText ('\x27' :: r)) = outcome (literalTail r) := by
  refine Eq.trans ?_ onValue_id
  exact outcome_bind fun x => ⟨rfl, rfl⟩

theorem readShortText_takes (h : outcome (readShortText s) = some (x, t)) :
    Takes Inline (fun s => outcome (readShortText s)) (fun _ => True) x s t := by
  unfold readShortText at h
  split at h
  · next r =>
    exact .prepend (u := ['\x22']) (f := id)
      (fun _ => outcome_readShortText_basic.trans onValue_id.symm) (fun _ => .append (by decide)) h
      fun _ => basicTail_takes
  · next r =>
    exact .prepend (u := ['\x27']) (f := id)
      (fun _ => outcome_readShortText_literal.trans onValue_id.symm) (fun _ => .append (by decide)) h
      fun _ => literalTail_takes
  · cases h

end WitCaller.Toml
