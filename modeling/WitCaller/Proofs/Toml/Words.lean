import WitCaller.Proofs.Toml.Strings

/-!
Gaps, values without quotes or brackets, and keys: how much of a text they take.
-/

namespace WitCaller.Toml
open Reading
variable {α : Type} {a : α} {b : Bool} {c d : Char} {s t r p g u : List Char} {v : Value}

theorem skipGaps_comment_end : skipGaps true ('\n' :: r) = skipGaps false r := by
  rw [skipGaps, if_pos rfl, if_pos rfl]

theorem skipGaps_comment (hc : ¬ isControl c) : skipGaps true (c :: r) = skipGaps true r := by
  have hn : c ≠ '\n' := by
    rintro rfl
    exact hc rfl
  rw [skipGaps, if_pos rfl, if_neg hn, if_neg hc]

theorem skipGaps_blank (hc : isSpace c ∨ c = '\n') : skipGaps false (c :: r) = skipGaps false r := by
  rw [skipGaps, if_neg (by decide), if_pos hc]

theorem skipGaps_hash : skipGaps false ('#' :: r) = skipGaps true r := by
  rw [skipGaps, if_neg (by decide), if_neg (by decide), if_pos rfl]

theorem skipGaps_stop (hc : ¬ (isSpace c ∨ c = '\n')) (hh : c ≠ '#') :
    skipGaps false (c :: r) = some (c :: r) := by
  rw [skipGaps, if_neg (by decide), if_neg hc, if_neg hh]

/-- A text that is skipped wherever it stands; `b` says whether a comment has begun before it. -/
def Filler (b : Bool) (g : List Char) : Prop := ∀ s, skipGaps b (g ++ s) = skipGaps false s

/-- What skipping makes of the front of a text: it skips all of it, stops in it, or fails in it. -/
theorem skipGaps_append (b : Bool) (u : List Char) :
    (∃ b', ∀ s, skipGaps b (u ++ s) = skipGaps b' s) ∨
    (∃ g c r, u = g ++ c :: r ∧ Filler b g ∧ ∀ s, skipGaps b (u ++ s) = some (c :: (r ++ s))) ∨
    ∀ s, skipGaps b (u ++ s) = none := by
  induction u generalizing b with
  | nil => exact .inl ⟨b, fun _ => rfl⟩
  | cons c u ih =>
    -- After a character that is skipped, the rest decides.
    have hskip {b' : Bool} (h : ∀ s, skipGaps b (c :: s) = skipGaps b' s) :
        (∃ b', ∀ s, skipGaps b (c :: u ++ s) = skipGaps b' s) ∨
        (∃ g d r, c :: u = g ++ d :: r ∧ Filler b g ∧
          ∀ s, skipGaps b (c :: u ++ s) = some (d :: (r ++ s))) ∨
        ∀ s, skipGaps b (c :: u ++ s) = none := by
      rcases ih b' with ⟨b'', hb⟩ | ⟨g, d, r, rfl, hg, hs⟩ | hn
      · exact .inl ⟨b'', fun s => (h _).trans (hb s)⟩
      · exact .inr (.inl ⟨c :: g, d, r, rfl, fun s => (h _).trans (hg s), fun s => (h _).trans (hs s)⟩)
      · exact .inr (.inr fun s => (h _).trans (hn s))
    cases b with
    | true =>
      by_cases hn : c = '\n'
      · subst hn
        exact hskip fun _ => skipGaps_comment_end
      · by_cases hc : isControl c
        · refine .inr (.inr fun s => ?_)
          rw [List.cons_append, skipGaps, if_pos rfl, if_neg hn, if_pos hc]
        · exact hskip fun _ => skipGaps_comment hc
    | false =>
      by_cases hb : isSpace c ∨ c = '\n'
      · exact hskip fun _ => skipGaps_blank hb
      · by_cases hh : c = '#'
        · subst hh
          exact hskip fun _ => skipGaps_hash
        · exact .inr (.inl ⟨[], c, u, rfl, fun _ => rfl, fun _ => skipGaps_stop hb hh⟩)

theorem skipGaps_split (h : skipGaps b s = some (c :: r)) : ∃ g, s = g ++ c :: r ∧ Filler b g := by
  rcases skipGaps_append b s with ⟨b', hb⟩ | ⟨g, d, u, rfl, hg, hs⟩ | hn
  · have hnil := hb []
    rw [List.append_nil, h] at hnil
    cases hnil
  · have hnil := hs []
    rw [List.append_nil, List.append_nil, h] at hnil
    cases hnil
    exact ⟨g, rfl, hg⟩
  · have hnil := hn []
    rw [List.append_nil, h] at hnil
    cases hnil

/-- A value without quotes or brackets, and a string, would not go on with this text. -/
def Stop (t : List Char) : Prop := ∀ c r, t = c :: r → goesOn c r = false ∧ c ≠ '\x22' ∧ c ≠ '\x27'

/-- Characters at which keys and values end. -/
def Hard (c : Char) : Prop := isScalar c = false ∧ isSpace c = false ∧ c ≠ '\x22' ∧ c ≠ '\x27'

theorem goesOn_eq_false (hc : isScalar c = false) (hs : c = ' ' → r.head?.any Char.isDigit = false) :
    goesOn c r = false := by
  unfold goesOn
  rw [hc, Bool.false_or]
  by_cases h : c = ' '
  · rw [hs h, Bool.and_false]
  · rw [beq_false_of_ne h, Bool.false_and]

theorem isScalar_of_isDigit (hc : c.isDigit) : isScalar c := by
  simp [isScalar, Char.isAlphanum, hc]

theorem Hard.not_digit (hc : Hard c) : c.isDigit = false := by
  rw [← Bool.not_eq_true]
  intro hd
  have hs := hc.1
  rw [isScalar_of_isDigit hd] at hs
  cases hs

theorem Hard.ne_space (hc : Hard c) : c ≠ ' ' := by
  rintro rfl
  exact absurd hc.2.1 (by decide)

theorem Hard.stop (hc : Hard c) : Stop (c :: r) := by
  rintro d r' ⟨⟩
  exact ⟨goesOn_eq_false hc.1 fun h => absurd h hc.ne_space, hc.2.2⟩

theorem unquoted_of_stop (ht : Stop t) : Unquoted t := by
  cases t with
  | nil => exact ⟨by simp, by simp⟩
  | cons c r =>
    obtain ⟨-, hd, hs⟩ := ht c r rfl
    exact ⟨fun h => hd (Option.some.inj h), fun h => hs (Option.some.inj h)⟩

/-- A gap begins with a blank, a line feed or a comment. -/
theorem Filler.head (hg : Filler false (c :: g)) : isSpace c ∨ c = '\n' ∨ c = '#' := by
  by_cases hb : isSpace c ∨ c = '\n'
  · exact hb.imp_right .inl
  · by_cases hh : c = '#'
    · exact .inr (.inr hh)
    · have h := hg []
      rw [List.cons_append, skipGaps_stop hb hh] at h
      cases h

theorem not_scalar_of_gap (hc : isSpace c ∨ c = '\n' ∨ c = '#') :
    isScalar c = false ∧ c.isDigit = false ∧ c ≠ '\x22' ∧ c ≠ '\x27' := by
  rw [isSpace, Bool.or_eq_true, beq_iff_eq, beq_iff_eq] at hc
  rcases hc with (rfl | rfl) | rfl | rfl <;> decide

theorem Filler.stop (hg : Filler false g) (hc : Hard c) : Stop (g ++ c :: r) := by
  cases g with
  | nil => exact hc.stop
  | cons d g =>
    rintro _ _ ⟨⟩
    obtain ⟨hd, -, hq⟩ := not_scalar_of_gap hg.head
    refine ⟨goesOn_eq_false hd ?_, hq⟩
    rintro rfl
    have hg' : Filler false g := fun s => (skipGaps_blank (.inl rfl)).symm.trans (hg s)
    cases g with
    | nil => simpa using hc.not_digit
    | cons e g => simpa using (not_scalar_of_gap hg'.head).2.1

theorem skipSpace_append (hs : ∀ c ∈ s, isSpace c) : skipSpace (s ++ t) = skipSpace t :=
  List.dropWhile_append_of_pos hs

theorem skipSpace_split (s : List Char) : ∃ w, (∀ c ∈ w, isSpace c) ∧ s = w ++ skipSpace s := by
  refine ⟨s.takeWhile isSpace, fun c hc => ?_, List.takeWhile_append_dropWhile.symm⟩
  exact List.all_eq_true.1 List.all_takeWhile c hc

theorem skipSpace_skipSpace : skipSpace (skipSpace s) = skipSpace s := by
  obtain ⟨w, hw, hs⟩ := skipSpace_split s
  conv => rhs; rw [hs, skipSpace_append hw]

theorem skipSpace_cons (hc : isSpace c = false) : skipSpace (c :: r) = c :: r :=
  List.dropWhile_cons_of_neg (by simp [hc])

theorem head_of_skipSpace (h : skipSpace s = c :: r) : isSpace c = false := by
  cases hc : isSpace c with
  | false => rfl
  | true =>
    have hs := skipSpace_skipSpace (s := s)
    have hl := length_skipSpace_le r
    rw [h, skipSpace, List.dropWhile_cons_of_pos hc] at hs
    rw [skipSpace, hs, List.length_cons] at hl
    omega

theorem not_lineFeed_of_isSpace (hs : ∀ c ∈ s, isSpace c) : '\n' ∉ s := fun hm => by
  cases hs '\n' hm

/-- A reader and then the blanks. -/
theorem Takes.skipSpace {front ok ok' : List Char → Prop} {read : List Char → Option (α × List Char)}
    (h : Takes front read ok a s t) (hf : ∀ p w, front p → (∀ c ∈ w, isSpace c) → front (p ++ w))
    (hs : ∀ t', ok' t' → skipSpace t' = t')
    (hok : ∀ t' w, ok' t' → (∀ c ∈ w, isSpace c) → ok (w ++ t')) :
    Takes front (fun s => (read s).map fun x => (x.1, skipSpace x.2)) ok' a s (skipSpace t) := by
  obtain ⟨p, rfl, hp, hr⟩ := h
  obtain ⟨w, hw, ht⟩ := skipSpace_split t
  refine ⟨p ++ w, by rw [List.append_assoc, ← ht], hf p w hp hw, fun t' h' => ?_⟩
  simp only [List.append_assoc, hr _ (hok t' w h' hw), Option.map_some, skipSpace_append hw, hs t' h']

theorem scalarRun_split : ∀ s : List Char, ∃ p, s = p ++ (scalarRun s).2 ∧ (scalarRun s).1 = p ∧
    '\n' ∉ p ∧ ∀ t, Stop t → scalarRun (p ++ t) = (p, t) := by
  intro s
  induction s with
  | nil =>
    refine ⟨[], rfl, rfl, List.not_mem_nil, fun t ht => ?_⟩
    cases t with
    | nil => rfl
    | cons c r => simp [scalarRun, (ht c r rfl).1]
  | cons c r ih =>
    obtain ⟨p, hr, hp, hn, ht⟩ := ih
    by_cases hc : goesOn c r
    · refine ⟨c :: p, by simpa [scalarRun, hc] using hr, by simp [scalarRun, hc, hp], ?_, fun t h => ?_⟩
      · rw [List.mem_cons, not_or]
        refine ⟨?_, hn⟩
        rintro rfl
        exact absurd hc (by simp [goesOn, isScalar])
      · have hc' : goesOn c (p ++ t) := by
          unfold goesOn at hc ⊢
          rw [Bool.or_eq_true, Bool.and_eq_true] at hc ⊢
          refine hc.imp_right fun hs => ⟨hs.1, ?_⟩
          -- The digit after the blank belongs to the run.
          cases r with
          | nil => exact absurd hs.2 (by simp)
          | cons d r =>
            have hd : d.isDigit := by simpa using hs.2
            have hp' : p = d :: (scalarRun r).1 := by
              rw [← hp]
              simp [scalarRun, goesOn, isScalar_of_isDigit hd]
            rw [hp']
            simpa using hd
        simp [scalarRun, hc', ht t h]
    · refine ⟨[], by simp [scalarRun, hc], by simp [scalarRun, hc], List.not_mem_nil, fun t h => ?_⟩
      cases t with
      | nil => rfl
      | cons d r => simp [scalarRun, (h d r rfl).1]

/-- The value that the whole of a text makes. -/
def bareValue? (p : List Char) : Option Value :=
  (readBare p).bind fun x => if x.rest = [] then some x.value else none

theorem outcome_readScalar : outcome (readScalar s) =
    if (scalarRun s).1 = [] then none
    else (bareValue? (scalarRun s).1).map (·, (scalarRun s).2) := by
  cases s with
  | nil => rfl
  | cons c r =>
    by_cases hc : goesOn c r
    · have hrun : scalarRun (c :: r) = (c :: (scalarRun r).1, (scalarRun r).2) := by
        simp only [scalarRun, hc, if_true]
      rw [hrun]
      simp only [readScalar, bareValue?, hc, if_true, reduceCtorEq, if_false]
      cases readBare (c :: (scalarRun r).1) with
      | none => rfl
      | some x =>
        simp only [bind, Option.bind_some]
        split <;> rfl
    · simp [readScalar, scalarRun, hc]

theorem readScalar_takes (h : outcome (readScalar s) = some (v, t)) :
    Takes Inline (fun s => outcome (readScalar s)) Stop v s t := by
  obtain ⟨p, hs, hp, hn, ht⟩ := scalarRun_split s
  rw [outcome_readScalar, hp] at h
  by_cases hnil : p = []
  · rw [if_pos hnil] at h
    cases h
  · rw [if_neg hnil] at h
    obtain ⟨v', hv, he⟩ := Option.map_eq_some_iff.1 h
    obtain ⟨rfl, rfl⟩ := Prod.mk.inj he
    refine ⟨p, hs, ⟨hnil, hn⟩, fun t' h' => ?_⟩
    simp only [outcome_readScalar, ht t' h', if_neg hnil, hv, Option.map_some]

/-- A part of a key without the blanks after it. -/
def rawPart? : List Char → Option (String × List Char)
  | [] => none
  | c :: r =>
    if isBare c then some (String.ofList (c :: r.takeWhile isBare), r.dropWhile isBare)
    else onValue String.ofList (outcome (readShortText (c :: r)))

theorem outcome_readKeyPart :
    outcome (readKeyPart s) = (rawPart? s).map fun x => (x.1, skipSpace x.2) := by
  unfold readKeyPart rawPart?
  cases s with
  | nil => rfl
  | cons c r =>
    simp only
    split
    · rfl
    · cases readShortText (c :: r) <;> rfl

/-- A key would not go on with this text. -/
def KeyStop (t : List Char) : Prop := ∀ c r, t = c :: r → isBare c = false ∧ isSpace c = false

theorem not_lineFeed_of_isBare (hs : ∀ c ∈ s, isBare c) : '\n' ∉ s := fun hm => by
  cases hs '\n' hm

theorem KeyStop.skipSpace (ht : KeyStop t) : skipSpace t = t := by
  cases t with
  | nil => rfl
  | cons c r => exact skipSpace_cons (ht c r rfl).2

theorem rawPart?_takes {k : String} (h : rawPart? s = some (k, t)) :
    Takes Inline rawPart? (fun t => ∀ c r, t = c :: r → isBare c = false) k s t := by
  cases s with
  | nil => cases h
  | cons c r =>
    by_cases hc : isBare c
    · have hr : ∀ d ∈ r.takeWhile isBare, isBare d := fun d hd =>
        List.all_eq_true.1 List.all_takeWhile d hd
      simp only [rawPart?, if_pos hc, Option.some.injEq, Prod.mk.injEq] at h
      obtain ⟨rfl, rfl⟩ := h
      refine ⟨c :: r.takeWhile isBare, by simp [List.takeWhile_append_dropWhile], ⟨by simp, ?_⟩, ?_⟩
      · apply not_lineFeed_of_isBare
        simpa [hc] using hr
      · intro t' h'
        have ht : t'.takeWhile isBare = [] ∧ t'.dropWhile isBare = t' := by
          cases t' with
          | nil => exact ⟨rfl, rfl⟩
          | cons d r' => simp [h' d r' rfl]
        simp only [List.cons_append, rawPart?, if_pos hc, List.takeWhile_append_of_pos hr,
          List.dropWhile_append_of_pos hr, ht.1, ht.2, List.append_nil]
    · simp only [rawPart?, if_neg hc] at h
      obtain ⟨x, hx, rfl⟩ := onValue_eq_some.1 h
      obtain ⟨p, hs, hp, ht⟩ := readShortText_takes hx
      refine ⟨p, hs, hp, fun t' _ => ?_⟩
      obtain ⟨d, p, rfl⟩ := List.exists_cons_of_ne_nil hp.1
      cases (List.cons.inj hs).1
      simp only [List.cons_append, rawPart?, if_neg hc]
      exact onValue_eq_some.2 ⟨x, ht t' trivial, rfl⟩

theorem readKeyPart_takes {k : String} (h : outcome (readKeyPart s) = some (k, t)) :
    Takes Inline (fun s => outcome (readKeyPart s)) KeyStop k s t := by
  rw [outcome_readKeyPart] at h
  obtain ⟨⟨k', t'⟩, hraw, he⟩ := Option.map_eq_some_iff.1 h
  obtain ⟨rfl, rfl⟩ := Prod.mk.inj he
  simp only [outcome_readKeyPart]
  refine (rawPart?_takes hraw).skipSpace (fun p w hp hw => ?_) (fun _ => KeyStop.skipSpace) ?_
  · refine ⟨List.append_ne_nil_of_left_ne_nil hp.1 w, fun hm => ?_⟩
    exact (List.mem_append.1 hm).elim hp.2 (not_lineFeed_of_isSpace hw)
  · intro t w ht hw c r he
    cases w with
    | nil => exact (ht c r he).1
    | cons d w =>
      obtain rfl := (List.cons.inj he).1
      have hd := hw d List.mem_cons_self
      rw [isSpace, Bool.or_eq_true, beq_iff_eq, beq_iff_eq] at hd
      rcases hd with rfl | rfl <;> decide

end WitCaller.Toml
