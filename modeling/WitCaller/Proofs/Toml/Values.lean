import WitCaller.Proofs.Toml.Words

/-!
Keys, values and pairs take the front of a text: what follows matters only as far as it might have
made them longer.
-/

namespace WitCaller.Toml
open Reading
variable {α : Type} {a : α} {c : Char} {s t r p w g : List Char} {v : Value} {vs : List Value}
  {ps : List Pair} {x : Pair} {first : Bool}

theorem length_lt_of_outcome {x : Option (Reading α s)} (h : outcome x = some (a, t)) :
    t.length < s.length := by
  obtain ⟨y, rfl, he⟩ := Option.map_eq_some_iff.1 h
  cases he
  exact y.shorter

/-- The blanks before the front of a text may stand before the same front of another text. -/
theorem skipSpace_front (h : skipSpace s = p ++ t) (hp : p ≠ []) :
    ∃ w, s = w ++ (p ++ t) ∧ '\n' ∉ w ∧ ∀ t', skipSpace (w ++ (p ++ t')) = p ++ t' := by
  obtain ⟨w, hw, hs⟩ := skipSpace_split s
  obtain ⟨c, p, rfl⟩ := List.exists_cons_of_ne_nil hp
  refine ⟨w, h ▸ hs, not_lineFeed_of_isSpace hw, fun t' => ?_⟩
  rw [skipSpace_append hw]
  exact skipSpace_cons (head_of_skipSpace h)

theorem Ended.append_blanks (hp : Ended p) (hw : ∀ c ∈ w, isSpace c) : Ended (p ++ w) := by
  cases w with
  | nil => rwa [List.append_nil]
  | cons c w =>
    refine Inline.ended ?_ |>.append
    exact ⟨by simp, not_lineFeed_of_isSpace hw⟩

theorem skipGaps_cons (h : skipGaps false (c :: s) = some (c :: s)) :
    skipGaps false (c :: t) = some (c :: t) := by
  by_cases hc : isSpace c ∨ c = '\n'
  · rw [skipGaps_blank hc] at h
    have hle := length_skipGaps_le h
    rw [List.length_cons] at hle
    omega
  · by_cases hh : c = '#'
    · rw [hh, skipGaps_hash] at h
      have hle := length_skipGaps_le h
      rw [List.length_cons] at hle
      omega
    · exact skipGaps_stop hc hh

/-- A key would end before this text. -/
def KeyEnd (t : List Char) : Prop := KeyStop t ∧ ∀ r, t ≠ '.' :: r

theorem keyEnd_cons {c : Char} (hc : isBare c = false) (hs : isSpace c = false) (hp : c ≠ '.') :
    KeyEnd (c :: r) := by
  constructor
  · rintro d r' ⟨⟩
    exact ⟨hc, hs⟩
  · rintro r' ⟨⟩
    exact hp rfl

theorem readKey_takes {s t : List Char} {ks : List String} (h : outcome (readKey s) = some (ks, t)) :
    Takes Inline (fun s => outcome (readKey s)) KeyEnd ks s t := by
  rw [outcome_readKey] at h
  obtain ⟨⟨k, t₁⟩, hk, h⟩ := Option.bind_eq_some_iff.1 h
  have hlen := length_lt_of_outcome hk
  obtain ⟨p₁, hs, hp₁, h₁⟩ := readKeyPart_takes hk
  simp only at h
  split at h
  · next r =>
    obtain ⟨ks', hks, rfl⟩ := onValue_eq_some.1 h
    have hlt : (skipSpace r).length < s.length :=
      Nat.lt_trans (length_skipSpace_lt_cons '.' r) hlen
    obtain ⟨p₂, hr, hp₂, h₂⟩ := readKey_takes hks
    obtain ⟨w, rfl, hw, hskip⟩ := skipSpace_front hr hp₂.1
    refine ⟨p₁ ++ '.' :: (w ++ p₂), by simp [hs], .append hp₁.2 (.append (s := '.' :: w) ?_ hp₂),
      fun t' ht => ?_⟩
    · simpa using hw
    · have hpart : outcome (readKeyPart (p₁ ++ '.' :: (w ++ (p₂ ++ t')))) = _ :=
        h₁ _ (by rintro c r ⟨⟩; decide)
      have he : p₁ ++ '.' :: (w ++ p₂) ++ t' = p₁ ++ '.' :: (w ++ (p₂ ++ t')) := by simp
      show outcome (readKey _) = _
      rw [he, outcome_readKey, hpart]
      simp only [Option.bind_some]
      rw [hskip]
      exact onValue_eq_some.2 ⟨ks', h₂ t' ht, rfl⟩
  · next hdot =>
    cases h
    refine ⟨p₁, hs, hp₁, fun t' ht => ?_⟩
    have hpart : outcome (readKeyPart (p₁ ++ t')) = _ := h₁ t' ht.1
    show outcome (readKey _) = _
    rw [outcome_readKey, hpart, Option.bind_some]
    split
    · next r he => exact absurd he (ht.2 r)
    · rfl
termination_by s.length
decreasing_by exact hlt

theorem outcome_readValue_text (hc : c = '\x22' ∨ c = '\x27') : outcome (readValue (c :: r)) =
    onValue (fun t => .text (String.ofList t)) (outcome (readText (c :: r))) := by
  rw [outcome_readValue_cons, if_pos hc]

theorem outcome_readValue_array :
    outcome (readValue ('[' :: r)) = onValue .array (outcome (readItems r)) := by
  rw [outcome_readValue_cons, if_neg (by decide), if_pos rfl]

theorem outcome_readValue_table : outcome (readValue ('\x7b' :: r)) =
    (outcome (readPairs true (skipSpace r))).bind fun x =>
      (inlineTable x.1).map fun t => (Value.table t, x.2) := by
  rw [outcome_readValue_cons, if_neg (by decide), if_neg (by decide), if_pos rfl]

/-- Characters that begin a value with quotes or brackets. -/
def Opens (c : Char) : Prop := (c = '\x22' ∨ c = '\x27') ∨ c = '[' ∨ c = '\x7b'

theorem outcome_readValue_scalar (hc : ¬ Opens c) :
    outcome (readValue (c :: r)) = outcome (readScalar (c :: r)) := by
  simp only [Opens, not_or] at hc
  rw [outcome_readValue_cons, if_neg (not_or.2 hc.1), if_neg hc.2.1, if_neg hc.2.2]

/-- A value begins with quotes, a bracket, or a character that values without them have. -/
theorem outcome_readValue_none (ho : ¬ Opens c) (hgo : goesOn c r = false) :
    outcome (readValue (c :: r)) = none := by
  have hrun : scalarRun (c :: r) = ([], c :: r) := by
    rw [scalarRun, if_neg (by simp [hgo])]
  rw [outcome_readValue_scalar ho, outcome_readScalar, hrun, if_pos rfl]

theorem skipGaps_hard (hg : Filler false g) (hc : Hard c) (hn : c ≠ '\n') (hh : c ≠ '#') :
    skipGaps false (g ++ c :: r) = some (c :: r) := by
  rw [hg]
  refine skipGaps_stop (fun h => ?_) hh
  rcases h with h | h
  · rw [hc.2.1] at h
    cases h
  · exact hn h

theorem hard_comma : Hard ',' := by
  unfold Hard
  decide

theorem hard_bracket : Hard ']' := by
  unfold Hard
  decide

theorem hard_brace : Hard '\x7d' := by
  unfold Hard
  decide

/-- A pair and the blanks after it would end before this text. -/
def PairEnd (t : List Char) : Prop := ∀ c r, t = c :: r → Hard c

theorem pairEnd_cons (hc : Hard c) : PairEnd (c :: r) := by
  rintro d r' ⟨⟩
  exact hc

theorem PairEnd.skipSpace (ht : PairEnd t) : skipSpace t = t := by
  cases t with
  | nil => rfl
  | cons c r => exact skipSpace_cons (ht c r rfl).2.1

theorem PairEnd.stop (ht : PairEnd t) (hw : ∀ c ∈ w, isSpace c) : Stop (w ++ t) := by
  cases t with
  | cons c r =>
    have hg : Filler false w := fun s => by
      induction w with
      | nil => rfl
      | cons d w ih =>
        exact (skipGaps_blank (.inl (hw d List.mem_cons_self))).trans
          (ih fun c hc => hw c (List.mem_cons_of_mem d hc))
    exact hg.stop (ht c r rfl)
  | nil =>
    rintro c r he
    rw [List.append_nil] at he
    subst he
    obtain ⟨hs, -, hq⟩ := not_scalar_of_gap (.inl (hw c List.mem_cons_self))
    refine ⟨goesOn_eq_false hs fun _ => ?_, hq⟩
    cases r with
    | nil => rfl
    | cons d r =>
      simpa using (not_scalar_of_gap (.inl (hw d (by simp)))).2.1

theorem stop_of_gap (h : skipGaps false s = some (c :: r)) (hc : Hard c) : Stop s := by
  obtain ⟨g, rfl, hg⟩ := skipGaps_split h
  exact hg.stop hc

theorem AfterItem.stop (h : AfterItem s vs t) : Stop s := by
  cases h with
  | comma hgap => exact stop_of_gap hgap hard_comma
  | close hgap => exact stop_of_gap hgap hard_bracket

theorem AfterPair.pairEnd (h : AfterPair s ps t) : PairEnd s := by
  cases h with
  | comma => exact pairEnd_cons hard_comma
  | close => exact pairEnd_cons hard_brace

theorem skipSpace_of_readPair (h : outcome (readPair s) = some (x, t)) : skipSpace t = t := by
  obtain ⟨r, u, -, -, rfl⟩ := readPair_eq_some.1 h
  exact skipSpace_skipSpace

mutual

theorem readValue_takes {s t : List Char} {v : Value} (h : outcome (readValue s) = some (v, t)) :
    Takes Ended (fun s => outcome (readValue s)) Stop v s t := by
  rcases hs : s with _ | ⟨c, r⟩
  · rw [hs, outcome_readValue_nil] at h
    cases h
  have hlt : r.length < s.length := by
    rw [hs]
    exact Nat.lt_succ_self _
  rw [hs] at h
  by_cases hq : c = '\x22' ∨ c = '\x27'
  · rw [outcome_readValue_text hq] at h
    obtain ⟨x, hx, rfl⟩ := onValue_eq_some.1 h
    obtain ⟨p, hs, hp, hr⟩ := readText_takes hx
    obtain ⟨d, p, rfl⟩ := List.exists_cons_of_ne_nil hp.ne_nil
    obtain rfl := (List.cons.inj hs).1
    refine ⟨c :: p, hs, hp, fun t' ht => ?_⟩
    show outcome (readValue (c :: (p ++ t'))) = _
    rw [outcome_readValue_text hq]
    exact onValue_eq_some.2 ⟨x, hr t' (unquoted_of_stop ht), rfl⟩
  by_cases ha : c = '['
  · subst ha
    rw [outcome_readValue_array] at h
    obtain ⟨vs, hvs, rfl⟩ := onValue_eq_some.1 h
    obtain ⟨p, rfl, hp, hr⟩ := readItems_takes hvs
    refine ⟨'[' :: p, rfl, hp.append (s := ['[']), fun t' _ => ?_⟩
    show outcome (readValue ('[' :: (p ++ t'))) = _
    rw [outcome_readValue_array]
    exact onValue_eq_some.2 ⟨vs, hr t' trivial, rfl⟩
  by_cases hb : c = '\x7b'
  · subst hb
    rw [outcome_readValue_table] at h
    obtain ⟨⟨ps, t₁⟩, hps, h⟩ := Option.bind_eq_some_iff.1 h
    obtain ⟨e, he, h⟩ := Option.map_eq_some_iff.1 h
    cases h
    obtain ⟨p, hs, hp, hr⟩ := readPairs_takes hps
    obtain ⟨w, rfl, -, hskip⟩ := skipSpace_front hs hp.ne_nil
    refine ⟨'\x7b' :: w ++ p, by simp, hp.append, fun t' _ => ?_⟩
    have hread : outcome (readPairs true (p ++ t')) = _ := hr t' trivial
    show outcome (readValue ('\x7b' :: w ++ p ++ t')) = _
    rw [List.append_assoc, List.cons_append, outcome_readValue_table, hskip, hread, Option.bind_some, he]
    rfl
  · have ho : ¬ Opens c := fun ho => ho.elim hq fun ho => ho.elim ha hb
    rw [outcome_readValue_scalar ho] at h
    obtain ⟨p, hs, hp, hr⟩ := readScalar_takes h
    obtain ⟨d, p, rfl⟩ := List.exists_cons_of_ne_nil hp.1
    obtain rfl := (List.cons.inj hs).1
    refine ⟨c :: p, hs, hp.ended, fun t' ht => ?_⟩
    exact (outcome_readValue_scalar ho).trans (hr t' ht)
termination_by 3 * s.length
decreasing_by
  · exact rank_lt 2 0 hlt (by decide)
  · exact rank_lt 1 0 (Nat.lt_of_le_of_lt (length_skipSpace_le _) hlt) (by decide)

theorem readItems_takes {s t : List Char} {vs : List Value} (h : outcome (readItems s) = some (vs, t)) :
    Takes Ended (fun s => outcome (readItems s)) (fun _ => True) vs s t := by
  obtain ⟨c, r, hgap, hcase⟩ := readItems_eq_some.1 h
  have hle := length_skipGaps_le hgap
  obtain ⟨g, hs, hg⟩ := skipGaps_split hgap
  rcases hcase with ⟨rfl, rfl, rfl⟩ | ⟨hc, hitem⟩
  · refine ⟨g ++ [']'], by simp [hs], ended_concat (by decide), fun t' _ => ?_⟩
    refine readItems_eq_some.2 ⟨']', t', ?_, .inl ⟨rfl, rfl, rfl⟩⟩
    rw [List.append_assoc]
    exact skipGaps_hard hg hard_bracket (by decide) (by decide)
  · obtain ⟨p, hp, he, hr⟩ := readItem_takes hitem
    obtain ⟨d, p, rfl⟩ := List.exists_cons_of_ne_nil he.ne_nil
    obtain rfl := (List.cons.inj hp).1
    refine ⟨g ++ c :: p, by rw [hs, hp, List.append_assoc], he.append, fun t' _ => ?_⟩
    refine readItems_eq_some.2 ⟨c, p ++ t', ?_, .inr ⟨hc, hr t' trivial⟩⟩
    rw [hs, hg] at hgap
    rw [List.append_assoc, hg]
    exact skipGaps_cons hgap
termination_by 3 * s.length + 2
decreasing_by exact rank_le 1 hle

theorem readItem_takes {s t : List Char} {vs : List Value} (h : outcome (readItem s) = some (vs, t)) :
    Takes Ended (fun s => outcome (readItem s)) (fun _ => True) vs s t := by
  obtain ⟨v, vs₁, u, rfl, hv, hafter⟩ := readItem_eq_some.1 h
  have hlen := length_lt_of_outcome hv
  obtain ⟨p₁, hs, hp₁, h₁⟩ := readValue_takes hv
  cases hafter with
  | @comma r _ _ hgap hvs =>
    have hlt : r.length < s.length := Nat.lt_trans (length_lt_of_skipGaps hgap) hlen
    obtain ⟨p₂, rfl, hp₂, h₂⟩ := readItems_takes hvs
    obtain ⟨g, rfl, hg⟩ := skipGaps_split hgap
    refine ⟨p₁ ++ (g ++ ',' :: p₂), by simp [hs], .append (.append (.append (s := [',']) hp₂)),
      fun t' _ => ?_⟩
    have he : p₁ ++ (g ++ ',' :: p₂) ++ t' = p₁ ++ (g ++ ',' :: (p₂ ++ t')) := by simp
    have hcomma := skipGaps_hard (r := p₂ ++ t') hg hard_comma (by decide) (by decide)
    show outcome (readItem _) = _
    rw [he]
    exact readItem_eq_some.2
      ⟨v, vs₁, _, rfl, h₁ _ (hg.stop hard_comma), .comma hcomma (h₂ t' trivial)⟩
  | close hgap =>
    obtain ⟨g, rfl, hg⟩ := skipGaps_split hgap
    refine ⟨p₁ ++ (g ++ [']']), by simp [hs], .append (ended_concat (by decide)), fun t' _ => ?_⟩
    have he : p₁ ++ (g ++ [']']) ++ t' = p₁ ++ (g ++ ']' :: t') := by simp
    have hbracket := skipGaps_hard (r := t') hg hard_bracket (by decide) (by decide)
    show outcome (readItem _) = _
    rw [he]
    exact readItem_eq_some.2 ⟨v, [], _, rfl, h₁ _ (hg.stop hard_bracket), .close hbracket⟩
termination_by 3 * s.length + 1
decreasing_by
  · exact Nat.lt_succ_self _
  · exact rank_lt 2 1 hlt (by decide)

theorem readPairs_takes {first : Bool} {s t : List Char} {ps : List Pair}
    (h : outcome (readPairs first s) = some (ps, t)) :
    Takes Ended (fun s => outcome (readPairs first s)) (fun _ => True) ps s t := by
  rcases readPairs_eq_some.1 h with ⟨rfl, rfl, rfl⟩ | ⟨hopen, x, ps₁, u, rfl, hx, hafter⟩
  · exact ⟨['\x7d'], rfl, ⟨'\x7d', rfl, by decide⟩, fun _ _ => outcome_readPairs_close⟩
  have hlen := length_lt_of_outcome hx
  obtain ⟨p₁, hs, hp₁, h₁⟩ := readPair_takes hx
  have hopen' (t' : List Char) : first = true → (p₁ ++ t').head? ≠ some '\x7d' := by
    rw [hs] at hopen
    obtain ⟨d, p, rfl⟩ := List.exists_cons_of_ne_nil hp₁.ne_nil
    exact hopen
  cases hafter with
  | @comma r _ _ hps =>
    have hlt : (skipSpace r).length < s.length :=
      Nat.lt_trans (length_skipSpace_lt_cons ',' r) hlen
    obtain ⟨p₂, hr, hp₂, h₂⟩ := readPairs_takes hps
    obtain ⟨w, rfl, -, hskip⟩ := skipSpace_front hr hp₂.ne_nil
    refine ⟨p₁ ++ ',' :: (w ++ p₂), by simp [hs], .append (.append (s := ',' :: w) hp₂), fun t' _ => ?_⟩
    have he : p₁ ++ ',' :: (w ++ p₂) ++ t' = p₁ ++ ',' :: (w ++ (p₂ ++ t')) := by simp
    show outcome (readPairs first _) = _
    rw [he]
    refine readPairs_eq_some.2 (.inr ⟨hopen' _, x, ps₁, _, rfl, h₁ _ (pairEnd_cons hard_comma), .comma ?_⟩)
    rw [hskip]
    exact h₂ t' trivial
  | close =>
    refine ⟨p₁ ++ ['\x7d'], by simp [hs], ended_concat (by decide), fun t' _ => ?_⟩
    show outcome (readPairs first (p₁ ++ ['\x7d'] ++ t')) = _
    rw [List.append_assoc]
    exact readPairs_eq_some.2 (.inr ⟨hopen' _, x, [], _, rfl, h₁ _ (pairEnd_cons hard_brace), .close⟩)
termination_by 3 * s.length + 1
decreasing_by
  · exact Nat.lt_succ_self _
  · exact rank_lt 1 1 hlt (by decide)

theorem readPair_takes {s t : List Char} {x : Pair} (h : outcome (readPair s) = some (x, t)) :
    Takes Ended (fun s => outcome (readPair s)) PairEnd x s t := by
  obtain ⟨r, u, hk, hv, rfl⟩ := readPair_eq_some.1 h
  have hlen := length_lt_of_outcome hk
  obtain ⟨p₁, hs, hp₁, h₁⟩ := readKey_takes hk
  have hlt : (skipSpace r).length < s.length :=
    Nat.lt_trans (length_skipSpace_lt_cons '=' r) hlen
  have hvalue : Takes Ended (fun s => (outcome (readValue s)).map fun x => (x.1, skipSpace x.2)) PairEnd
      x.value (skipSpace r) (skipSpace u) :=
    (readValue_takes hv).skipSpace (fun p w => Ended.append_blanks) (fun _ => PairEnd.skipSpace)
      fun _ _ ht => ht.stop
  obtain ⟨p₂, hr, hp₂, h₂⟩ := hvalue
  obtain ⟨w, rfl, -, hskip⟩ := skipSpace_front hr hp₂.ne_nil
  refine ⟨p₁ ++ '=' :: (w ++ p₂), by simp [hs], .append (.append (s := '=' :: w) hp₂), fun t' ht => ?_⟩
  have he : p₁ ++ '=' :: (w ++ p₂) ++ t' = p₁ ++ '=' :: (w ++ (p₂ ++ t')) := by simp
  obtain ⟨⟨v, u'⟩, hy, hy'⟩ := Option.map_eq_some_iff.1 (h₂ t' ht)
  cases hy'
  show outcome (readPair _) = _
  rw [he]
  refine readPair_eq_some.2 ⟨_, u', h₁ _ (keyEnd_cons (by decide) (by decide) (by decide)), ?_, rfl⟩
  rw [hskip]
  exact hy
termination_by 3 * s.length
decreasing_by exact rank_lt 0 0 hlt (by decide)

end

end WitCaller.Toml
