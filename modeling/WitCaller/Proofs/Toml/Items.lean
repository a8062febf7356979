import WitCaller.Proofs.Toml.Values

/-!
An array whose text is cut between two items. What its reader expects after the cut is determined by
the text before.
-/

namespace WitCaller.Toml
open Reading
variable {after : Bool} {c : Char} {g p s t u w z r : List Char} {v : Value} {vs vs' : List Value}

/-- What the rest of an array makes of the items that are read: after an item comes a comma or the
end, after a comma an item or the end. -/
def restItems (after : Bool) (vs : List Value) (z : List Char) : Option (List Value × List Char) :=
  match skipGaps false z with
  | some (c :: r) =>
    if c = ']' then some (vs, r)
    else if after then if c = ',' then onValue (vs ++ ·) (outcome (readItems r)) else none
    else onValue (vs ++ ·) (outcome (readItem (c :: r)))
  | _ => none

theorem restItems_eq_end (h : skipGaps false z = some (']' :: r)) : restItems after vs z = some (vs, r) := by
  rw [restItems, h]
  rfl

theorem restItems_item (h : skipGaps false z = some (c :: r)) (hc : c ≠ ']') :
    restItems false vs z = onValue (vs ++ ·) (outcome (readItem (c :: r))) := by
  rw [restItems, h]
  simp only [if_neg hc, Bool.false_eq_true, if_false]

theorem restItems_comma (h : skipGaps false z = some (',' :: r)) :
    restItems true vs z = onValue (vs ++ ·) (outcome (readItems r)) := by
  rw [restItems, h]
  rfl

theorem restItems_none (h : skipGaps false z = some (c :: r)) (hc : c ≠ ']') (hcomma : c ≠ ',') :
    restItems true vs z = none := by
  rw [restItems, h]
  simp only [if_neg hc, if_neg hcomma, if_true]

theorem restItems_congr (h : skipGaps false z = skipGaps false s) :
    restItems after vs z = restItems after vs s := by
  rw [restItems, restItems, h]

/-- The items that are read stay in front of the others. -/
theorem onValue_restItems : onValue (vs ++ ·) (restItems after vs' z) = restItems after (vs ++ vs') z := by
  have happend (x : Option (List Value × List Char)) :
      onValue (vs ++ ·) (onValue (vs' ++ ·) x) = onValue (vs ++ vs' ++ ·) x := by
    cases x with
    | none => rfl
    | some x => simp [onValue]
  unfold restItems
  cases skipGaps false z with
  | none => rfl
  | some s =>
    cases s with
    | nil => rfl
    | cons c r =>
      simp only
      split
      · rfl
      · split
        · split
          · exact happend _
          · rfl
        · exact happend _

theorem readItems_eq_rest : outcome (readItems s) = restItems false [] s := by
  have hid (x : Option (List Value × List Char)) : onValue ([] ++ ·) x = x := onValue_id
  rw [outcome_readItems]
  unfold restItems
  cases skipGaps false s with
  | none => rfl
  | some s =>
    cases s with
    | nil => rfl
    | cons c r =>
      simp only [Bool.false_eq_true, if_false, hid]

theorem readItem_eq_rest : outcome (readItem s) =
    (outcome (readValue s)).bind fun x => restItems true [x.1] x.2 := by
  rw [outcome_readItem]
  congr 1
  funext x
  unfold restItems
  cases skipGaps false x.2 with
  | none => rfl
  | some s =>
    cases s with
    | nil => rfl
    | cons c r =>
      by_cases hc : c = ']'
      · subst hc
        rfl
      · by_cases hcomma : c = ','
        · subst hcomma
          rfl
        · simp only [if_neg hc, if_neg hcomma, if_true]
          split
          · next he => exact absurd (List.cons.inj (Option.some.inj he)).1 hcomma
          · next he => exact absurd (List.cons.inj (Option.some.inj he)).1 hc
          · rfl

theorem Stop.not_digit (h : Stop (c :: r)) : c.isDigit = false := by
  rw [← Bool.not_eq_true]
  intro hd
  have hgo := (h c r rfl).1
  rw [goesOn, isScalar_of_isDigit hd, Bool.true_or] at hgo
  cases hgo

/-- What stops a value before a text stops it before another. -/
theorem Stop.append (h : Stop (w ++ s)) (hz : Stop z) : Stop (w ++ z) := by
  cases w with
  | nil => exact hz
  | cons c w =>
    rintro _ _ ⟨⟩
    obtain ⟨hgo, hq⟩ := h c (w ++ s) rfl
    refine ⟨goesOn_eq_false ?_ ?_, hq⟩
    · rw [goesOn, Bool.or_eq_false_iff] at hgo
      exact hgo.1
    · intro hc
      cases w with
      | nil =>
        cases z with
        | nil => rfl
        | cons d z => simpa using hz.not_digit
      | cons d w =>
        subst hc
        simpa [goesOn, isScalar] using hgo

/-- A value in front of the end of an array. -/
theorem readValue_front (h : outcome (readValue (u ++ [']'])) = some (v, t)) (hne : t ≠ [])
    (ht : Stop t) : ∃ p w, u = p ++ w ∧ p ≠ [] ∧ t = w ++ [']'] ∧
      ∀ z, Stop z → outcome (readValue (u ++ z)) = some (v, w ++ z) := by
  obtain ⟨p, hs, hp, hread⟩ := readValue_takes h
  have hfront : ∃ w, u = p ++ w ∧ t = w ++ [']'] := by
    rcases List.append_eq_append_iff.1 hs with ⟨a, rfl, ha⟩ | ⟨w, rfl, rfl⟩
    · cases a with
      | nil => exact ⟨[], by simp, by simpa using ha.symm⟩
      | cons d a => exact absurd (List.append_eq_nil_iff.1 (List.cons.inj ha).2.symm).2 hne
    · exact ⟨w, rfl, rfl⟩
  obtain ⟨w, rfl, rfl⟩ := hfront
  refine ⟨p, w, rfl, hp.ne_nil, rfl, fun z hz => ?_⟩
  rw [List.append_assoc]
  exact hread _ (ht.append hz)

theorem restItems_eq_some (h : restItems true vs z = some (vs', t)) :
    (∃ r, skipGaps false z = some (',' :: r)) ∨ skipGaps false z = some (']' :: t) := by
  unfold restItems at h
  cases hs : skipGaps false z with
  | none =>
    rw [hs] at h
    cases h
  | some s =>
    rw [hs] at h
    cases s with
    | nil => cases h
    | cons c r =>
      simp only [if_true] at h
      split at h
      · next hc =>
        cases h
        rw [hc]
        exact .inr rfl
      · split at h
        · next hc =>
          rw [hc]
          exact .inl ⟨r, rfl⟩
        · cases h

/-- After an item something follows that ends it. -/
theorem restItems_stop (h : restItems true vs z = some (vs', t)) : z ≠ [] ∧ Stop z := by
  have hhard : ∃ c r, skipGaps false z = some (c :: r) ∧ Hard c := by
    rcases restItems_eq_some h with ⟨r, hr⟩ | hr
    · exact ⟨',', r, hr, hard_comma⟩
    · exact ⟨']', _, hr, hard_bracket⟩
  obtain ⟨c, r, hgap, hc⟩ := hhard
  refine ⟨?_, stop_of_gap hgap hc⟩
  rintro rfl
  cases hgap

/-- Before the end of an array there is no comment that is still open. -/
theorem restItems_append {b : Bool} (hb : ∀ z, skipGaps false (u ++ z) = skipGaps b z)
    (h : restItems after vs (u ++ [']']) = some (vs', t)) : Filler false u ∧ vs' = vs := by
  cases b with
  | true =>
    have hopen : skipGaps false (u ++ [']']) = some [] := by
      rw [hb]
      rfl
    rw [restItems, hopen] at h
    cases h
  | false =>
    rw [restItems_eq_end ((hb _).trans rfl)] at h
    cases h
    exact ⟨hb, rfl⟩

mutual

/-- The reader of an array after a front of its items, if the array could end there. -/
theorem readItems_front {u : List Char} {vs : List Value}
    (h : outcome (readItems (u ++ [']'])) = some (vs, [])) :
    ∃ after, ∀ z, u = [] ∨ Stop z → outcome (readItems (u ++ z)) = restItems after vs z := by
  rw [readItems_eq_rest] at h
  rcases skipGaps_append false u with ⟨b, hb⟩ | ⟨g, c, r, hu, hg, hs⟩ | hn
  · -- There is no item.
    obtain ⟨hfill, rfl⟩ := restItems_append hb h
    refine ⟨false, fun z _ => ?_⟩
    rw [readItems_eq_rest]
    exact restItems_congr (hfill z)
  · by_cases hc : c = ']'
    · subst hc
      rw [restItems_eq_end (hs _)] at h
      simp at h
    rw [restItems_item (hs _) hc, readItem_eq_rest] at h
    obtain ⟨⟨vs₁, _⟩, hitem, he⟩ := Option.map_eq_some_iff.1 h
    obtain ⟨⟨v, t⟩, hv, hrest⟩ := Option.bind_eq_some_iff.1 hitem
    cases he
    -- The item ends in the front: what follows it is a comma or the end of the array.
    obtain ⟨hne, hstop⟩ := restItems_stop hrest
    obtain ⟨p, w, hpw, hp, rfl, hread⟩ := readValue_front (u := c :: r) hv hne hstop
    have hlt : w.length < u.length := by
      have hlen := congrArg List.length hpw
      have hpos := List.length_pos_iff.2 hp
      simp only [hu, List.length_append, List.length_cons] at hlen ⊢
      omega
    obtain ⟨after, hafter⟩ := restItems_front hrest
    refine ⟨after, fun z hz => ?_⟩
    have hz : Stop z := hz.resolve_left (by simp [hu])
    have hvalue : outcome (readValue (c :: (r ++ z))) = some (v, w ++ z) := hread z hz
    rw [readItems_eq_rest, restItems_item (hs z) hc, readItem_eq_rest, hvalue, Option.bind_some]
    exact onValue_id.trans (hafter z hz)
  · rw [restItems, hn] at h
    cases h
termination_by u.length
decreasing_by exact hlt

/-- The same after an item. -/
theorem restItems_front {u : List Char} {vs vs' : List Value}
    (h : restItems true vs (u ++ [']']) = some (vs', [])) :
    ∃ after, ∀ z, Stop z → restItems true vs (u ++ z) = restItems after vs' z := by
  rcases skipGaps_append false u with ⟨b, hb⟩ | ⟨g, c, r, hu, -, hs⟩ | hn
  · obtain ⟨hfill, rfl⟩ := restItems_append hb h
    exact ⟨true, fun z _ => restItems_congr (hfill z)⟩
  · rcases restItems_eq_some h with ⟨r', hr'⟩ | hr'
    · rw [hs] at hr'
      cases hr'
      rw [restItems_comma (hs _)] at h
      obtain ⟨⟨vs₁, _⟩, hitems, he⟩ := Option.map_eq_some_iff.1 h
      cases he
      have hlt : r.length < u.length := by
        rw [hu, List.length_append, List.length_cons]
        omega
      obtain ⟨after, hfront⟩ := readItems_front hitems
      refine ⟨after, fun z hz => ?_⟩
      rw [restItems_comma (hs z), hfront z (.inr hz), onValue_restItems]
    · rw [hs] at hr'
      simp at hr'
  · rw [restItems, hn] at h
    cases h
termination_by u.length
decreasing_by exact hlt

end

end WitCaller.Toml
