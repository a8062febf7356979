import WitCaller.Toml.Decoder

/-!
What the readers of a document make of a text: the value, and what is left. The equations here leave
the proofs of termination behind that a reading carries.
-/

namespace WitCaller

namespace Reading
variable {σ α β : Type} {s r : List σ}

/-- The value of a reading and what is left. -/
def outcome (x : Option (Reading α s)) : Option (α × List σ) := x.map fun x => (x.value, x.rest)

/-- The same outcome with another value. -/
def onValue (f : α → β) (x : Option (α × List σ)) : Option (β × List σ) := x.map fun x => (f x.1, x.2)

@[simp] theorem outcome_none : outcome (none : Option (Reading α s)) = none := rfl

@[simp] theorem outcome_some {x : Reading α s} : outcome (some x) = some (x.value, x.rest) := rfl

@[simp] theorem onValue_none {f : α → β} : onValue f (none : Option (α × List σ)) = none := rfl

@[simp] theorem onValue_some {f : α → β} {a : α} : onValue f (some (a, r)) = some (f a, r) := rfl

@[simp] theorem onValue_id {x : Option (α × List σ)} : onValue id x = x := by
  cases x <;> rfl

theorem onValue_eq_some {f : α → β} {x : Option (α × List σ)} {b : β} :
    onValue f x = some (b, r) ↔ ∃ a, x = some (a, r) ∧ f a = b := by
  cases x with
  | none => simp
  | some p =>
    obtain ⟨a, t⟩ := p
    simp only [onValue_some, Option.some.injEq, Prod.mk.injEq]
    constructor
    · rintro ⟨rfl, rfl⟩
      exact ⟨a, ⟨rfl, rfl⟩, rfl⟩
    · rintro ⟨a', ⟨rfl, rfl⟩, rfl⟩
      exact ⟨rfl, rfl⟩

theorem outcome_map {t : List σ} {f : Reading α r → Reading β t} {g : α → β} {x : Option (Reading α r)}
    (h : ∀ y, (f y).value = g y.value ∧ (f y).rest = y.rest) :
    outcome (x.map f) = onValue g (outcome x) := by
  cases x with
  | none => rfl
  | some y =>
    obtain ⟨hv, hr⟩ := h y
    simp [hv, hr]

theorem outcome_bind {t : List σ} {f : Reading α r → Reading β t} {g : α → β}
    {x : Option (Reading α r)} (h : ∀ y, (f y).value = g y.value ∧ (f y).rest = y.rest) :
    outcome (x.bind fun y => some (f y)) = onValue g (outcome x) := by
  rw [← outcome_map h]
  cases x <;> rfl

end Reading

namespace Toml
open Reading

theorem outcome_readItems {s : List Char} : outcome (readItems s) =
    match skipGaps false s with
    | none => none
    | some [] => none
    | some (c :: r) => if c = ']' then some ([], r) else outcome (readItem (c :: r)) := by
  rw [readItems]
  split
  · next h => simp only [h]; rfl
  · next h => simp only [h]; rfl
  · next c r h =>
    simp only [h]
    split
    · rfl
    · refine Eq.trans ?_ onValue_id
      exact outcome_map fun y => ⟨rfl, rfl⟩

theorem outcome_readItem {s : List Char} : outcome (readItem s) =
    (outcome (readValue s)).bind fun v =>
      match skipGaps false v.2 with
      | some (',' :: r) => onValue (v.1 :: ·) (outcome (readItems r))
      | some (']' :: r) => some ([v.1], r)
      | _ => none := by
  rw [readItem]
  cases readValue s with
  | none => rfl
  | some v =>
    simp only [outcome_some, Option.bind_some]
    split
    · next r h =>
      simp only [h]
      exact outcome_map fun y => ⟨rfl, rfl⟩
    · next r h =>
      simp only [h]
      rfl
    · next h₁ h₂ =>
      split
      · next r h => exact absurd h (h₁ r)
      · next r h => exact absurd h (h₂ r)
      · rfl

theorem outcome_readPair {s : List Char} : outcome (readPair s) =
    (outcome (readKey s)).bind fun k =>
      match k.2 with
      | '=' :: r => (outcome (readValue (skipSpace r))).map fun x => (⟨k.1, x.1⟩, skipSpace x.2)
      | _ => none := by
  rw [readPair]
  cases readKey s with
  | none => rfl
  | some k =>
    simp only [outcome_some, Option.bind_some]
    split
    · next r h =>
      simp only [h]
      cases readValue (skipSpace r) <;> rfl
    · next h =>
      split
      · next r h' => exact absurd h' (h r)
      · rfl

theorem outcome_readPairs_close {r : List Char} :
    outcome (readPairs true ('\x7d' :: r)) = some ([], r) := by
  rw [readPairs]
  rfl

theorem outcome_readPairs {first : Bool} {s : List Char} (hs : first = true → s.head? ≠ some '\x7d') :
    outcome (readPairs first s) = (outcome (readPair s)).bind fun p =>
      match p.2 with
      | ',' :: r => onValue (p.1 :: ·) (outcome (readPairs false (skipSpace r)))
      | '\x7d' :: r => some ([p.1], r)
      | _ => none := by
  rw [readPairs.eq_def]
  split
  · exact absurd rfl (hs rfl)
  · cases readPair s with
    | none => rfl
    | some p =>
      simp only [outcome_some, Option.bind_some]
      split
      · next r h =>
        simp only [h]
        exact outcome_map fun y => ⟨rfl, rfl⟩
      · next r h =>
        simp only [h]
        rfl
      · next h₁ h₂ =>
        split
        · next r h => exact absurd h (h₁ r)
        · next r h => exact absurd h (h₂ r)
        · rfl

theorem outcome_readValue_nil : outcome (readValue []) = none := by
  rw [readValue]
  rfl

theorem outcome_readValue_cons {c : Char} {r : List Char} : outcome (readValue (c :: r)) =
    if c = '\x22' ∨ c = '\x27' then
      onValue (fun t => Value.text (String.ofList t)) (outcome (readText (c :: r)))
    else if c = '[' then onValue Value.array (outcome (readItems r))
    else if c = '\x7b' then
      (outcome (readPairs true (skipSpace r))).bind fun x =>
        (inlineTable x.1).map fun t => (Value.table t, x.2)
    else outcome (readScalar (c :: r)) := by
  rw [readValue]
  split
  · exact outcome_map fun y => ⟨rfl, rfl⟩
  · split
    · exact outcome_map fun y => ⟨rfl, rfl⟩
    · split
      · cases readPairs true (skipSpace r) with
        | none => rfl
        | some x =>
          simp only [outcome_some, Option.bind_some, bind]
          cases inlineTable x.value <;> rfl
      · rfl

theorem outcome_readKey {s : List Char} : outcome (readKey s) =
    (outcome (readKeyPart s)).bind fun part =>
      match part.2 with
      | '.' :: r => onValue (part.1 :: ·) (outcome (readKey (skipSpace r)))
      | _ => some ([part.1], part.2) := by
  rw [readKey]
  cases readKeyPart s with
  | none => rfl
  | some part =>
    simp only [outcome_some, Option.bind_some]
    split
    · next r h =>
      simp only [h]
      exact outcome_map fun y => ⟨rfl, rfl⟩
    · next h =>
      split
      · next r h' => exact absurd h' (h r)
      · rfl

theorem outcome_readHeaderKey {n : Nat} {s : List Char} : outcome (readHeaderKey n s) =
    (outcome (readKey (skipSpace s))).bind fun k => (readBrackets n k.2).map (k.1, ·) := by
  unfold readHeaderKey
  cases readKey (skipSpace s) with
  | none => rfl
  | some k =>
    simp only [outcome_some, Option.bind_some]
    split
    · next h => simp only [h]; rfl
    · next r h => simp only [h]; rfl

/-- What is read of a document after its gaps. -/
theorem readStatements_eq {s : List Char} : readStatements s =
    (skipGaps false s).bind fun t =>
      if t = [] then some []
      else (outcome (readStatement t)).bind fun st =>
        (skipLineTail false st.2).bind fun u => (readStatements u).map (st.1 :: ·) := by
  rw [readStatements]
  split
  · next h => simp only [h]; rfl
  · next h => simp only [h]; rfl
  · next c r h =>
    simp only [h]
    simp only [Option.bind_some, reduceCtorEq, if_false]
    cases readStatement (c :: r) with
    | none => rfl
    | some st =>
      simp only [outcome_some, Option.bind_some]
      split
      · next h => simp only [h]; rfl
      · next t h => simp only [h]; rfl

/-! ### What is read of an array or a table, step by step -/

variable {s t : List Char} {v : Value} {vs : List Value} {x : Pair} {ps : List Pair} {first : Bool}

/-- What follows an item of an array, with the items in it. -/
inductive AfterItem : List Char → List Value → List Char → Prop where
  | comma {s r t : List Char} {vs : List Value} (hgap : skipGaps false s = some (',' :: r))
      (h : outcome (readItems r) = some (vs, t)) : AfterItem s vs t
  | close {s t : List Char} (hgap : skipGaps false s = some (']' :: t)) : AfterItem s [] t

/-- What follows a pair of an inline table, with the pairs in it. -/
inductive AfterPair : List Char → List Pair → List Char → Prop where
  | comma {r t : List Char} {ps : List Pair} (h : outcome (readPairs false (skipSpace r)) = some (ps, t)) :
      AfterPair (',' :: r) ps t
  | close {t : List Char} : AfterPair ('\x7d' :: t) [] t

theorem readItems_eq_some : outcome (readItems s) = some (vs, t) ↔
    ∃ c r, skipGaps false s = some (c :: r) ∧
      (c = ']' ∧ vs = [] ∧ r = t ∨ c ≠ ']' ∧ outcome (readItem (c :: r)) = some (vs, t)) := by
  rw [outcome_readItems]
  constructor
  · intro h
    split at h
    · cases h
    · cases h
    · next c r hgap =>
      refine ⟨c, r, hgap, ?_⟩
      split at h
      · next hc =>
        cases h
        exact .inl ⟨hc, rfl, rfl⟩
      · next hc => exact .inr ⟨hc, h⟩
  · rintro ⟨c, r, hgap, ⟨rfl, rfl, rfl⟩ | ⟨hc, h⟩⟩
    · rw [hgap]
      rfl
    · rw [hgap]
      simp only [if_neg hc]
      exact h

theorem readItem_eq_some : outcome (readItem s) = some (vs, t) ↔
    ∃ v vs₁ u, vs = v :: vs₁ ∧ outcome (readValue s) = some (v, u) ∧ AfterItem u vs₁ t := by
  rw [outcome_readItem]
  constructor
  · intro h
    obtain ⟨⟨v, u⟩, hv, h⟩ := Option.bind_eq_some_iff.1 h
    simp only at h
    split at h
    · next r hgap =>
      obtain ⟨vs', hvs, rfl⟩ := onValue_eq_some.1 h
      exact ⟨v, vs', u, rfl, hv, .comma hgap hvs⟩
    · next r hgap =>
      cases h
      exact ⟨v, [], u, rfl, hv, .close hgap⟩
    · cases h
  · rintro ⟨v, vs₁, u, rfl, hv, ha⟩
    rw [hv, Option.bind_some]
    cases ha with
    | comma hgap hvs =>
      simp only [hgap]
      exact onValue_eq_some.2 ⟨vs₁, hvs, rfl⟩
    | close hgap => simp only [hgap]

theorem readPair_eq_some : outcome (readPair s) = some (x, t) ↔
    ∃ r u, outcome (readKey s) = some (x.key, '=' :: r) ∧
      outcome (readValue (skipSpace r)) = some (x.value, u) ∧ t = skipSpace u := by
  rw [outcome_readPair]
  constructor
  · intro h
    obtain ⟨⟨k, u⟩, hk, h⟩ := Option.bind_eq_some_iff.1 h
    simp only at h
    split at h
    · next r =>
      obtain ⟨⟨v, w⟩, hv, he⟩ := Option.map_eq_some_iff.1 h
      cases he
      exact ⟨r, w, hk, hv, rfl⟩
    · cases h
  · rintro ⟨r, u, hk, hv, rfl⟩
    rw [hk, Option.bind_some]
    simp only [hv, Option.map_some]

theorem readPairs_eq_some : outcome (readPairs first s) = some (ps, t) ↔
    first = true ∧ s = '\x7d' :: t ∧ ps = [] ∨ (first = true → s.head? ≠ some '\x7d') ∧
      ∃ x ps₁ u, ps = x :: ps₁ ∧ outcome (readPair s) = some (x, u) ∧ AfterPair u ps₁ t := by
  by_cases hclose : first = true ∧ s.head? = some '\x7d'
  · obtain ⟨rfl, hs⟩ := hclose
    obtain ⟨r, rfl⟩ := List.head?_eq_some_iff.1 hs
    rw [outcome_readPairs_close]
    constructor
    · rintro ⟨⟩
      exact .inl ⟨rfl, rfl, rfl⟩
    · rintro (⟨-, ⟨⟩, rfl⟩ | ⟨hopen, -⟩)
      · rfl
      · exact absurd rfl (hopen rfl)
  have hopen : first = true → s.head? ≠ some '\x7d' := fun hf hs => hclose ⟨hf, hs⟩
  rw [outcome_readPairs hopen]
  constructor
  · intro h
    obtain ⟨⟨x, u⟩, hx, h⟩ := Option.bind_eq_some_iff.1 h
    refine .inr ⟨hopen, ?_⟩
    simp only at h
    split at h
    · next r =>
      obtain ⟨ps', hps, rfl⟩ := onValue_eq_some.1 h
      exact ⟨x, ps', _, rfl, hx, .comma hps⟩
    · cases h
      exact ⟨x, [], _, rfl, hx, .close⟩
    · cases h
  · rintro (⟨hf, rfl, -⟩ | ⟨-, x, ps₁, u, rfl, hx, ha⟩)
    · exact absurd rfl (hopen hf)
    · rw [hx, Option.bind_some]
      cases ha with
      | comma hps => exact onValue_eq_some.2 ⟨ps₁, hps, rfl⟩
      | close => rfl

end Toml

end WitCaller
