import WitCaller.Proofs.Toml.Values
import WitCaller.Text.Blank

/-!
The characters of a document. A text that is decoded holds no control characters but tabs and line
feeds, and carriage returns only before line feeds.
-/

namespace WitCaller.Toml
open Reading

/-- Characters that may stand in a document. -/
def Printed (c : Char) : Prop := isControl c = false ∨ c = '\n'

/-- That `t` is left of a text after characters that may stand in a document. -/
inductive Passes (t : List Char) : List Char → Prop where
  | done : Passes t t
  | cons {c : Char} {r : List Char} (hc : Printed c) (h : Passes t r) : Passes t (c :: r)

variable {α β : Type} {c d q : Char} {s r t p x : List Char}

theorem Passes.trans (h : Passes r s) (h' : Passes t r) : Passes t s := by
  induction h with
  | done => exact h'
  | cons hc _ ih => exact .cons hc ih

theorem Passes.append (hp : ∀ c ∈ p, Printed c) (h : Passes t r) : Passes t (p ++ r) := by
  induction p with
  | nil => exact h
  | cons c p ih =>
    obtain ⟨hc, hp⟩ := List.forall_mem_cons.1 hp
    exact .cons hc (ih hp)

theorem Passes.forall (h : Passes [] s) : ∀ c ∈ s, Printed c := by
  induction h with
  | done => exact fun c hc => absurd hc List.not_mem_nil
  | cons hc _ ih => exact List.forall_mem_cons.2 ⟨hc, ih⟩

/-! ### Classes of characters -/

theorem printed_of_toNat (hlow : 32 ≤ c.toNat) (hhigh : c.toNat ≠ 127) : Printed c := by
  left
  simp only [isControl, Bool.or_eq_false_iff, Bool.and_eq_false_iff, decide_eq_false_iff_not,
    beq_eq_false_iff_ne]
  omega

theorem printed_of_isAlphanum (h : c.isAlphanum = true) : Printed c := by
  obtain ⟨hlow, hhigh⟩ := Text.toNat_of_isAlphanum h
  exact printed_of_toNat (by omega) (by omega)

theorem printed_of_isSpace (h : isSpace c = true) : Printed c := by
  rw [isSpace, Bool.or_eq_true, beq_iff_eq, beq_iff_eq] at h
  rcases h with rfl | rfl <;> exact .inl rfl

theorem printed_of_isBare (h : isBare c = true) : Printed c := by
  simp only [isBare, Bool.or_eq_true, beq_iff_eq] at h
  rcases h with (h | rfl) | rfl
  · exact printed_of_isAlphanum h
  all_goals exact .inl rfl

theorem printed_of_goesOn (h : goesOn c r = true) : Printed c := by
  simp only [goesOn, isScalar, Bool.or_eq_true, Bool.and_eq_true, beq_iff_eq] at h
  rcases h with (((((h | rfl) | rfl) | rfl) | rfl) | rfl) | ⟨rfl, -⟩
  · exact printed_of_isAlphanum h
  all_goals exact .inl rfl

theorem printed_of_hexValue? {n : Nat} (h : hexValue? c = some n) : Printed c := by
  have hclass : c.toNat ≤ 102 ∧ 48 ≤ c.toNat := by
    unfold hexValue? at h
    split at h
    · next hc => exact ⟨Nat.le_trans hc.2 (by decide), hc.1⟩
    · split at h
      · next hc => exact ⟨hc.2, Nat.le_trans (by decide) hc.1⟩
      · split at h
        · next hc => exact ⟨Nat.le_trans hc.2 (by decide), Nat.le_trans (by decide) hc.1⟩
        · cases h
  exact printed_of_toNat (by omega) (by omega)

theorem printed_of_hexChar? {ds : List Char} {y : Char} (h : hexChar? ds = some y) :
    ∀ c ∈ ds, Printed c := by
  intro d hd
  obtain ⟨n, hn⟩ := Option.isSome_iff_exists.1 (isHex_of_hexChar? h d hd)
  exact printed_of_hexValue? hn

theorem printed_of_escape? {y : Char} (h : escape? c = some y) : Printed c := by
  unfold escape? at h
  split at h
  all_goals first | exact .inl rfl | cases h

theorem printed_of_long (h : ¬ (isControl c = true ∧ c ≠ '\n')) : Printed c := by
  by_cases hc : c = '\n'
  · exact .inr hc
  · exact .inl (Bool.eq_false_iff.2 fun hcontrol => h ⟨hcontrol, hc⟩)

/-! ### Strings -/

/-- A reader that goes on after some characters passes these too. -/
theorem passes_of_lift {f : α → β} {y? : Option (Reading α r)} {x : Reading β s} [EndOf r s]
    (hp : ∀ {t}, Passes t r → Passes t s) (h : (do return (← y?).lift f) = some x)
    (ih : ∀ {y}, y? = some y → Passes y.rest r) : Passes x.rest s := by
  obtain ⟨y, hy, hx⟩ := Option.bind_eq_some_iff.1 h
  cases hx
  exact hp (ih hy)

theorem Escapes.printed {e : List Char} {y : Char} (he : Escapes e y) : ∀ c ∈ e, Printed c := by
  cases he with
  | letter hy => exact List.forall_mem_singleton.2 (printed_of_escape? hy)
  | number hc hy =>
    refine List.forall_mem_cons.2 ⟨?_, printed_of_hexChar? hy⟩
    rcases hc with ⟨rfl, -⟩ | ⟨rfl, -⟩
    · exact .inl rfl
    · exact .inl rfl

theorem LineRead.passes (h : LineRead q s x t) (hq : Printed q) : Passes t s := by
  induction h with
  | close => exact .cons hq .done
  | char hc _ ih => exact .cons (.inl hc.1) ih
  | escape _ he _ ih => exact .cons (.inl rfl) (ih.append he.printed)

theorem Skips.printed {k k' : Continuation} (h : Skips k c k') : Printed c := by
  obtain ⟨-, ⟨hs, -⟩ | ⟨-, hn, -⟩⟩ | ⟨-, hs | hn, -⟩ := h
  · exact printed_of_isSpace hs
  · exact .inr hn
  · exact printed_of_isSpace hs
  · exact .inr hn

theorem LongRead.passes {k : Continuation} (h : LongRead q k s x t) (hq : Printed q) : Passes t s := by
  induction h with
  | @close k n t =>
    have hquotes : ∀ c ∈ q :: q :: q :: List.replicate n q, Printed c := fun c hc =>
      List.eq_of_mem_replicate (n := n + 3) hc ▸ hq
    exact Passes.done.append hquotes
  | char _ _ _ hc _ ih => exact .cons (printed_of_long hc) ih
  | skip _ hk _ ih => exact .cons hk.printed ih
  | escape _ _ he _ ih => exact .cons (.inl rfl) (ih.append he.printed)
  | join _ _ hc _ ih => exact .cons (.inl rfl) (.cons (hc.elim .inr printed_of_isSpace) ih)

theorem outcome_of_eq_some {y? : Option (Reading α s)} {y : Reading α s} (h : y? = some y) :
    outcome y? = some (y.value, y.rest) := by
  rw [h]
  rfl

theorem basicTail_passes {x : Reading (List Char) s} (h : basicTail s = some x) : Passes x.rest s :=
  (lineRead_basicTail.1 (outcome_of_eq_some h)).passes (.inl rfl)

theorem literalTail_passes {x : Reading (List Char) s} (h : literalTail s = some x) :
    Passes x.rest s :=
  (lineRead_literalTail.1 (outcome_of_eq_some h)).passes (.inl rfl)

theorem longBasicTail_passes {k : Continuation} {x : Reading (List Char) s}
    (h : longBasicTail k s = some x) : Passes x.rest s :=
  (longRead_longBasicTail.1 (outcome_of_eq_some h)).passes (.inl rfl)

theorem longLiteralTail_passes {x : Reading (List Char) s} (h : longLiteralTail s = some x) :
    Passes x.rest s :=
  (longRead_longLiteralTail.1 (outcome_of_eq_some h)).passes (.inl rfl)

theorem readText_passes {x : Reading (List Char) s} (h : readText s = some x) : Passes x.rest s := by
  have hdouble : Printed '\x22' := .inl rfl
  have hsingle : Printed '\x27' := .inl rfl
  unfold readText at h
  split at h
  · exact passes_of_lift (fun ht => .cons hdouble (.cons hdouble (.cons hdouble (.cons (.inr rfl) ht))))
      h longBasicTail_passes
  · exact passes_of_lift (fun ht => .cons hdouble (.cons hdouble (.cons hdouble ht)))
      h longBasicTail_passes
  · exact passes_of_lift (.cons hdouble) h basicTail_passes
  · exact passes_of_lift (fun ht => .cons hsingle (.cons hsingle (.cons hsingle (.cons (.inr rfl) ht))))
      h longLiteralTail_passes
  · exact passes_of_lift (fun ht => .cons hsingle (.cons hsingle (.cons hsingle ht)))
      h longLiteralTail_passes
  · exact passes_of_lift (.cons hsingle) h literalTail_passes
  · cases h

theorem readShortText_passes {x : Reading (List Char) s} (h : readShortText s = some x) :
    Passes x.rest s := by
  unfold readShortText at h
  split at h
  · exact passes_of_lift (.cons (.inl rfl)) h basicTail_passes
  · exact passes_of_lift (.cons (.inl rfl)) h literalTail_passes
  · cases h

/-! ### Blanks, keys and values -/

theorem skipSpace_passes (s : List Char) : Passes (skipSpace s) s := by
  obtain ⟨w, hw, hs⟩ := skipSpace_split s
  have hpasses : Passes (skipSpace s) (w ++ skipSpace s) :=
    .append (fun c hc => printed_of_isSpace (hw c hc)) .done
  rwa [← hs] at hpasses

theorem skipGaps_passes {inComment : Bool} (h : skipGaps inComment s = some t) : Passes t s := by
  fun_induction skipGaps inComment s with
  | case1 =>
    cases h
    exact .done
  | case2 r ih => exact .cons (.inr rfl) (ih h)
  | case3 => cases h
  | case4 c r _ hc ih => exact .cons (.inl (Bool.eq_false_iff.2 hc)) (ih h)
  | case5 b c r _ hc ih => exact .cons (hc.elim printed_of_isSpace .inr) (ih h)
  | case6 b r _ _ ih => exact .cons (.inl rfl) (ih h)
  | case7 =>
    cases h
    exact .done

theorem skipLineTail_passes {inComment : Bool} (h : skipLineTail inComment s = some t) :
    Passes t s := by
  fun_induction skipLineTail inComment s with
  | case1 =>
    cases h
    exact .done
  | case2 =>
    cases h
    exact .done
  | case3 => cases h
  | case4 c r _ hc ih => exact .cons (.inl (Bool.eq_false_iff.2 hc)) (ih h)
  | case5 b c r _ _ hc ih => exact .cons (printed_of_isSpace hc) (ih h)
  | case6 b r _ _ _ ih => exact .cons (.inl rfl) (ih h)
  | case7 => cases h

theorem readBrackets_passes {n : Nat} (h : readBrackets n s = some t) : Passes t s := by
  fun_induction readBrackets n s with
  | case1 =>
    cases h
    exact .done
  | case2 n r ih => exact .cons (.inl rfl) (ih h)
  | case3 => cases h

theorem passes_of_outcome {y? : Option (Reading α s)} {a : α} (h : outcome y? = some (a, t))
    (hp : ∀ {y}, y? = some y → Passes y.rest s) : Passes t s := by
  obtain ⟨y, hy, he⟩ := Option.map_eq_some_iff.1 h
  cases he
  exact hp hy

theorem readKeyPart_passes {k : String} (h : outcome (readKeyPart s) = some (k, t)) :
    Passes t s := by
  rw [outcome_readKeyPart] at h
  obtain ⟨⟨k', u⟩, hraw, he⟩ := Option.map_eq_some_iff.1 h
  cases he
  refine Passes.trans ?_ (skipSpace_passes u)
  cases s with
  | nil => cases hraw
  | cons c r =>
    rw [rawPart?] at hraw
    split at hraw
    · next hc =>
      cases hraw
      have hrun : ∀ d ∈ r.takeWhile isBare, Printed d := fun d hd =>
        printed_of_isBare (List.all_eq_true.1 List.all_takeWhile d hd)
      have hpasses : Passes (r.dropWhile isBare) (r.takeWhile isBare ++ r.dropWhile isBare) :=
        .append hrun .done
      rw [List.takeWhile_append_dropWhile] at hpasses
      exact .cons (printed_of_isBare hc) hpasses
    · obtain ⟨y, hy, -⟩ := onValue_eq_some.1 hraw
      exact passes_of_outcome hy readShortText_passes

theorem readKey_passes {s t : List Char} {ks : List String} (h : outcome (readKey s) = some (ks, t)) :
    Passes t s := by
  rw [outcome_readKey] at h
  obtain ⟨⟨k, u⟩, hk, h⟩ := Option.bind_eq_some_iff.1 h
  have hlen := length_lt_of_outcome hk
  have hpart := readKeyPart_passes hk
  simp only at h
  split at h
  · next r =>
    have hlt : (skipSpace r).length < s.length :=
      Nat.lt_trans (length_skipSpace_lt_cons '.' r) hlen
    obtain ⟨ks', hks, -⟩ := onValue_eq_some.1 h
    exact hpart.trans (.cons (.inl rfl) ((skipSpace_passes r).trans (readKey_passes hks)))
  · cases h
    exact hpart
termination_by s.length
decreasing_by exact hlt

theorem readScalar_passes {v : Value} (h : outcome (readScalar s) = some (v, t)) : Passes t s := by
  have hrun (u : List Char) : Passes (scalarRun u).2 u := by
    fun_induction scalarRun u with
    | case1 => exact .done
    | case2 c r hc ih => exact .cons (printed_of_goesOn hc) ih
    | case3 => exact .done
  rw [outcome_readScalar] at h
  split at h
  · cases h
  · obtain ⟨v', -, he⟩ := Option.map_eq_some_iff.1 h
    cases he
    exact hrun s

mutual

theorem readValue_passes {s t : List Char} {v : Value} (h : outcome (readValue s) = some (v, t)) :
    Passes t s := by
  rcases hs : s with _ | ⟨c, r⟩
  · rw [hs, outcome_readValue_nil] at h
    cases h
  have hlt : r.length < s.length := by
    rw [hs]
    exact Nat.lt_succ_self _
  rw [hs, outcome_readValue_cons] at h
  split at h
  · obtain ⟨x, hx, -⟩ := onValue_eq_some.1 h
    exact passes_of_outcome hx readText_passes
  · split at h
    · next hc =>
      obtain ⟨vs, hvs, -⟩ := onValue_eq_some.1 h
      exact .cons (hc ▸ .inl rfl) (readItems_passes hvs)
    · split at h
      · next hc =>
        obtain ⟨⟨ps, u⟩, hps, h⟩ := Option.bind_eq_some_iff.1 h
        obtain ⟨table, -, he⟩ := Option.map_eq_some_iff.1 h
        cases he
        exact .cons (hc ▸ .inl rfl) ((skipSpace_passes r).trans (readPairs_passes hps))
      · exact readScalar_passes h
termination_by 3 * s.length
decreasing_by
  · exact rank_lt 1 0 (Nat.lt_of_le_of_lt (length_skipSpace_le _) hlt) (by decide)
  · exact rank_lt 2 0 hlt (by decide)

theorem readItems_passes {s t : List Char} {vs : List Value} (h : outcome (readItems s) = some (vs, t)) :
    Passes t s := by
  obtain ⟨c, r, hgap, hcase⟩ := readItems_eq_some.1 h
  have hle := length_skipGaps_le hgap
  apply (skipGaps_passes hgap).trans
  rcases hcase with ⟨rfl, -, rfl⟩ | ⟨-, hitem⟩
  · exact .cons (.inl rfl) .done
  · exact readItem_passes hitem
termination_by 3 * s.length + 2
decreasing_by exact rank_le 1 hle

theorem readItem_passes {s t : List Char} {vs : List Value} (h : outcome (readItem s) = some (vs, t)) :
    Passes t s := by
  obtain ⟨v, vs₁, u, rfl, hv, hafter⟩ := readItem_eq_some.1 h
  have hlen := length_lt_of_outcome hv
  apply (readValue_passes hv).trans
  cases hafter with
  | @comma r _ _ hgap hvs =>
    have hlt : r.length < s.length := Nat.lt_trans (length_lt_of_skipGaps hgap) hlen
    exact (skipGaps_passes hgap).trans (.cons (.inl rfl) (readItems_passes hvs))
  | close hgap => exact (skipGaps_passes hgap).trans (.cons (.inl rfl) .done)
termination_by 3 * s.length + 1
decreasing_by
  · exact Nat.lt_succ_self _
  · exact rank_lt 2 1 hlt (by decide)

theorem readPairs_passes {first : Bool} {s t : List Char} {ps : List Pair}
    (h : outcome (readPairs first s) = some (ps, t)) : Passes t s := by
  rcases readPairs_eq_some.1 h with ⟨-, rfl, -⟩ | ⟨-, x, ps₁, u, rfl, hx, hafter⟩
  · exact .cons (.inl rfl) .done
  have hlen := length_lt_of_outcome hx
  apply (readPair_passes hx).trans
  cases hafter with
  | @comma r _ _ hps =>
    have hlt : (skipSpace r).length < s.length :=
      Nat.lt_trans (length_skipSpace_lt_cons ',' r) hlen
    exact .cons (.inl rfl) ((skipSpace_passes r).trans (readPairs_passes hps))
  | close => exact .cons (.inl rfl) .done
termination_by 3 * s.length + 1
decreasing_by
  · exact Nat.lt_succ_self _
  · exact rank_lt 1 1 hlt (by decide)

theorem readPair_passes {s t : List Char} {x : Pair} (h : outcome (readPair s) = some (x, t)) :
    Passes t s := by
  obtain ⟨r, u, hk, hv, rfl⟩ := readPair_eq_some.1 h
  have hlt : (skipSpace r).length < s.length :=
    Nat.lt_trans (length_skipSpace_lt_cons '=' r) (length_lt_of_outcome hk)
  have hvalue := (readValue_passes hv).trans (skipSpace_passes u)
  exact (readKey_passes hk).trans (.cons (.inl rfl) ((skipSpace_passes r).trans hvalue))
termination_by 3 * s.length
decreasing_by exact rank_lt 0 0 hlt (by decide)

end

/-! ### Documents -/

theorem readHeaderKey_passes {n : Nat} {ks : List String}
    (h : outcome (readHeaderKey n s) = some (ks, t)) : Passes t s := by
  rw [outcome_readHeaderKey] at h
  obtain ⟨⟨k, u⟩, hk, h⟩ := Option.bind_eq_some_iff.1 h
  obtain ⟨r, hr, he⟩ := Option.map_eq_some_iff.1 h
  cases he
  exact (skipSpace_passes s).trans ((readKey_passes hk).trans (readBrackets_passes hr))

theorem readStatement_passes {st : Statement} (h : outcome (readStatement s) = some (st, t)) :
    Passes t s := by
  have hmap {β : Type} {r : List Char} [EndOf r s] {f : β → Statement} {y? : Option (Reading β r)}
      (h : outcome (y?.map (·.lift f) : Option (Reading Statement s)) = some (st, t)) :
      ∃ a, outcome y? = some (a, t) := by
    rw [outcome_map (g := f) fun y => ⟨rfl, rfl⟩] at h
    obtain ⟨a, ha, -⟩ := onValue_eq_some.1 h
    exact ⟨a, ha⟩
  unfold readStatement at h
  split at h
  · obtain ⟨ks, hks⟩ := hmap h
    exact .cons (.inl rfl) (.cons (.inl rfl) (readHeaderKey_passes hks))
  · obtain ⟨ks, hks⟩ := hmap h
    exact .cons (.inl rfl) (readHeaderKey_passes hks)
  · obtain ⟨x, hx⟩ := hmap h
    exact readPair_passes hx

theorem readStatements_passes {s : List Char} {sts : List Statement} (h : readStatements s = some sts) :
    Passes [] s := by
  rw [readStatements_eq] at h
  obtain ⟨u, hgap, h⟩ := Option.bind_eq_some_iff.1 h
  have hle := length_skipGaps_le hgap
  apply (skipGaps_passes hgap).trans
  split at h
  · next hu =>
    rw [hu]
    exact .done
  · obtain ⟨⟨st, v⟩, hst, h⟩ := Option.bind_eq_some_iff.1 h
    obtain ⟨w, htail, h⟩ := Option.bind_eq_some_iff.1 h
    obtain ⟨sts', hsts, -⟩ := Option.map_eq_some_iff.1 h
    have hlt : w.length < s.length := Nat.lt_of_le_of_lt (length_skipLineTail_le htail)
      (Nat.lt_of_lt_of_le (length_lt_of_outcome hst) hle)
    exact (readStatement_passes hst).trans ((skipLineTail_passes htail).trans (readStatements_passes hsts))
termination_by s.length
decreasing_by exact hlt

/-- A text that is decoded holds no control characters but tabs and line feeds, once the carriage
returns before line feeds are left out. -/
theorem printed_of_decode {table : Table} (h : decode s = some table) :
    ∀ c ∈ dropReturns s, Printed c := by
  obtain ⟨sts, hsts, -⟩ := Option.bind_eq_some_iff.1 h
  exact (readStatements_passes hsts).forall

end WitCaller.Toml
