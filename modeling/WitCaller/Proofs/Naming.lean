import WitCaller.Identifier
import WitCaller.TypeExpr.Parser

/-!
Names of types stay names when they are put into Pascal case: capitals are never blanks or marks, and
something is left of each name that is not all hyphens.
-/

namespace WitCaller
open Text

theorem mem_of_lookup {α β : Type} [BEq α] [LawfulBEq α] {a : α} {b : β} {l : List (α × β)}
    (h : l.lookup a = some b) : (a, b) ∈ l := by
  obtain ⟨l₁, l₂, rfl, -⟩ := List.lookup_eq_some_iff.1 h
  exact List.mem_append_right _ (List.mem_cons_self ..)

/-- A capital form is the character itself or one from the tables: what holds of all code points in
the tables holds of its code point. -/
theorem eq_or_ofNat_of_mem_capital {P : Nat → Prop} {c d : Char}
    (hwide : ∀ p ∈ wideCapitals, ∀ n ∈ p.2, P n)
    (hruns : ∀ r ∈ caseRuns, ∀ n m, CaseRun.capital? n r = some m → P m) (h : d ∈ capital c) :
    d = c ∨ ∃ n, P n ∧ Char.ofNat n = d := by
  unfold capital at h
  split at h
  · next cs hcs =>
    obtain ⟨n, hn, rfl⟩ := List.mem_map.1 h
    exact .inr ⟨n, hwide _ (mem_of_lookup hcs) n hn, rfl⟩
  · rw [List.mem_singleton] at h
    cases hf : caseRuns.findSome? (CaseRun.capital? c.toNat) with
    | none =>
      rw [hf] at h
      exact .inl h
    | some m =>
      rw [hf] at h
      obtain ⟨r, hr, hm⟩ := List.exists_of_findSome?_eq_some hf
      exact .inr ⟨m, hruns r hr _ m hm, h.symm⟩

namespace TypeToken

/-- A text that can be a name: it is not empty, and all its characters are those of names. -/
def IsName (s : List Char) : Prop := s ≠ [] ∧ ∀ c ∈ s, isNameChar c = true

instance (s : List Char) : Decidable (IsName s) :=
  decidable_of_iff (!s.isEmpty && s.all isNameChar) (by simp [IsName])

/-- The code points that no name has: those of the blanks and of the five marks. -/
def separators : List (Nat × Nat) := [
  (9, 13), (28, 32), (0x28, 0x29), (0x2C, 0x2C), (0x3C, 0x3C), (0x3E, 0x3E), (0x85, 0x85),
  (0xA0, 0xA0), (0x1680, 0x1680), (0x2000, 0x200A), (0x2028, 0x2029), (0x202F, 0x202F),
  (0x205F, 0x205F), (0x3000, 0x3000)]

/-- Whether all code points from `first` to `last` may stand in names. -/
def isApart (first last : Int) : Bool :=
  separators.all fun g => decide (last < g.1) || decide ((g.2 : Int) < first)

theorem toNat_of_mark {c : Char} {m : TypeToken} (h : mark? c = some m) :
    c.toNat = 0x3C ∨ c.toNat = 0x3E ∨ c.toNat = 0x2C ∨ c.toNat = 0x28 ∨ c.toNat = 0x29 := by
  unfold mark? at h
  split at h <;> first | decide | cases h

theorem isNameChar_of_isApart {c : Char} (h : isApart c.toNat c.toNat = true) :
    isNameChar c = true := by
  simp only [isApart, separators, List.all_cons, List.all_nil, Bool.and_eq_true, Bool.or_eq_true,
    decide_eq_true_eq] at h
  have hm : mark? c = none := by
    cases hc : mark? c with
    | none => rfl
    | some m =>
      have := toNat_of_mark hc
      omega
  have hb : isBlank c = false := by
    simp only [isBlank, Bool.or_eq_false_iff, Bool.and_eq_false_iff, decide_eq_false_iff_not,
      beq_eq_false_iff_ne]
    omega
  simp [isNameChar, hm, hb]

theorem isApart_mono {a b c d : Int} (h : isApart a b = true) (hc : a ≤ c) (hd : d ≤ b) :
    isApart c d = true := by
  simp only [isApart, List.all_eq_true, Bool.or_eq_true, decide_eq_true_eq] at h ⊢
  intro g hg
  have := h g hg
  omega

/-- A number that is no code point stands for U+0000, which may stand in a name. -/
theorem isNameChar_ofNat {n : Nat} (h : isApart n n = true) : isNameChar (Char.ofNat n) = true := by
  apply isNameChar_of_isApart
  by_cases hn : n.isValidChar
  · have : (Char.ofNat n).toNat = n := by
      rw [Char.ofNat, dif_pos hn]
      rfl
    rwa [this]
  · have : (Char.ofNat n).toNat = 0 := by
      rw [Char.ofNat, dif_neg hn]
      rfl
    rw [this]
    decide

theorem wideCapitals_isApart : ∀ p ∈ wideCapitals, p.2 ≠ [] ∧ ∀ n ∈ p.2, isApart n n = true := by
  decide +kernel

theorem caseRuns_isApart : ∀ r ∈ caseRuns,
    isApart (r.1 + r.2.2.2) (r.1 + r.2.1 * r.2.2.1 - 1 + r.2.2.2) = true := by
  decide +kernel

theorem isApart_of_capital {r : CaseRun} (hr : r ∈ caseRuns) {n m : Nat}
    (h : r.capital? n = some m) : isApart m m = true := by
  obtain ⟨first, count, stride, distance⟩ := r
  have hrun := caseRuns_isApart _ hr
  simp only [CaseRun.capital?, Option.ite_none_right_eq_some, Option.some.injEq] at h
  obtain ⟨⟨hfirst, hlast, -⟩, rfl⟩ := h
  by_cases hneg : (n : Int) + distance < 0
  · rw [Int.toNat_of_nonpos (by omega)]
    decide
  · have : ((first + count * stride : Nat) : Int) = first + count * stride := by push_cast; rfl
    refine isApart_mono hrun ?_ ?_ <;> simp only <;> omega

/-- A capital form is the character itself or has only characters of names. -/
theorem eq_or_isNameChar_of_mem_capital {c d : Char} (h : d ∈ capital c) :
    d = c ∨ isNameChar d = true := by
  obtain rfl | ⟨n, hn, rfl⟩ : d = c ∨ ∃ n : Nat, isApart n n = true ∧ Char.ofNat n = d :=
    eq_or_ofNat_of_mem_capital (fun p hp => (wideCapitals_isApart p hp).2)
      (fun r hr n m => isApart_of_capital hr) h
  · exact .inl rfl
  · exact .inr (isNameChar_ofNat hn)

theorem capital_ne_nil (c : Char) : capital c ≠ [] := by
  unfold capital
  split
  · next cs hcs => simpa using (wideCapitals_isApart _ (mem_of_lookup hcs)).1
  · exact List.cons_ne_nil _ _

/-- The capital form of a character of a name is a name. -/
theorem isName_capital {c : Char} (h : isNameChar c = true) : IsName (capital c) := by
  refine ⟨capital_ne_nil c, fun d hd => ?_⟩
  rcases eq_or_isNameChar_of_mem_capital hd with rfl | hd
  · exact h
  · exact hd

end TypeToken

namespace Identifier
open TypeToken

/-- A name of which something is left when it is made Pascal case: it is not all hyphens. -/
def Says (name : String) : Prop := ∃ c ∈ unescape name.toList, c ≠ '-'

instance (name : String) : Decidable (Says name) :=
  decidable_of_iff ((unescape name.toList).any (· != '-')) (by simp [Says])

theorem unescape_sublist (s : List Char) : (unescape s).Sublist s := by
  unfold unescape
  split
  · exact List.sublist_cons_self ..
  · exact List.Sublist.refl _

/-- The parts of a text hold all its characters but the separators. -/
theorem flatten_splitOn (sep : Char) (s : List Char) :
    (splitOn sep s).flatten = s.filter (· ≠ sep) := by
  induction s with
  | nil => rfl
  | cons c r ih =>
    rw [splitOn]
    split
    · next hc => simp [hc, ih]
    · next hc =>
      split
      · next he =>
        rw [he] at ih
        rw [List.filter_cons_of_pos (by simpa using hc), ← ih]
        rfl
      · next p ps he =>
        rw [he] at ih
        rw [List.filter_cons_of_pos (by simpa using hc), ← ih]
        rfl

theorem isName_capitalize {p : List Char} (h : IsName p) : IsName (capitalize p) := by
  cases p with
  | nil => exact absurd rfl h.1
  | cons c r =>
    obtain ⟨hc, hr⟩ := List.forall_mem_cons.1 h.2
    obtain ⟨hne, hall⟩ := isName_capital hc
    refine ⟨by simp [capitalize, hne], ?_⟩
    intro d hd
    rcases List.mem_append.1 hd with hd | hd
    · exact hall d hd
    · exact hr d hd

/-- The Pascal case form of a name is a name. -/
theorem isName_pascal {name : String} (h : IsName name.toList) (hs : Says name) :
    IsName (pascal name).toList := by
  have hmem (c : Char) : (∃ p ∈ splitOn '-' (unescape name.toList), c ∈ p) ↔
      c ∈ unescape name.toList ∧ c ≠ '-' := by
    rw [← List.mem_flatten, flatten_splitOn]
    simp
  have hpart {p : List Char} (hp : p ∈ splitOn '-' (unescape name.toList)) (hne : p ≠ []) :
      IsName (capitalize p) := by
    refine isName_capitalize ⟨hne, fun c hc => h.2 c ?_⟩
    exact (unescape_sublist _).subset ((hmem c).1 ⟨p, hp, hc⟩).1
  rw [pascal, String.toList_ofList]
  constructor
  · obtain ⟨c, hc⟩ := hs
    obtain ⟨p, hp, hcp⟩ := (hmem c).2 hc
    have := (hpart hp (List.ne_nil_of_mem hcp)).1
    rw [ne_eq, List.flatMap_eq_nil_iff]
    exact fun hall => this (hall p hp)
  · intro d hd
    obtain ⟨p, hp, hdp⟩ := List.mem_flatMap.1 hd
    have hne : p ≠ [] := by
      rintro rfl
      exact absurd hdp (by simp [capitalize])
    exact (hpart hp hne).2 d hdp

end Identifier
end WitCaller
