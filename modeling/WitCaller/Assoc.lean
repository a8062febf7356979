/-!
Association lists that keep the order in which their keys were first added.
-/

namespace WitCaller.Assoc

variable {κ α : Type} [DecidableEq κ]

/-- The value of a key. -/
def get? (k : κ) : List (κ × α) → Option α
  | [] => none
  | (k', v) :: r => if k' = k then some v else get? k r

/-- The list with a value for a key: in the place of the old value, or at the end. -/
def insert (k : κ) (v : α) : List (κ × α) → List (κ × α)
  | [] => [(k, v)]
  | (k', v') :: r => if k' = k then (k, v) :: r else (k', v') :: insert k v r

theorem get?_insert (k k' : κ) (v : α) (l : List (κ × α)) :
    get? k' (insert k v l) = if k = k' then some v else get? k' l := by
  induction l with
  | nil => simp [insert, get?]
  | cons p r ih =>
    obtain ⟨k₀, v₀⟩ := p
    by_cases h : k₀ = k
    · subst h
      by_cases h' : k₀ = k' <;> simp [insert, get?, h']
    · by_cases h' : k₀ = k'
      · subst h'
        simp [insert, get?, h, Ne.symm h]
      · simp [insert, get?, h, h', ih]

theorem get?_insert_self (k : κ) (v : α) (l : List (κ × α)) : get? k (insert k v l) = some v := by
  rw [get?_insert, if_pos rfl]

theorem get?_insert_of_ne {k k' : κ} (h : k' ≠ k) (v : α) (l : List (κ × α)) :
    get? k' (insert k v l) = get? k' l := by
  rw [get?_insert, if_neg (Ne.symm h)]

end WitCaller.Assoc
