/-!
Reading from the front of a list. A reading keeps what is left with the proof that it is shorter, so
that readers can call each other without a bound.
-/

namespace WitCaller

/-- That `s` ends with `r`, and what stands before it there. -/
class EndOf {σ : Type} (r s : List σ) where
  front : List σ
  front_append : front ++ r = s

namespace EndOf

variable {σ : Type} {r s : List σ}

theorem cons_append (a : σ) (e : EndOf r s) : (a :: e.front) ++ r = a :: s :=
  congrArg (a :: ·) e.front_append

instance refl : EndOf r r := ⟨[], List.nil_append r⟩

instance cons {a : σ} [e : EndOf r s] : EndOf r (a :: s) := ⟨a :: e.front, cons_append a e⟩

theorem length_le (e : EndOf r s) : r.length ≤ s.length := by
  rw [← e.front_append, List.length_append]
  exact Nat.le_add_left _ _

end EndOf

/-- A value read off the front of a list, and the shorter list after it. -/
structure Reading {σ : Type} (α : Type) (s : List σ) where
  value : α
  rest : List σ
  shorter : rest.length < s.length

namespace Reading

variable {σ α β γ : Type} {s r : List σ} {c : σ}

/-- A reading of a list as a reading of one that is not shorter. -/
def liftOfLe (f : α → β) (x : Reading α r) (h : r.length ≤ s.length) : Reading β s :=
  ⟨f x.value, x.rest, Nat.lt_of_lt_of_le x.shorter h⟩

/-- A reading of the end of a list as a reading of the whole list. -/
def lift (f : α → β) (x : Reading α r) [e : EndOf r s] : Reading β s := x.liftOfLe f e.length_le

/-- The reading that leaves `r` of a list. -/
def done (a : α) (r : List σ) [e : EndOf r s] : Reading α (c :: s) :=
  ⟨a, r, Nat.lt_succ_of_le e.length_le⟩

/-- One reading and then another, put together. -/
def andThen (f : α → β → γ) (x : Reading α s) (y : Reading β x.rest) : Reading γ s :=
  y.liftOfLe (f x.value) (Nat.le_of_lt x.shorter)

/-- A reading that skips more of what is left. -/
def skip (f : List σ → List σ) (h : ∀ s, (f s).length ≤ s.length) (x : Reading α s) :
    Reading α s :=
  ⟨x.value, f x.rest, Nat.lt_of_le_of_lt (h x.rest) x.shorter⟩

@[simp] theorem liftOfLe_value (f : α → β) (x : Reading α r) (h : r.length ≤ s.length) :
    (x.liftOfLe f h).value = f x.value := rfl

@[simp] theorem liftOfLe_rest (f : α → β) (x : Reading α r) (h : r.length ≤ s.length) :
    (x.liftOfLe f h).rest = x.rest := rfl

@[simp] theorem lift_value (f : α → β) (x : Reading α r) [EndOf r s] :
    (x.lift f : Reading β s).value = f x.value := rfl

@[simp] theorem lift_rest (f : α → β) (x : Reading α r) [EndOf r s] :
    (x.lift f : Reading β s).rest = x.rest := rfl

@[simp] theorem done_value (a : α) (r : List σ) [EndOf r s] :
    (done a r : Reading α (c :: s)).value = a := rfl

@[simp] theorem done_rest (a : α) (r : List σ) [EndOf r s] :
    (done a r : Reading α (c :: s)).rest = r := rfl

@[simp] theorem andThen_value (f : α → β → γ) (x : Reading α s) (y : Reading β x.rest) :
    (x.andThen f y).value = f x.value y.value := rfl

@[simp] theorem andThen_rest (f : α → β → γ) (x : Reading α s) (y : Reading β x.rest) :
    (x.andThen f y).rest = y.rest := rfl

theorem lt_of_rest {x : Reading α s} (h : x.rest = c :: r) : r.length < s.length := by
  have := x.shorter
  rw [h, List.length_cons] at this
  exact Nat.lt_of_succ_lt this

end Reading

/-- With three ranks for each length, a shorter list comes before all ranks of a longer one. -/
theorem rank_lt {a b : Nat} (i j : Nat) (h : a < b) (hi : i < 3 + j) : 3 * a + i < 3 * b + j := by
  omega

theorem rank_le {a b : Nat} (i : Nat) (h : a ≤ b) : 3 * a + i < 3 * b + (i + 1) := by
  omega

end WitCaller
