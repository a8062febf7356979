import WitCaller.Log

/-!
Computations step by step: what a sequence of two does to the state, and computations that report
but whose outcome does not depend on the reports.
-/

namespace WitCaller

theorem bind_eq_ok {ε α β : Type} {x : Except ε α} {f : α → Except ε β} {b : β} :
    x >>= f = .ok b ↔ ∃ a, x = .ok a ∧ f a = .ok b := by
  cases x with
  | error e =>
    constructor
    · rintro ⟨⟩
    · rintro ⟨_, ⟨⟩, _⟩
  | ok a =>
    constructor
    · intro h
      exact ⟨a, rfl, h⟩
    · rintro ⟨_, ha, h⟩
      cases ha
      exact h

theorem bind_eq_error {ε α β : Type} {x : Except ε α} {f : α → Except ε β} {e : ε} :
    x >>= f = .error e ↔ x = .error e ∨ ∃ a, x = .ok a ∧ f a = .error e := by
  cases x with
  | error e' => simp [bind, Except.bind]
  | ok a => simp [bind, Except.bind]

theorem eq_ok_of_toOption {ε α : Type} {x : Except ε α} {a : α} (h : x.toOption = some a) : x = .ok a := by
  cases x with
  | error e => cases h
  | ok b => exact congrArg Except.ok (Option.some.inj h)

namespace Steps
variable {ε σ α β : Type} {m : ExceptT ε (StateM σ) α} {f : α → ExceptT ε (StateM σ) β}
  {a : α} {b : β} {e : ε} {s s' s₁ : σ}

theorem bind_ok (h : m s = (.ok a, s₁)) : (m >>= f) s = f a s₁ := by
  change StateT.bind m (ExceptT.bindCont f) s = _
  change (do let p ← m s; ExceptT.bindCont f p.1 p.2 : Id _) = _
  rw [h]
  rfl

theorem bind_error (h : m s = (.error e, s₁)) : (m >>= f) s = (.error e, s₁) := by
  change (do let p ← m s; ExceptT.bindCont f p.1 p.2 : Id _) = _
  rw [h]
  rfl

theorem bind_eq_ok_iff : (m >>= f) s = (.ok b, s') ↔
    ∃ a s₁, m s = (.ok a, s₁) ∧ f a s₁ = (.ok b, s') := by
  rcases h : m s with ⟨e | a, s₁⟩
  · rw [bind_error h]
    exact ⟨nofun, nofun⟩
  · rw [bind_ok h]
    constructor
    · intro hf
      exact ⟨a, s₁, rfl, hf⟩
    · rintro ⟨a', s₂, he, hf⟩
      cases he
      exact hf

theorem pure_apply : (pure a : ExceptT ε (StateM σ) α) s = (.ok a, s) := rfl

theorem apply_of_toOption (h : (m s).1.toOption = some a) : m s = (.ok a, (m s).2) :=
  Prod.ext (eq_ok_of_toOption h) rfl

theorem exists_of_isOk (h : (m s).1.isOk = true) : ∃ a s', m s = (.ok a, s') := by
  rcases hm : m s with ⟨e | a, s'⟩
  · rw [hm] at h
    cases h
  · exact ⟨a, s', rfl⟩

end Steps

namespace Logged
open Steps
variable {ε α β : Type} {m : Logged ε α} {f : α → Logged ε β} {a : α} {b : β}

/-- That a computation returns this value, whatever was reported before. -/
def Returns (m : Logged ε α) (a : α) : Prop := ∀ es, ∃ es', m es = (Except.ok a, es')

/-- That a computation fails, whatever was reported before. -/
def Fails (m : Logged ε α) : Prop := ∀ es, ∃ e es', m es = (Except.error e, es')

theorem returns_pure : Returns (pure a : Logged ε α) a := fun es => ⟨es, rfl⟩

theorem Returns.bind (hm : Returns m a) (hf : Returns (f a) b) : Returns (m >>= f) b := by
  intro es
  obtain ⟨es₁, h₁⟩ := hm es
  obtain ⟨es₂, h₂⟩ := hf es₁
  exact ⟨es₂, (bind_ok h₁).trans h₂⟩

theorem Fails.bind (hm : Fails m) : Fails (m >>= f) := by
  intro es
  obtain ⟨e, es₁, h⟩ := hm es
  exact ⟨e, es₁, bind_error h⟩

theorem Returns.fails (hm : Returns m a) (hf : Fails (f a)) : Fails (m >>= f) := by
  intro es
  obtain ⟨es₁, h₁⟩ := hm es
  obtain ⟨e, es₂, h₂⟩ := hf es₁
  exact ⟨e, es₂, (bind_ok h₁).trans h₂⟩

theorem Returns.collect (h : Returns m a) : (collect m).1 = .ok a := by
  obtain ⟨es, he⟩ := h []
  change (m []).1 = _
  rw [he]

theorem Fails.collect (h : Fails m) : ∀ a, (collect m).1 ≠ .ok a := by
  obtain ⟨e, es, he⟩ := h []
  intro a
  change (m []).1 ≠ _
  rw [he]
  nofun

end Logged

end WitCaller
