import Mathlib
import WitCaller.Proofs.Steps
import WitCaller.TypeExpr.Rust

/-!
Strict and lenient reading beside each other. Both go through a type in the same order; where the
lenient reading warns, the strict one stops with the text of the warning. So the strict reading
returns exactly what the lenient one returns without a warning, and it fails with the first thing
that the lenient reading has to say.
-/

namespace WitCaller.Logged
open Steps

variable {α β : Type}

/-- The warnings among some reports. -/
def warnings (es : List Entry) : List Entry := es.filter (·.level = .warning)

theorem warnings_eq_self {es : List Entry} (h : ∀ e ∈ es, e.level = .warning) :
    warnings es = es := by
  apply List.filter_eq_self.2
  intro e he
  exact decide_eq_true (h e he)

/-- How a strict run ends, `y`, where the lenient one has the warnings `ws` and ends with `x`. -/
inductive Stricter : List Entry → Except TypeSyntaxError α → Except TypeSyntaxError α → Prop
  | quiet (x : Except TypeSyntaxError α) : Stricter [] x x
  | warned {w : Entry} {ws : List Entry} {x : Except TypeSyntaxError α} {e : TypeSyntaxError}
      (h : e.message = w.message) : Stricter (w :: ws) x (.error e)

/-- That the first computation is the second one made strict: it reports nothing, and stops where the
second one has its first warning. -/
def Tightens (strict lenient : Logged TypeSyntaxError α) : Prop :=
  ∀ es, ∃ x y ws, lenient es = (x, es ++ ws) ∧ strict es = (y, es) ∧
    (∀ w ∈ ws, w.level = .warning) ∧ Stricter ws x y

theorem tightens_of_apply {m : Logged TypeSyntaxError α} {x : Except TypeSyntaxError α}
    (h : ∀ es, m es = (x, es)) : Tightens m m := by
  intro es
  have hl : m es = (x, es ++ []) := by rw [h, List.append_nil]
  exact ⟨x, x, [], hl, h es, nofun, .quiet x⟩

theorem tightens_pure (a : α) : Tightens (pure a : Logged TypeSyntaxError α) (pure a) :=
  tightens_of_apply fun _ => rfl

theorem tightens_throw (e : TypeSyntaxError) :
    Tightens (throw e : Logged TypeSyntaxError α) (throw e) :=
  tightens_of_apply fun _ => rfl

theorem Tightens.bind {m m' : Logged TypeSyntaxError α} {f f' : α → Logged TypeSyntaxError β}
    (hm : Tightens m m') (hf : ∀ a, Tightens (f a) (f' a)) : Tightens (m >>= f) (m' >>= f') := by
  intro es
  obtain ⟨x, y, ws, hl, hs, hw, hxy⟩ := hm es
  cases hxy with
  | quiet =>
    rw [List.append_nil] at hl
    cases x with
    | error e => exact ⟨_, _, [], by rw [bind_error hl, List.append_nil], bind_error hs, nofun, .quiet _⟩
    | ok a =>
      obtain ⟨x, y, ws, hl', hs', hw', hxy⟩ := hf a es
      exact ⟨x, y, ws, (bind_ok hl).trans hl', (bind_ok hs).trans hs', hw', hxy⟩
  | @warned w ws _ e he =>
    -- The strict run is over; whatever the lenient one goes on to say comes after `w`.
    have hstop := bind_error (f := f) hs
    cases x with
    | error e' => exact ⟨_, _, w :: ws, bind_error hl, hstop, hw, .warned he⟩
    | ok a =>
      obtain ⟨x, y, ws', hl', -, hw', -⟩ := hf a (es ++ w :: ws)
      have hboth : (m' >>= f') es = (x, es ++ w :: (ws ++ ws')) := by
        rw [bind_ok hl, hl', List.append_assoc, List.cons_append]
      exact ⟨x, _, w :: (ws ++ ws'), hboth, hstop, List.forall_mem_append.2 ⟨hw, hw'⟩, .warned he⟩

/-- The outcomes of a strict and a lenient run, seen from outside. -/
theorem Tightens.collect {strict lenient : Logged TypeSyntaxError α} (h : Tightens strict lenient) :
    Stricter (warnings lenient.collect.2) lenient.collect.1 strict.collect.1 := by
  obtain ⟨x, y, ws, hl, hs, hw, hxy⟩ := h []
  have hlenient : lenient.collect = (x, ws) := hl
  have hstrict : strict.collect = (y, []) := hs
  rwa [hlenient, hstrict, warnings_eq_self hw]

theorem Stricter.ok_iff {ws : List Entry} {x y : Except TypeSyntaxError α} (h : Stricter ws x y)
    (a : α) : y = .ok a ↔ x = .ok a ∧ ws = [] := by
  cases h with
  | quiet => exact (and_iff_left rfl).symm
  | warned => exact ⟨nofun, fun h => nomatch h.2⟩

theorem Stricter.of_head? {ws : List Entry} {x y : Except TypeSyntaxError α} (h : Stricter ws x y) :
    ∀ w ∈ ws.head?, ∃ e, y = .error e ∧ e.message = w.message := by
  intro w hw
  cases h with
  | quiet => cases hw
  | @warned w' _ _ e he =>
    obtain rfl : w' = w := Option.some.inj hw
    exact ⟨e, rfl, he⟩

theorem Stricter.of_nil {x y : Except TypeSyntaxError α} (h : Stricter [] x y) : y = x := by
  cases h
  rfl

end WitCaller.Logged

namespace WitCaller.TypeExpr
open Logged

theorem tightens_lax (source : String) (l : Laxity) :
    Tightens (lax true source l) (lax false source l) := by
  intro es
  refine ⟨.ok (), .error ⟨source, .lax l⟩, [⟨.warning, .types, l.message source⟩], rfl, rfl, ?_, ?_⟩
  · exact List.forall_mem_singleton.2 rfl
  · exact .warned rfl

theorem tightens_lax_bind {α : Type} (source : String) (l : Laxity) (a : α) :
    Tightens (do lax true source l; return a) (do lax false source l; return a) :=
  (tightens_lax source l).bind fun _ => tightens_pure a

theorem tightens_rustHead (source name : String) (count : Nat) :
    Tightens (rustHead true source name count) (rustHead false source name count) := by
  unfold rustHead
  split
  -- Four of the shapes are lax; the others do not look at the mode.
  case h_1 | h_2 | h_6 | h_9 => exact tightens_lax_bind _ _ _
  case h_3 | h_4 | h_5 | h_7 | h_8 | h_10 => exact tightens_pure _
  case h_11 =>
    split
    · exact tightens_throw _
    · split
      · exact tightens_throw _
      · split
        · exact tightens_pure _
        · exact tightens_throw _

mutual

theorem tightens_toRust (source : String) (t : TypeExpr) :
    Tightens (toRust true source t) (toRust false source t) := by
  match t with
  | .named name args =>
    rw [toRust, toRust]
    -- The name is looked at before its arguments, in both modes.
    apply (tightens_rustHead source name args.length).bind
    intro head
    apply (tightens_toRustAll source args).bind
    exact fun _ => tightens_pure _
  | .tuple items =>
    rw [toRust, toRust]
    apply (tightens_toRustAll source items).bind
    exact fun _ => tightens_pure _

theorem tightens_toRustAll (source : String) (ts : List TypeExpr) :
    Tightens (toRustAll true source ts) (toRustAll false source ts) := by
  match ts with
  | [] => exact tightens_pure []
  | t :: ts =>
    rw [toRustAll, toRustAll]
    apply (tightens_toRust source t).bind
    intro r
    apply (tightens_toRustAll source ts).bind
    exact fun _ => tightens_pure _

end

theorem tightens_rustText (witType : String) :
    Tightens (rustText true witType) (rustText false witType) := by
  unfold rustText
  -- A text that spells no type is refused before the mode matters.
  have hread : Tightens (ExceptT.mk (pure (read .wit (trimmed witType))) : Logged _ TypeExpr)
      (ExceptT.mk (pure (read .wit (trimmed witType)))) := tightens_of_apply fun _ => rfl
  apply hread.bind
  intro type
  apply (tightens_toRust (trimmed witType) type).bind
  exact fun _ => tightens_pure _

/-- What the strict mode makes of a text, told by the outcome and the warnings of the lenient one. -/
theorem rustText_strict_outcome (witType : String) :
    (∀ r, (rustText true witType).collect.1 = .ok r ↔
      (rustText false witType).collect.1 = .ok r ∧
        warnings (rustText false witType).collect.2 = []) ∧
    (∀ w ∈ (warnings (rustText false witType).collect.2).head?,
      ∃ e, (rustText true witType).collect.1 = .error e ∧ e.message = w.message) ∧
    ∀ e, (rustText false witType).collect.1 = .error e →
      warnings (rustText false witType).collect.2 = [] →
      (rustText true witType).collect.1 = .error e := by
  have h := (tightens_rustText witType).collect
  refine ⟨h.ok_iff, h.of_head?, ?_⟩
  intro e he hw
  rw [hw] at h
  exact h.of_nil.trans he

/-- The warning about the missing key type comes first, although the argument is what fails. -/
theorem rustText_strict_outcome_nested :
    (rustText false "map<list<u8, u8>>").collect.1 =
      .error ⟨"map<list<u8, u8>>", .arity "list" 1 2⟩ ∧
    ∃ e, (rustText true "map<list<u8, u8>>").collect.1 = .error e ∧
      e.message = Laxity.noKeyType.message "map<list<u8, u8>>" := by
  have htrim : trimmed "map<list<u8, u8>>" = "map<list<u8, u8>>" := by
    cbv
  have hread : read .wit "map<list<u8, u8>>" =
      .ok (.named "map" [.named "list" [.named "u8" [], .named "u8" []]]) := by
    cbv
  have hrun : (rustText false "map<list<u8, u8>>").collect =
      (.error ⟨"map<list<u8, u8>>", .arity "list" 1 2⟩,
        [⟨.warning, .types, Laxity.noKeyType.message "map<list<u8, u8>>"⟩]) := by
    rw [rustText, htrim, hread]
    rfl
  have hfirst : ⟨.warning, .types, Laxity.noKeyType.message "map<list<u8, u8>>"⟩ ∈
      (warnings (rustText false "map<list<u8, u8>>").collect.2).head? := by
    rw [hrun]
    rfl
  exact ⟨by rw [hrun], (rustText_strict_outcome "map<list<u8, u8>>").2.1 _ hfirst⟩

end WitCaller.TypeExpr
