import Mathlib
import WitCaller.Proofs.Gathering

/-!
What a stub says, field by field of its signature: a plan is made exactly when every type that it
shows has a Rust type, and then it says what the signature says.
-/

namespace WitCaller

namespace Logged
open Steps
variable {ε ε' α : Type} {m : Logged ε α} {g : ε → ε'}

theorem collect_mapError : (mapError g m).collect.1 = m.collect.1.mapError g := rfl

theorem mapError_eq_ok {x : Except ε α} {a : α} : x.mapError g = .ok a ↔ x = .ok a := by
  cases x <;> simp [Except.mapError]

end Logged

/-- A list is worked through without a failure exactly if each of its items is. -/
theorem mapM_eq_ok_iff {ε α β : Type} {f : α → Except ε β} {l : List α} {r : List β} :
    l.mapM f = .ok r ↔ List.Forall₂ (fun a b => f a = .ok b) l r := by
  induction l generalizing r with
  | nil => simp [pure, Except.pure, eq_comm]
  | cons a l ih =>
    simp only [List.mapM_cons, bind_eq_ok, List.forall₂_cons_left_iff, ih]
    constructor
    · rintro ⟨b, hb, bs, hbs, hr⟩
      cases hr
      exact ⟨b, bs, hb, hbs, rfl⟩
    · rintro ⟨b, bs, hb, hbs, rfl⟩
      exact ⟨b, hb, bs, hbs, rfl⟩

theorem exists_of_mem_right {α β : Type} {R : α → β → Prop} {l : List α} {r : List β} {b : β}
    (h : List.Forall₂ R l r) (hb : b ∈ r) : ∃ a ∈ l, R a b := by
  induction h with
  | nil => cases hb
  | @cons a c l r hac _ ih =>
    rcases List.mem_cons.1 hb with rfl | hb
    · exact ⟨a, List.mem_cons_self, hac⟩
    · obtain ⟨a', ha', hab⟩ := ih hb
      exact ⟨a', List.mem_cons_of_mem _ ha', hab⟩

theorem exists_mem_iff_of_forall₂ {α β : Type} {R : α → β → Prop} {p : α → Prop} {q : β → Prop}
    {l : List α} {r : List β} (h : List.Forall₂ R l r) (hpq : ∀ a b, R a b → (p a ↔ q b)) :
    (∃ a ∈ l, p a) ↔ ∃ b ∈ r, q b := by
  induction h with
  | nil => simp
  | @cons a b l r hab _ ih =>
    rw [List.exists_mem_cons_iff, List.exists_mem_cons_iff, hpq a b hab, ih]

open Logged

namespace Signature
variable {st : StubSettings} {strict : Bool} {s : Signature} {p : StubPlan} {stub : Stub}

/-- The type of the routing parameter: a call that is not made through http always has one. -/
def routing (s : Signature) : Option String :=
  (s.target?.map fun f => routeType f.type).or (if s.isHttp then none else some "&Address")

/-- That a parameter has the Rust name and the Rust type of a field. -/
def Declares (strict : Bool) (f : Field) (q : Param) : Prop :=
  q.name = Identifier.rust f.name ∧ (TypeExpr.rustText strict f.type).collect.1 = .ok q.type

/-- That a plan says what a signature says. -/
structure Plans (strict : Bool) (s : Signature) (p : StubPlan) : Prop where
  operation : p.operation = s.operation
  kind : p.kind = s.kind
  function : p.function = s.functionName
  target : p.target = s.routing
  params : List.Forall₂ (Declares strict) s.params p.params
  result : (s.result strict).collect.1 = .ok p.result

theorem mem_or_find?_iff {p : Field → Bool} {f : Field} {fields : List Field} :
    f ∈ fields.eraseP p ∨ fields.find? p = some f ↔ f ∈ fields := by
  induction fields with
  | nil => simp
  | cons g fields ih =>
    cases hg : p g with
    | true => simp [hg, eq_comm, or_comm]
    | false =>
      rw [List.eraseP_cons, List.find?_cons_of_neg (by simp [hg]), hg, List.mem_cons, ← ih]
      simp [or_assoc]

theorem find?_eraseP {α : Type} {p q : α → Bool} {l : List α} (h : ∀ a, p a = true → q a = false) :
    (l.eraseP p).find? q = l.find? q := by
  induction l with
  | nil => rfl
  | cons a l ih =>
    cases ha : p a with
    | true => rw [List.eraseP_cons, ha, cond_true, List.find?_cons_of_neg (by simp [h a ha])]
    | false => rw [List.eraseP_cons, ha, cond_false, List.find?_cons, List.find?_cons, ih]

theorem isReturning_of_isTarget {f : Field} (h : isTarget f = true) : isReturning f = false := by
  rw [isTarget, beq_iff_eq] at h
  rw [isReturning, h]
  decide

/-- The fields but the first target are the parameters and what is returned. -/
theorem mem_eraseP_isTarget {f : Field} :
    f ∈ s.fields.eraseP isTarget ↔ f ∈ s.params ∨ s.returning? = some f := by
  -- Taking the first target away leaves the first result where it is.
  have hreturning : s.returning? = (s.fields.eraseP isTarget).find? isReturning :=
    (find?_eraseP fun _ => isReturning_of_isTarget).symm
  rw [hreturning, params, mem_or_find?_iff]

theorem collect_route : s.route.collect.1 = .ok s.routing := by
  unfold route routing
  cases s.target? with
  | some f => rfl
  | none =>
    cases s.isHttp with
    | true => rfl
    | false => rfl

theorem collect_rustParams {fields : List Field} {params : List Param} :
    (rustParams strict fields).collect.1 = .ok params ↔
      List.Forall₂ (Declares strict) fields params := by
  induction fields generalizing params with
  | nil =>
    rw [List.forall₂_nil_left_iff]
    exact ⟨fun h => (Except.ok.inj h).symm, fun h => h ▸ rfl⟩
  | cons f fields ih =>
    rw [rustParams, collect_bind fun _ => oblivious_rustParams.bind fun _ => oblivious_pure, bind_eq_ok,
      List.forall₂_cons_left_iff]
    constructor
    · rintro ⟨type, htype, hrest⟩
      rw [collect_bind fun _ => oblivious_pure, bind_eq_ok] at hrest
      obtain ⟨rest, hrest, hparams⟩ := hrest
      cases hparams
      exact ⟨_, rest, ⟨rfl, htype⟩, ih.1 hrest, rfl⟩
    · rintro ⟨⟨name, type⟩, rest, ⟨hname, htype⟩, hrest, rfl⟩
      cases hname
      refine ⟨type, htype, ?_⟩
      rw [collect_bind fun _ => oblivious_pure, ih.2 hrest]
      rfl

theorem collect_plan_eq_ok_iff : (s.plan strict).collect.1 = .ok p ↔ s.Plans strict p := by
  rw [plan, collect_bind fun _ => oblivious_result.bind fun _ => oblivious_rustParams.bind fun _ =>
    oblivious_pure, collect_route]
  change Except.bind (.ok s.routing) _ = _ ↔ _
  rw [Except.bind]
  rw [collect_bind fun _ => oblivious_rustParams.bind fun _ => oblivious_pure, bind_eq_ok]
  constructor
  · rintro ⟨result, hresult, hrest⟩
    rw [collect_bind fun _ => oblivious_pure, bind_eq_ok] at hrest
    obtain ⟨params, hparams, hp⟩ := hrest
    cases hp
    exact ⟨rfl, rfl, rfl, rfl, collect_rustParams.1 hparams, hresult⟩
  · intro h
    obtain ⟨operation, kind, function, target, params, result⟩ := p
    obtain ⟨hoperation, hkind, hfunction, htarget, hparams, hresult⟩ := h
    dsimp only at *
    subst hoperation hkind hfunction htarget
    refine ⟨result, hresult, ?_⟩
    rw [collect_bind fun _ => oblivious_pure, collect_rustParams.2 hparams]
    rfl

/-- A stub shows a plan of its signature. -/
theorem collect_stub_eq_ok_iff : (s.stub st).collect.1 = .ok stub ↔
    s.Plans st.strict stub.plan ∧ stub.plan.code st = .ok stub.code := by
  rw [Signature.stub, collect_bind fun _ => oblivious_mk.bind fun _ => oblivious_pure, bind_eq_ok]
  simp only [collect_mapError, mapError_eq_ok, collect_plan_eq_ok_iff]
  constructor
  · rintro ⟨p, hp, hcode⟩
    rw [collect_bind fun _ => oblivious_pure, bind_eq_ok] at hcode
    obtain ⟨code, hcode, hstub⟩ := hcode
    cases hstub
    exact ⟨hp, hcode⟩
  · rintro ⟨hp, hcode⟩
    refine ⟨stub.plan, hp, ?_⟩
    rw [collect_bind fun _ => oblivious_pure, bind_eq_ok]
    exact ⟨stub.code, hcode, rfl⟩

end Signature

theorem Interface.stubs_eq_ok_iff {st : StubSettings} {i : Interface} {stubs : List Stub} :
    i.stubs st = .ok stubs ↔
      List.Forall₂ (fun s stub => (Signature.stub st s).collect.1 = .ok stub) i.signatures stubs :=
  mapM_eq_ok_iff

theorem Interface.stubs_of_stubs? {st : StubSettings} {i : Interface} {stubs : List Stub}
    (h : i.stubs? st = some stubs) : i.stubs st = .ok stubs := by
  unfold Interface.stubs? at h
  split at h
  · cases h
  · cases hs : i.stubs st with
    | error e =>
      rw [hs] at h
      cases h
    | ok made =>
      rw [hs] at h
      cases h
      rfl

end WitCaller
