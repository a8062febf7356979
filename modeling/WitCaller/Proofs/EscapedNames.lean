import Mathlib
import WitCaller.Proofs.ParameterNames

/-!
Names of fields with the escape of the interface language before them. As the name of a parameter an
escaped name is the name itself; but the fields that say where a call goes and what it returns are
looked for by their bare names, so there the escape makes parameters of them.
-/

namespace WitCaller

section Narrowed
variable {α : Type} {p q : α → Bool} {l : List α}

/-- A narrower test finds the same item, and leaves the same ones, if the item that the wider test finds
passes it. -/
theorem search_narrowed (hq : ∀ a, q a = true → p a = true) (h : ∀ a, l.find? p = some a → q a = true) :
    l.find? q = l.find? p ∧ l.eraseP q = l.eraseP p := by
  induction l with
  | nil => exact ⟨rfl, rfl⟩
  | cons a l ih =>
    cases hp : p a with
    | true =>
      have hqa : q a = true := h a (List.find?_cons_of_pos hp)
      rw [List.find?_cons_of_pos hp, List.find?_cons_of_pos hqa, List.eraseP_cons_of_pos hp,
        List.eraseP_cons_of_pos hqa]
      exact ⟨rfl, rfl⟩
    | false =>
      have hpa : ¬ p a = true := Bool.eq_false_iff.1 hp
      have hqa : ¬ q a = true := mt (hq a) hpa
      rw [List.find?_cons_of_neg hpa] at h
      rw [List.find?_cons_of_neg hpa, List.find?_cons_of_neg hqa, List.eraseP_cons_of_neg hpa,
        List.eraseP_cons_of_neg hqa]
      exact (ih h).imp_right (congrArg (a :: ·))

end Narrowed

/-- The field with its name escaped. -/
def Field.escaped (f : Field) : Field := { f with name := "%" ++ f.name }

namespace Identifier
variable {name : String}

theorem snake_escaped (h : IsKebab name) : snake ("%" ++ name) = snake name := by
  rw [snake, snake, String.toList_append, unescape_of_notMem (h.notMem (by decide) (by decide))]
  rfl

theorem rust_escaped (h : IsKebab name) : rust ("%" ++ name) = rust name := by
  rw [rust, rust, snake_escaped h]

/-- The name without its escape. -/
def bare (name : String) : String := String.ofList (unescape name.toList)

/-- A kebab-case name, as it is or escaped. -/
def IsLabel (name : String) : Prop := IsKebab (bare name)

instance (name : String) : Decidable (IsLabel name) := inferInstanceAs (Decidable (IsKebab (bare name)))

theorem isLabel_iff : IsLabel name ↔ IsKebab name ∨ ∃ m, IsKebab m ∧ name = "%" ++ m := by
  have hplain {m : String} (hm : IsKebab m) : bare m = m := by
    rw [bare, unescape_of_notMem (hm.notMem (by decide) (by decide)), String.ofList_toList]
  constructor
  · intro h
    by_cases hescaped : ∃ r, name.toList = '%' :: r
    · obtain ⟨r, hr⟩ := hescaped
      have hbare : (bare name).toList = r := by
        rw [bare, hr, String.toList_ofList, unescape]
      have hname : name = "%" ++ bare name := by
        rw [← String.toList_inj, String.toList_append, hbare, hr]
        rfl
      exact .inr ⟨_, h, hname⟩
    · have hname : bare name = name := by
        rw [bare, unescape.eq_2 _ fun r hr => hescaped ⟨r, hr⟩, String.ofList_toList]
      exact .inl (hname ▸ h)
  · rintro (h | ⟨m, hm, rfl⟩)
    · rw [IsLabel, hplain h]
      exact h
    · have hescaped : unescape ("%" ++ m).toList = m.toList := by
        rw [String.toList_append]
        rfl
      rw [IsLabel, bare, hescaped, String.ofList_toList]
      exact hm

theorem IsLabel.mem_cases {c : Char} (h : IsLabel name) (hc : c ∈ name.toList) :
    c.isAlphanum = true ∨ c = '-' ∨ c = '%' := by
  rcases isLabel_iff.1 h with hk | ⟨m, hm, rfl⟩
  · exact (hk.isAlphanum hc).imp_right .inl
  · rw [String.toList_append] at hc
    rcases List.mem_cons.1 hc with rfl | hc
    · exact .inr (.inr rfl)
    · exact (hm.isAlphanum hc).imp_right .inl

/-- The Rust names of a name are those that it has without its escape. -/
theorem IsLabel.snake_bare (h : IsLabel name) : snake (bare name) = snake name := by
  have hpercent : '%' ∉ (bare name).toList := IsKebab.notMem h (by decide) (by decide)
  rw [snake, unescape_of_notMem hpercent, bare, String.toList_ofList, snake]

theorem IsLabel.pascal_bare (h : IsLabel name) : pascal (bare name) = pascal name := by
  have hpercent : '%' ∉ (bare name).toList := IsKebab.notMem h (by decide) (by decide)
  rw [pascal, unescape_of_notMem hpercent, bare, String.toList_ofList, pascal]

end Identifier

namespace Signature
open Steps
variable {s s' : Signature} {strict : Bool} {marked : Finset ℕ} {st : StubSettings} {p : StubPlan}
  {f : Field} {test : Field → Bool} {l : List (Field × ℕ)} {x : Field × ℕ} {i : ℕ}

theorem name_escaped_ne {name : String} (h : name.toList.head? ≠ some '%') : f.escaped.name ≠ name := by
  rintro rfl
  rw [Field.escaped, String.toList_append] at h
  exact h rfl

theorem isTarget_escaped (f : Field) : isTarget f.escaped = false :=
  beq_eq_false_iff_ne.2 (name_escaped_ne (by decide))

theorem isReturning_escaped (f : Field) : isReturning f.escaped = false :=
  beq_eq_false_iff_ne.2 (name_escaped_ne (by decide))

/-- A field at a position, escaped if the position is marked. -/
def escapedAt (marked : Finset ℕ) (x : Field × ℕ) : Field := if x.2 ∈ marked then x.1.escaped else x.1

/-- The signature with the names of the fields at the marked positions escaped. -/
def escape (marked : Finset ℕ) (s : Signature) : Signature :=
  { s with fields := s.fields.zipIdx.map (escapedAt marked) }

/-- That the field at a position is none of the parameters: it is the first target, or the first that
says what is returned. -/
def IsControl (s : Signature) (i : ℕ) : Prop :=
  s.fields.findIdx? isTarget = some i ∨ s.fields.findIdx? isReturning = some i

instance (s : Signature) (i : ℕ) : Decidable (s.IsControl i) := inferInstanceAs (Decidable (_ ∨ _))

theorem map_fst_zipIdx (fields : List Field) : fields.zipIdx.map Prod.fst = fields :=
  List.zipIdx_map_fst 0 fields

/-- What is looked for by bare names is a field that is not escaped. -/
theorem test_escapedAt (htest : ∀ f : Field, test f.escaped = false) :
    test (escapedAt marked x) = true ↔ x.2 ∉ marked ∧ test x.1 = true := by
  unfold escapedAt
  split
  · next hx => simp [hx, htest]
  · next hx => simp [hx]

theorem findIdx?_of_find? {fields : List Field} (h : fields.zipIdx.find? (test ∘ Prod.fst) = some x) :
    fields.findIdx? test = some x.2 := by
  rw [List.findIdx?_eq_fst_find?_zipIdx]
  exact congrArg (Option.map Prod.snd) h

section Unmarked
variable (htest : ∀ f : Field, test f.escaped = false)
  (hfree : ∀ x, l.find? (test ∘ Prod.fst) = some x → x.2 ∉ marked)
include htest hfree

theorem search_escapedAt : l.find? (test ∘ escapedAt marked) = l.find? (test ∘ Prod.fst) ∧
    l.eraseP (test ∘ escapedAt marked) = l.eraseP (test ∘ Prod.fst) := by
  refine search_narrowed (fun x hx => ((test_escapedAt htest).1 hx).2) fun x hx => ?_
  have hpass : (test ∘ Prod.fst) x = true := List.find?_some hx
  exact (test_escapedAt htest).2 ⟨hfree x hx, hpass⟩

theorem find?_map_escapedAt : (l.map (escapedAt marked)).find? test = (l.map Prod.fst).find? test := by
  rw [List.find?_map, List.find?_map, (search_escapedAt htest hfree).1]
  cases hx : l.find? (test ∘ Prod.fst) with
  | none => rfl
  | some x => exact congrArg some (if_neg (hfree x hx))

theorem eraseP_map_escapedAt : (l.map (escapedAt marked)).eraseP test =
    (l.eraseP (test ∘ Prod.fst)).map (escapedAt marked) := by
  rw [List.eraseP_map, (search_escapedAt htest hfree).2]

end Unmarked

section Fields
variable (hfree : ∀ i ∈ marked, ¬ s.IsControl i)
include hfree

theorem target?_escape : (s.escape marked).target? = s.target? := by
  have h := find?_map_escapedAt (l := s.fields.zipIdx) isTarget_escaped
    fun x hx hmem => hfree x.2 hmem (.inl (findIdx?_of_find? hx))
  rwa [map_fst_zipIdx] at h

theorem returning?_escape : (s.escape marked).returning? = s.returning? := by
  have h := find?_map_escapedAt (l := s.fields.zipIdx) isReturning_escaped
    fun x hx hmem => hfree x.2 hmem (.inr (findIdx?_of_find? hx))
  rwa [map_fst_zipIdx] at h

/-- The parameters are the same fields, some of them escaped. -/
theorem exists_params_escape : ∃ l, l ⊆ s.fields.zipIdx ∧ s.params = l.map Prod.fst ∧
    (s.escape marked).params = l.map (escapedAt marked) := by
  refine ⟨(s.fields.zipIdx.eraseP (isTarget ∘ Prod.fst)).eraseP (isReturning ∘ Prod.fst),
    fun x hx => List.mem_of_mem_eraseP (List.mem_of_mem_eraseP hx), ?_, ?_⟩
  · rw [params, ← List.eraseP_map, ← List.eraseP_map, map_fst_zipIdx]
  · rw [params, escape, eraseP_map_escapedAt isTarget_escaped
      fun x hx hmem => hfree x.2 hmem (.inl (findIdx?_of_find? hx))]
    refine eraseP_map_escapedAt isReturning_escaped fun x hx hmem => ?_
    have hfirst := (find?_eraseP fun y => isReturning_of_isTarget).symm.trans hx
    exact hfree x.2 hmem (.inr (findIdx?_of_find? hfirst))

end Fields

/-- A parameter is declared by the Rust name of its field. -/
theorem rustParams_escapedAt (h : ∀ x ∈ l, x.2 ∈ marked → Identifier.IsKebab x.1.name) :
    rustParams strict (l.map (escapedAt marked)) = rustParams strict (l.map Prod.fst) := by
  have hfield (x : Field × ℕ) (hx : x.2 ∈ marked → Identifier.IsKebab x.1.name) :
      Identifier.rust (escapedAt marked x).name = Identifier.rust x.1.name ∧
      (escapedAt marked x).type = x.1.type := by
    unfold escapedAt
    split
    · next hmem => exact ⟨Identifier.rust_escaped (hx hmem), rfl⟩
    · exact ⟨rfl, rfl⟩
  induction l with
  | nil => rfl
  | cons x l ih =>
    obtain ⟨hhead, htail⟩ := List.forall_mem_cons.1 h
    obtain ⟨hname, htype⟩ := hfield x hhead
    rw [List.map_cons, List.map_cons, rustParams, rustParams, hname, htype, ih htail]

/-- A plan is made from the control fields and the declared parameters. -/
theorem plan_congr (ho : s'.operation = s.operation) (hk : s'.kind = s.kind)
    (ht : s'.target? = s.target?) (hr : s'.returning? = s.returning?)
    (hp : rustParams strict s'.params = rustParams strict s.params) : s'.plan strict = s.plan strict := by
  rw [plan, plan, route, route, result, result, functionName, functionName, isHttp, isHttp, ht, hr, hp, ho,
    hk]

theorem plan_escape (hk : ∀ i ∈ marked, ∃ f, s.fields[i]? = some f ∧ Identifier.IsKebab f.name)
    (hfree : ∀ i ∈ marked, ¬ s.IsControl i) : (s.escape marked).plan strict = s.plan strict := by
  obtain ⟨l, hl, hparams, hescaped⟩ := exists_params_escape hfree
  refine plan_congr rfl rfl (target?_escape hfree) (returning?_escape hfree) ?_
  rw [hparams, hescaped]
  refine rustParams_escapedAt fun x hx hmem => ?_
  obtain ⟨f, hf, hkebab⟩ := hk x.2 hmem
  rw [List.mem_zipIdx_iff_getElem?.1 (hl hx)] at hf
  cases hf
  exact hkebab

/-- The stub shows no more of a signature than its plan. -/
theorem stub_congr (h : s'.plan st.strict = s.plan st.strict) : s'.stub st = s.stub st := by
  rw [stub, stub, h]

theorem length_eraseP_add {α : Type} (q : α → Bool) (l : List α) :
    (l.eraseP q).length + (l.find? q).isSome.toNat = l.length := by
  induction l with
  | nil => rfl
  | cons a l ih =>
    cases ha : q a with
    | true => rw [List.eraseP_cons_of_pos ha, List.find?_cons_of_pos ha]; rfl
    | false =>
      have hneg : ¬ q a = true := Bool.eq_false_iff.1 ha
      rw [List.eraseP_cons_of_neg hneg, List.find?_cons_of_neg hneg, List.length_cons, List.length_cons, ← ih,
        Nat.add_right_comm]

theorem length_params (s : Signature) :
    s.params.length + s.returning?.isSome.toNat + s.target?.isSome.toNat = s.fields.length := by
  have hreturning : (s.fields.eraseP isTarget).find? isReturning = s.returning? :=
    find?_eraseP fun _ => isReturning_of_isTarget
  rw [params, ← hreturning, length_eraseP_add, target?, length_eraseP_add]

/-- A control field that is found after all was there and is not escaped. -/
theorem exists_of_find?_escape (htest : ∀ f : Field, test f.escaped = false)
    (h : ((s.escape marked).fields.find? test).isSome = true) :
    ∃ i f, i ∉ marked ∧ s.fields[i]? = some f ∧ test f = true := by
  obtain ⟨g, hg⟩ := Option.isSome_iff_exists.1 h
  obtain ⟨x, hx, rfl⟩ := List.mem_map.1 (List.mem_of_find?_eq_some hg)
  obtain ⟨hmem, hpass⟩ := (test_escapedAt htest).1 (List.find?_some hg)
  exact ⟨x.2, x.1, hmem, List.mem_zipIdx_iff_getElem?.1 hx, hpass⟩

theorem isSome_find?_of_escape (htest : ∀ f : Field, test f.escaped = false)
    (h : ((s.escape marked).fields.find? test).isSome = true) : (s.fields.find? test).isSome = true := by
  obtain ⟨i, f, -, hf, hpass⟩ := exists_of_find?_escape htest h
  exact List.find?_isSome.2 ⟨f, List.mem_of_getElem? hf, hpass⟩

/-- If there are as many parameters as before, no control field has become one. -/
theorem isSome_of_length_params (h : (s.escape marked).params.length = s.params.length) :
    (s.target?.isSome = true → (s.escape marked).target?.isSome = true) ∧
      (s.returning?.isSome = true → (s.escape marked).returning?.isSome = true) := by
  have hfields : (s.escape marked).fields.length = s.fields.length := by
    rw [escape, List.length_map, List.length_zipIdx]
  have hsum : s.returning?.isSome.toNat + s.target?.isSome.toNat =
      (s.escape marked).returning?.isSome.toNat + (s.escape marked).target?.isSome.toNat := by
    have hbefore := length_params s
    have hafter := length_params (s.escape marked)
    omega
  have hcount : ∀ r t r' t' : Bool, (r' = true → r = true) → (t' = true → t = true) →
      r.toNat + t.toNat = r'.toNat + t'.toNat → (t = true → t' = true) ∧ (r = true → r' = true) := by
    decide
  exact hcount _ _ _ _ (isSome_find?_of_escape isReturning_escaped)
    (isSome_find?_of_escape isTarget_escaped) hsum

/-- Of fields with different names only one can be the control field. -/
theorem notMem_of_isSome (hd : (s.fields.map Field.name).Nodup) (htest : ∀ f : Field, test f.escaped = false)
    (hname : ∀ f g, test f = true → test g = true → f.name = g.name)
    (hkept : (s.fields.find? test).isSome = true → ((s.escape marked).fields.find? test).isSome = true)
    (hi : s.fields.findIdx? test = some i) : i ∉ marked := by
  obtain ⟨hlt, hfirst, -⟩ := List.findIdx?_eq_some_iff_getElem.1 hi
  obtain ⟨j, g, hj, hg, hpass⟩ := exists_of_find?_escape htest
    (hkept (List.find?_isSome.2 ⟨_, List.getElem_mem hlt, hfirst⟩))
  have hij : i = j := by
    refine (List.getElem?_inj (by simpa using hlt) hd).1 ?_
    rw [List.getElem?_map, List.getElem?_map, List.getElem?_eq_getElem hlt, hg]
    exact congrArg some (hname _ _ hfirst hpass)
  exact hij ▸ hj

/-- Escaped kebab-case names leave the plan of a signature and its stub as they are if none of them is
the name of a control field; and when a signature whose fields have different names has a plan, only
then. -/
theorem escape_leaves_plan
    (hk : ∀ i ∈ marked, ∃ f, s.fields[i]? = some f ∧ Identifier.IsKebab f.name) :
    ((∀ i ∈ marked, ¬ s.IsControl i) → (s.escape marked).plan strict = s.plan strict ∧
      ∀ st, (s.escape marked).stub st = s.stub st) ∧
    ((s.fields.map Field.name).Nodup → ∀ p, (s.plan strict).collect.1 = .ok p →
      (((s.escape marked).plan strict).collect.1 = .ok p ↔ ∀ i ∈ marked, ¬ s.IsControl i)) := by
  refine ⟨fun hfree => ⟨plan_escape hk hfree, fun st => stub_congr (plan_escape hk hfree)⟩,
    fun hd p hp => ⟨fun hp' i hi => ?_, fun hfree => (plan_escape hk hfree).symm ▸ hp⟩⟩
  have hlength : (s.escape marked).params.length = s.params.length :=
    (collect_plan_eq_ok_iff.1 hp').params.length_eq.trans (collect_plan_eq_ok_iff.1 hp).params.length_eq.symm
  obtain ⟨htarget, hreturning⟩ := isSome_of_length_params hlength
  have hname (name : String) (f g : Field) (hf : (f.name == name) = true) (hg : (g.name == name) = true) :
      f.name = g.name := (beq_iff_eq.1 hf).trans (beq_iff_eq.1 hg).symm
  rintro (hcontrol | hcontrol)
  · exact notMem_of_isSome hd isTarget_escaped (hname _) htarget hcontrol hi
  · exact notMem_of_isSome hd isReturning_escaped (hname _) hreturning hcontrol hi

/-- The escape before a parameter changes nothing; before the target it makes a parameter of it, and the
call gets a routing parameter as if there were no target. -/
theorem escape_leaves_plan_key :
    let s : Signature := ⟨"get", "remote", [⟨"target", "string"⟩, ⟨"key", "u8"⟩]⟩
    (∀ i ∈ ({1} : Finset ℕ), ¬ s.IsControl i) ∧ (s.escape {1}).plan false = s.plan false ∧
      (∀ st, (s.escape {1}).stub st = s.stub st) ∧
      ∃ p, (s.plan false).collect.1 = .ok p ∧ p.target = some "&str" ∧ p.params = [⟨"key", "u8"⟩] ∧
        ((s.escape {0}).plan false).collect.1 ≠ .ok p ∧
        ((s.escape {0}).plan false).collect.1 = .ok { p with
          target := some "&Address", params := [⟨"target", "String"⟩, ⟨"key", "u8"⟩] } := by
  intro s
  have hkebab : ∀ m : ℕ, m < 2 → ∀ i ∈ ({m} : Finset ℕ), ∃ f, s.fields[i]? = some f ∧
      Identifier.IsKebab f.name := by
    intro m hm i hi
    rw [Finset.mem_singleton.1 hi]
    match m, hm with
    | 0, _ => exact ⟨_, rfl, by decide⟩
    | 1, _ => exact ⟨_, rfl, by decide⟩
  have hfree : ∀ i ∈ ({1} : Finset ℕ), ¬ s.IsControl i := by decide
  have hcontrol : ¬ ∀ i ∈ ({0} : Finset ℕ), ¬ s.IsControl i := by decide
  let p : StubPlan := ⟨"get", "remote", "get_remote_rpc", some "&str", [⟨"key", "u8"⟩], "()"⟩
  have hp : (s.plan false).collect.1 = .ok p := eq_ok_of_toOption (by decide +kernel)
  have hsame : (s.escape {1}).plan false = s.plan false ∧ ∀ st, (s.escape {1}).stub st = s.stub st :=
    (escape_leaves_plan (hkebab 1 (by decide))).1 hfree
  have hchanged : ((s.escape {0}).plan false).collect.1 ≠ .ok p := fun h =>
    hcontrol (((escape_leaves_plan (hkebab 0 (by decide))).2 (by decide) p hp).1 h)
  exact ⟨hfree, hsame.1, hsame.2, p, hp, rfl, rfl, hchanged, eq_ok_of_toOption (by decide +kernel)⟩

end Signature

end WitCaller
