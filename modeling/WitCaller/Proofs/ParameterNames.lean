import Mathlib
import WitCaller.Proofs.SignatureNames

/-!
Names of parameters. Different kebab-case names have different Rust names, also when the mark of a raw
name gives way to an underscore. So no stub declares two parameters of one name: the field that would
meet the routing parameter is the routing parameter.
-/

namespace WitCaller

namespace Identifier
variable {c d : Char} {name m n : String}

theorem snakeChar_inj (hc : c ≠ '_') (hd : d ≠ '_') (h : snakeChar c = snakeChar d) : c = d := by
  unfold snakeChar at h
  split at h <;> split at h
  · next hc' hd' => rw [hc', hd']
  · exact absurd h.symm hd
  · exact absurd h hc
  · exact h

theorem map_snakeChar_inj {a b : List Char} (ha : '_' ∉ a) (hb : '_' ∉ b)
    (h : a.map snakeChar = b.map snakeChar) : a = b := by
  induction a generalizing b with
  | nil => exact (List.map_eq_nil_iff.1 h.symm).symm
  | cons c a ih =>
    cases b with
    | nil => cases h
    | cons d b =>
      obtain ⟨hhead, htail⟩ := List.cons.inj h
      rw [List.mem_cons, not_or] at ha hb
      rw [snakeChar_inj (Ne.symm ha.1) (Ne.symm hb.1) hhead, ih ha.2 hb.2 htail]

theorem unescape_of_notMem {s : List Char} (h : '%' ∉ s) : unescape s = s := by
  unfold unescape
  split
  · exact absurd List.mem_cons_self h
  · rfl

theorem IsKebab.toList_snake (h : IsKebab name) :
    (Identifier.snake name).toList = name.toList.map snakeChar := by
  rw [Identifier.snake, String.toList_ofList, unescape_of_notMem (h.notMem (by decide) (by decide))]

theorem IsKebab.snake_inj (hm : IsKebab m) (hn : IsKebab n)
    (h : Identifier.snake m = Identifier.snake n) : m = n := by
  have hchars : m.toList.map snakeChar = n.toList.map snakeChar := by
    rw [← hm.toList_snake, ← hn.toList_snake, h]
  exact String.toList_inj.1 (map_snakeChar_inj (hm.notMem (by decide) (by decide))
    (hn.notMem (by decide) (by decide)) hchars)

theorem IsKebab.hash_notMem_snake (h : IsKebab name) : '#' ∉ (Identifier.snake name).toList := by
  rw [h.toList_snake]
  intro hmem
  obtain ⟨c, hc, he⟩ := List.mem_map.1 hmem
  unfold snakeChar at he
  split at he
  · cases he
  · exact h.notMem (by decide) (by decide) (he ▸ hc)

/-- Without the mark of a raw name the Rust name is the snake case form. -/
theorem IsKebab.unmarked_rust (h : IsKebab name) :
    StubPlan.unmarked (Identifier.rust name) = Identifier.snake name := by
  unfold Identifier.rust
  split
  · have hmark : "r#".toList.isPrefixOf ("r#" ++ Identifier.snake name).toList = true := by
      rw [List.isPrefixOf_iff_prefix, String.toList_append]
      exact List.prefix_append _ _
    rw [StubPlan.unmarked, if_pos hmark, String.toList_append]
    exact String.ofList_toList
  · have hmark : ¬ "r#".toList.isPrefixOf (Identifier.snake name).toList = true := by
      rw [List.isPrefixOf_iff_prefix]
      exact fun hp => h.hash_notMem_snake (hp.subset (by decide))
    rw [StubPlan.unmarked, if_neg hmark]

theorem IsKebab.rust_inj (hm : IsKebab m) (hn : IsKebab n)
    (h : Identifier.rust m = Identifier.rust n) : m = n := by
  refine hm.snake_inj hn ?_
  rw [← hm.unmarked_rust, ← hn.unmarked_rust, h]

end Identifier

namespace StubPlan
open Identifier StubReading
variable {p : StubPlan} {lead name m n : String} {st : StubSettings} {code : String}

/-- The name of a parameter as a stub declares it, with something before it or as it is. -/
def shownName (lead name : String) : String := if lead = "" then name else lead ++ unmarked name

/-- The parameters of a stub, the routing parameter first: the names as declared, and the types. -/
def shownParams (p : StubPlan) : List (String × String) :=
  (p.target.map fun t => (p.lead ++ "target", t)).toList ++
    p.params.map fun q => (shownName p.lead q.name, q.type)

theorem declaredParams_eq : p.declaredParams p.lead = p.shownParams.map fun q => q.1 ++ ": " ++ q.2 := by
  rw [declaredParams, shownParams, List.map_append, List.map_map]
  refine congrArg₂ (· ++ ·) ?_ rfl
  cases p.target with
  | none => rfl
  | some t =>
    have htarget : "target" ++ ": " = "target: " := by decide
    simp only [toString, Option.map_some, Option.toList_some, List.map_cons, List.map_nil, ← htarget,
      String.append_assoc]

theorem shownName_inj (hm : IsKebab m) (hn : IsKebab n)
    (h : shownName lead (rust m) = shownName lead (rust n)) : m = n := by
  unfold shownName at h
  split at h
  · exact hm.rust_inj hn h
  · rw [hm.unmarked_rust, hn.unmarked_rust, ← String.toList_inj, String.toList_append,
      String.toList_append, List.append_cancel_left_eq, String.toList_inj] at h
    exact hm.snake_inj hn h

theorem lead_cases (p : StubPlan) : p.lead = "" ∨ p.lead = "_" := by
  unfold lead
  split
  · exact .inr rfl
  · exact .inl rfl

/-- The routing parameter has the name that a field of its name would have. -/
theorem shownName_target (p : StubPlan) : shownName p.lead (rust "target") = p.lead ++ "target" := by
  rcases p.lead_cases with h | h <;> rw [h] <;> decide +kernel

theorem colon_notMem_shownName (h : IsKebab name) (p : StubPlan) :
    ':' ∉ (shownName p.lead (rust name)).toList := by
  unfold shownName
  split
  · exact h.rust.not_mem (by decide)
  · rw [h.unmarked_rust, String.toList_append, List.mem_append, not_or]
    refine ⟨?_, h.snake.not_mem (by decide)⟩
    rcases p.lead_cases with hlead | hlead <;> rw [hlead] <;> decide

/-- What a stub declares stands in its text. -/
theorem declaration_infix (hhttp : st.templates.httpStub = .ok none) (hrpc : st.templates.rpcStub = .ok none)
    (h : p.code st = .ok code) : (p.declaration p.lead).toList <:+: code.toList := by
  have hline (lead : String) {l : String} {ls : List String} {z : List Char} (hl : (lead ++ l) ∈ ls) :
      l.toList <:+: Text.unlines (ls.map String.toList) ++ z := by
    obtain ⟨before, after, rfl⟩ := List.append_of_mem hl
    simp only [List.map_append, List.map_cons, Text.unlines_append, Text.unlines_cons, String.toList_append]
    exact ⟨Text.unlines (before.map String.toList) ++ lead.toList, _, by simp only [List.append_assoc]; rfl⟩
  unfold StubPlan.code at h
  unfold lead
  split at h
  · next hp =>
    rw [hhttp] at h
    obtain ⟨template, htemplate, h⟩ := bind_eq_ok.1 h
    cases htemplate
    obtain ⟨value, -, h⟩ := bind_eq_ok.1 h
    rw [if_pos hp, ← Except.ok.inj h, toList_httpCode]
    exact hline "// pub async fn " (by simp [httpLines])
  · next hp =>
    rw [hrpc] at h
    rw [if_neg hp, ← Except.ok.inj h, toList_rpcCode]
    exact hline "pub async fn " (by simp [rpcLines])

end StubPlan

namespace Signature
open Identifier StubPlan StubReading
variable {s : Signature} {strict : Bool} {p : StubPlan}

/-- The first target is no parameter, and there is no other if the fields have different names. -/
theorem target_notMem_params (hd : (s.fields.map Field.name).Nodup) : "target" ∉ s.params.map Field.name := by
  have herase : (s.fields.map Field.name).erase "target" = (s.fields.eraseP isTarget).map Field.name := by
    rw [List.erase_eq_eraseP', List.eraseP_map]
    rfl
  have hsub : s.params.map Field.name ⊆ (s.fields.eraseP isTarget).map Field.name :=
    (List.eraseP_sublist.map Field.name).subset
  exact fun h => hd.not_mem_erase (herase ▸ hsub h)

/-- The names that the parameters of a stub are made from, that of the routing parameter first. -/
def paramNames (s : Signature) : List String :=
  (s.routing.map fun _ => "target").toList ++ s.params.map Field.name

theorem nodup_paramNames (hd : (s.fields.map Field.name).Nodup) : s.paramNames.Nodup := by
  have hparams : (s.params.map Field.name).Nodup :=
    hd.sublist ((List.eraseP_sublist.trans List.eraseP_sublist).map Field.name)
  unfold paramNames
  cases s.routing with
  | none => exact hparams
  | some t => exact List.nodup_cons.2 ⟨target_notMem_params hd, hparams⟩

/-- What holds of the names of the fields and of that of the routing parameter holds of all of them. -/
theorem forall_paramNames {P : String → Prop} (htarget : P "target") (hk : ∀ f ∈ s.fields, P f.name) :
    ∀ name ∈ s.paramNames, P name := by
  unfold paramNames
  rw [List.forall_mem_append]
  refine ⟨fun name hname => ?_, List.forall_mem_map.2 fun f hf => hk f (mem_fields_of_mem_params hf)⟩
  obtain ⟨-, -, rfl⟩ := Option.map_eq_some_iff.1 (Option.mem_toList.1 hname)
  exact htarget

theorem isKebab_of_mem_paramNames (hk : ∀ f ∈ s.fields, Identifier.IsKebab f.name) :
    ∀ name ∈ s.paramNames, Identifier.IsKebab name :=
  forall_paramNames (by decide) hk

theorem Plans.map_fst_shownParams (h : s.Plans strict p) :
    p.shownParams.map Prod.fst = s.paramNames.map fun name => shownName p.lead (rust name) := by
  have hparams : p.params.map (fun q => shownName p.lead q.name) =
      s.params.map fun f => shownName p.lead (rust f.name) := by
    rw [← List.forall₂_eq_eq_eq, List.forall₂_map_left_iff, List.forall₂_map_right_iff]
    exact h.params.flip.imp fun q f hq => congrArg (shownName p.lead) hq.1
  rw [shownParams, paramNames, h.target, List.map_append, List.map_append, List.map_map, List.map_map]
  refine congrArg₂ (· ++ ·) ?_ hparams
  cases s.routing with
  | none => rfl
  | some t => exact congrArg (fun name => [name]) p.shownName_target.symm

/-- The names of the parameters of a stub, as they are read from their declarations, are different from
each other if the fields have different names in kebab case; and a stub in the built-in form declares
these parameters. -/
theorem params_nodup (hk : ∀ f ∈ s.fields, Identifier.IsKebab f.name) (hd : (s.fields.map Field.name).Nodup)
    (h : (s.plan strict).collect.1 = .ok p) : ∃ params,
      ((p.declaredParams p.lead).map String.toList).mapM readParam? = some params ∧
      (params.map Prod.fst).Nodup ∧ ∀ st code, st.templates.httpStub = .ok none →
        st.templates.rpcStub = .ok none → p.code st = .ok code →
        (p.declaration p.lead).toList <:+: code.toList := by
  have hnames := (collect_plan_eq_ok_iff.1 h).map_fst_shownParams
  have hkebab := isKebab_of_mem_paramNames hk
  have hcolon : ∀ q ∈ p.shownParams, ':' ∉ q.1.toList := by
    intro q hq
    have hmem : q.1 ∈ p.shownParams.map Prod.fst := List.mem_map_of_mem hq
    rw [hnames] at hmem
    obtain ⟨name, hname, he⟩ := List.mem_map.1 hmem
    exact he ▸ colon_notMem_shownName (hkebab name hname) p
  refine ⟨p.shownParams, ?_, ?_, fun st code => declaration_infix⟩
  · rw [declaredParams_eq, List.map_map]
    exact mapM_readParam?_typed hcolon
  · rw [hnames]
    exact (nodup_paramNames hd).map_on fun m hm n hn => shownName_inj (hkebab m hm) (hkebab n hn)

/-- A keyword, its parts as another name, and a name that only letter case tells from the target; once
with a routing parameter that no field declares, and once without one. -/
theorem params_nodup_keywords :
    let fields : List Field := [⟨"type", "u8"⟩, ⟨"r-type", "string"⟩, ⟨"Target", "list<u8>"⟩]
    (∃ p params, (plan false ⟨"get", "remote", fields⟩).collect.1 = .ok p ∧
      p.declaredParams p.lead = ["target: &Address", "r#type: u8", "r_type: String", "Target: Vec<u8>"] ∧
      ((p.declaredParams p.lead).map String.toList).mapM readParam? = some params ∧
      (params.map Prod.fst).Nodup) ∧
    ∃ p params, (plan false ⟨"get", "http", fields⟩).collect.1 = .ok p ∧
      p.declaredParams p.lead = ["_type: u8", "_r_type: String", "_Target: Vec<u8>"] ∧
      ((p.declaredParams p.lead).map String.toList).mapM readParam? = some params ∧
      (params.map Prod.fst).Nodup := by
  intro fields
  have hkebab : ∀ f ∈ fields, Identifier.IsKebab f.name := by decide
  have hdistinct : (fields.map Field.name).Nodup := by decide
  have hmade (kind : String) (declared : List String)
      (h : (plan false ⟨"get", kind, fields⟩).collect.1.toOption.map (fun p => p.declaredParams p.lead) =
        some declared) : ∃ p params, (plan false ⟨"get", kind, fields⟩).collect.1 = .ok p ∧
      p.declaredParams p.lead = declared ∧
      ((p.declaredParams p.lead).map String.toList).mapM readParam? = some params ∧
      (params.map Prod.fst).Nodup := by
    obtain ⟨p, hp, hdeclared⟩ := Option.map_eq_some_iff.1 h
    have hplan := eq_ok_of_toOption hp
    obtain ⟨params, hread, hnodup, -⟩ := params_nodup hkebab hdistinct hplan
    exact ⟨p, params, hplan, hdeclared, hread, hnodup⟩
  exact ⟨hmade "remote" _ (by decide +kernel), hmade "http" _ (by decide +kernel)⟩

end Signature

end WitCaller
