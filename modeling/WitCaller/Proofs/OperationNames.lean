import Mathlib
import WitCaller.Proofs.ParameterNames

/-!
The names under which operations are called. Snake case and Pascal case drop the hyphens of a name, but
words that start with a letter in lower case are told apart by the underscores or the capitals that are
left. So the function of a stub is known by its operation and kind, and the variant of a request by its
operation.
-/

namespace WitCaller

namespace Text
variable {sep c : Char} {a b s t : List Char}

theorem splitOn_eq (sep : Char) (s : List Char) : splitOn sep s = s.splitOn sep := by
  induction s with
  | nil => rfl
  | cons c s ih =>
    obtain ⟨p, ps, hps⟩ := List.exists_cons_of_ne_nil (splitOn_ne_nil sep s)
    have hrest : s.splitOnP (· == sep) = p :: ps := ih.symm.trans hps
    rw [splitOn, hps, List.splitOn, List.splitOnP_cons_eq_if_modifyHead, hrest, List.modifyHead_cons]
    by_cases hc : c = sep
    · rw [if_pos hc, if_pos (beq_iff_eq.2 hc)]
    · rw [if_neg hc, if_neg (by simpa using hc)]

/-- A text is known by its parts. -/
theorem splitOn_inj (h : splitOn sep s = splitOn sep t) : s = t := by
  rw [splitOn_eq, splitOn_eq] at h
  have hs : [sep].intercalate (s.splitOn sep) = s := List.intercalate_splitOn sep
  rw [← hs, h, List.intercalate_splitOn]

theorem afterLast_append_cons (h : sep ∉ b) : afterLast sep (a ++ sep :: b) = b := by
  have hb : ∀ c ∈ b.reverse, decide (c ≠ sep) = true := fun c hc =>
    decide_eq_true fun he => h (he ▸ List.mem_reverse.1 hc)
  rw [afterLast, List.reverse_append, List.reverse_cons, List.append_assoc, List.singleton_append,
    List.takeWhile_append_of_pos hb, List.takeWhile_cons_of_neg (by simp), List.append_nil,
    List.reverse_reverse]

/-- What holds of the letters and digits among the first codes holds of all of them. -/
theorem of_isAlphanum {p : Char → Prop}
    (h : ∀ n < 123, (Char.ofNat n).isAlphanum = true → p (Char.ofNat n)) (hc : c.isAlphanum = true) : p c := by
  have hcode := h c.toNat (Nat.lt_succ_of_le (toNat_of_isAlphanum hc).2)
  rw [Char.ofNat_toNat] at hcode
  exact hcode hc

theorem capital_of_isAlphanum (hc : c.isAlphanum = true) : capital c = [c.toUpper] :=
  of_isAlphanum (p := fun c => capital c = [c.toUpper]) (by decide +kernel) hc

/-- The parts of a text that start at its capitals. -/
def humps (s : List Char) : List (List Char) := s.splitBy fun _ c => !c.isUpper

theorem humps_flatten {ws : List (List Char)} (h : ∀ w ∈ ws, ∃ c r, w = c :: r ∧ c.isUpper = true ∧
    ∀ d ∈ r, d.isUpper = false) : humps ws.flatten = ws := by
  refine List.splitBy_flatten ?_ (fun w hw => ?_) (List.Pairwise.isChain ?_)
  · intro hnil
    obtain ⟨c, r, he, -⟩ := h [] hnil
    cases he
  · obtain ⟨c, r, rfl, -, hr⟩ := h w hw
    refine List.Pairwise.isChain (List.pairwise_cons.2 ⟨fun d hd => ?_, ?_⟩)
    · rw [hr d hd, Bool.not_false]
    · exact List.pairwise_of_forall_mem_list fun _ _ d hd => by rw [hr d hd, Bool.not_false]
  · refine List.pairwise_of_forall_mem_list fun v hv w hw => ?_
    obtain ⟨-, -, rfl, -⟩ := h v hv
    obtain ⟨c, r, rfl, hc, -⟩ := h w hw
    exact ⟨List.cons_ne_nil _ _, List.cons_ne_nil _ _, by rw [List.head_cons, hc, Bool.not_true]⟩

end Text

namespace Identifier
open Text
variable {name m n : String} {v w : List Char} {c : Char}

/-- A letter in lower case with such letters and digits after it. -/
def IsWord (w : List Char) : Prop :=
  w.head?.any Char.isLower = true ∧ w.all (fun c => c.isLower || c.isDigit) = true

instance (w : List Char) : Decidable (IsWord w) := inferInstanceAs (Decidable (_ ∧ _))

/-- Words in lower case with single hyphens between them. -/
def IsLowerKebab (name : String) : Prop := ∀ w ∈ splitOn '-' name.toList, IsWord w

instance (name : String) : Decidable (IsLowerKebab name) :=
  inferInstanceAs (Decidable (∀ w ∈ splitOn '-' name.toList, IsWord w))

theorem IsWord.ne_nil (h : IsWord w) : w ≠ [] := by
  rintro rfl
  cases h.1

theorem IsWord.isLower_or_isDigit (h : IsWord w) (hc : c ∈ w) : c.isLower = true ∨ c.isDigit = true :=
  Bool.or_eq_true_iff.1 (List.all_eq_true.1 h.2 c hc)

theorem IsWord.isAlphanum (h : IsWord w) (hc : c ∈ w) : c.isAlphanum = true := by
  rcases h.isLower_or_isDigit hc with h | h
  · simp [Char.isAlphanum, Char.isAlpha, h]
  · simp [Char.isAlphanum, h]

theorem IsWord.not_isUpper (h : IsWord w) (hc : c ∈ w) : c.isUpper = false := by
  rw [← Bool.not_eq_true]
  rcases h.isLower_or_isDigit hc with h | h
  · exact Char.not_isUpper_of_isLower h
  · simp only [Char.isDigit, Char.isUpper] at h ⊢
    grind

theorem IsLowerKebab.isKebab (h : IsLowerKebab name) : IsKebab name :=
  fun w hw => ⟨(h w hw).ne_nil, fun _ => (h w hw).isAlphanum⟩

theorem IsWord.isKebab (h : IsWord name.toList) : IsKebab name := by
  have hhyphen : '-' ∉ name.toList := fun hm => absurd (h.isAlphanum hm) (by decide)
  intro w hw
  rw [splitOn_of_notMem hhyphen, List.mem_singleton] at hw
  exact hw ▸ ⟨h.ne_nil, fun _ => h.isAlphanum⟩

/-- In Pascal case the only capital of a word is its first character. -/
theorem IsWord.capitalize (h : IsWord w) : ∃ c r, capitalize w = c :: r ∧ c.isUpper = true ∧
    (∀ d ∈ r, d.isUpper = false) ∧ c.toLower :: r = w := by
  cases w with
  | nil => exact absurd rfl h.ne_nil
  | cons c r =>
    have hc : c.isLower = true := h.1
    have hupper : c.toUpper.isUpper = true := by
      rw [Char.isUpper_toUpper_eq_isAlpha, Char.isAlpha, hc, Bool.or_true]
    have hlower : c.toUpper.toLower = c := by
      rw [Char.toLower_toUpper_eq_toLower, Char.toLower_eq_of_not_isUpper (Char.not_isUpper_of_isLower hc)]
    refine ⟨c.toUpper, r, ?_, hupper, fun d hd => h.not_isUpper (List.mem_cons_of_mem c hd), by rw [hlower]⟩
    rw [Identifier.capitalize, capital_of_isAlphanum (h.isAlphanum List.mem_cons_self),
      List.singleton_append]

/-- The words of a name are read back from its Pascal case form: they start at the capitals. -/
theorem IsLowerKebab.humps_pascal (h : IsLowerKebab name) :
    (humps (pascal name).toList).map (List.modifyHead Char.toLower) = splitOn '-' name.toList := by
  have hwords : ∀ w ∈ (splitOn '-' name.toList).map Identifier.capitalize, ∃ c r, w = c :: r ∧
      c.isUpper = true ∧ ∀ d ∈ r, d.isUpper = false := by
    refine List.forall_mem_map.2 fun w hw => ?_
    obtain ⟨c, r, he, hc, hr, -⟩ := (h w hw).capitalize
    exact ⟨c, r, he, hc, hr⟩
  rw [pascal, String.toList_ofList, unescape_of_notMem (h.isKebab.notMem (by decide) (by decide)),
    List.flatMap_def, humps_flatten hwords, List.map_map]
  refine (List.map_congr_left fun w hw => ?_).trans (List.map_id _)
  obtain ⟨c, r, he, -, -, hlower⟩ := (h w hw).capitalize
  rw [Function.comp, he, List.modifyHead_cons, hlower, id]

theorem IsLowerKebab.pascal_inj (hm : IsLowerKebab m) (hn : IsLowerKebab n) (h : pascal m = pascal n) :
    m = n := by
  have hwords : splitOn '-' m.toList = splitOn '-' n.toList := by
    rw [← hm.humps_pascal, ← hn.humps_pascal, h]
  exact String.toList_inj.1 (splitOn_inj hwords)

/-- A word has no underscores in snake case. -/
theorem IsWord.underscore_notMem_snake (h : IsWord name.toList) : '_' ∉ (snake name).toList := by
  rw [h.isKebab.toList_snake]
  intro hm
  obtain ⟨c, hc, he⟩ := List.mem_map.1 hm
  have halnum := h.isAlphanum hc
  unfold snakeChar at he
  split at he
  · next hhyphen => exact absurd (hhyphen ▸ halnum) (by decide)
  · exact absurd (he ▸ halnum) (by decide)

end Identifier

/-- Two readings of the same items that agree on which items are the same agree on repetitions. -/
theorem nodup_map_congr {α β γ : Type} {f : α → β} {g : α → γ} {l : List α}
    (h : ∀ a ∈ l, ∀ b ∈ l, f a = f b ↔ g a = g b) : (l.map f).Nodup ↔ (l.map g).Nodup := by
  rw [List.Nodup, List.Nodup, List.pairwise_map, List.pairwise_map]
  exact List.Pairwise.iff_of_mem fun ha hb => not_congr (h _ ha _ hb)

/-- The request that a stub with this plan makes. -/
def StubPlan.request (p : StubPlan) : String := payload p.operation (p.params.map Param.name)

namespace StubReading
open Text
variable {operation : String} {names : List String}

/-- The variant that a request names. -/
def readVariant? (request : String) : Option String := do
  let rest ← request.toList.dropPrefix? "json!(\x7b\"".toList
  let parted ← cut "\": ".toList rest
  return String.ofList parted.1

theorem readVariant?_payload (h : Identifier.IsKebab operation) :
    readVariant? (StubPlan.payload operation names) = some (Identifier.pascal operation) := by
  have hsep : "\": ".toList = ['"', ':', ' '] := by decide
  have hcut (rest : List Char) : cut ['"', ':', ' ']
      ((Identifier.pascal operation).toList ++ (['"', ':', ' '] ++ rest)) =
        some ((Identifier.pascal operation).toList, rest) := cut_append h.quote_not_mem_pascal
  unfold readVariant? StubPlan.payload
  simp only [String.toList_append, List.append_assoc, dropPrefix?_append, hsep, hcut,
    Option.bind_eq_bind, Option.bind_some, String.ofList_toList]
  rfl

end StubReading

namespace Signature
open Identifier Text StubReading
variable {s s' : Signature} {i : Interface}

/-- A signature whose operation is made of words in lower case, and whose kind is one such word. -/
structure IsLower (s : Signature) : Prop where
  operation : IsLowerKebab s.operation
  kind : IsWord s.kind.toList

/-- The kind of call ends at the last underscore but one of the name of a function. -/
theorem IsLower.functionName_inj (h : s.IsLower) (h' : s'.IsLower)
    (he : s.functionName = s'.functionName) : s.operation = s'.operation ∧ s.kind = s'.kind := by
  have hname (g : Signature) : g.functionName.toList =
      ((snake g.operation).toList ++ '_' :: (snake g.kind).toList) ++ "_rpc".toList := by
    have hunderscore : "_".toList = ['_'] := by decide
    simp only [functionName, toString, String.toList_append, hunderscore, List.append_assoc,
      List.singleton_append]
  have hchars := String.toList_inj.2 he
  rw [hname, hname, List.append_cancel_right_eq] at hchars
  have hkind : (snake s.kind).toList = (snake s'.kind).toList := by
    rw [← afterLast_append_cons h.kind.underscore_notMem_snake, hchars,
      afterLast_append_cons h'.kind.underscore_notMem_snake]
  rw [hkind, List.append_cancel_right_eq, String.toList_inj] at hchars
  exact ⟨h.operation.isKebab.snake_inj h'.operation.isKebab hchars,
    h.kind.isKebab.snake_inj h'.kind.isKebab (String.toList_inj.1 hkind)⟩

/-- What each stub has from its own signature all stubs have from the signatures, in order. -/
theorem map_stubs {α : Type} {f : StubPlan → α} {g : Signature → α} {st : StubSettings} {stubs : List Stub}
    (hf : ∀ s ∈ i.signatures, ∀ p, s.Plans st.strict p → f p = g s) (h : i.stubs st = .ok stubs) :
    stubs.map (fun x => f x.plan) = i.signatures.map g := by
  have hmade := (List.forall₂_and_left _ _).2 ⟨fun s hs => hs, Interface.stubs_eq_ok_iff.1 h⟩
  rw [← List.forall₂_eq_eq_eq, List.forall₂_map_left_iff, List.forall₂_map_right_iff]
  exact hmade.flip.imp fun x s ⟨hs, hx⟩ => hf s hs x.plan (collect_stub_eq_ok_iff.1 hx).1

/-- Signatures whose operations are made of words in lower case and whose kinds are such words have one
function only if both are the same, and one variant in their requests only if the operations are. So the
functions of an interface are different from each other exactly if no operation is declared twice with
one kind, and the variants of its requests are exactly if no operation is. -/
theorem dispatched_apart :
    (∀ s s' : Signature, s.IsLower → s'.IsLower →
      (s.functionName = s'.functionName ↔ s.operation = s'.operation ∧ s.kind = s'.kind) ∧
      ∃ v v', (∀ names, readVariant? (StubPlan.payload s.operation names) = some v) ∧
        (∀ names, readVariant? (StubPlan.payload s'.operation names) = some v') ∧
        (v = v' ↔ s.operation = s'.operation)) ∧
    ∀ (i : Interface) (st : StubSettings) (stubs : List Stub), (∀ s ∈ i.signatures, s.IsLower) →
      i.stubs st = .ok stubs →
      ((stubs.map fun x => x.plan.function).Nodup ↔
        (i.signatures.map fun s => (s.operation, s.kind)).Nodup) ∧
      ((stubs.map fun x => readVariant? x.plan.request).Nodup ↔
        (i.signatures.map Signature.operation).Nodup) := by
  have hfunction {s s' : Signature} (h : s.IsLower) (h' : s'.IsLower) :
      s.functionName = s'.functionName ↔ s.operation = s'.operation ∧ s.kind = s'.kind :=
    ⟨h.functionName_inj h', fun ⟨ho, hk⟩ => by rw [functionName, functionName, ho, hk]⟩
  have hvariant {s s' : Signature} (h : s.IsLower) (h' : s'.IsLower) :
      pascal s.operation = pascal s'.operation ↔ s.operation = s'.operation :=
    ⟨h.operation.pascal_inj h'.operation, congrArg pascal⟩
  refine ⟨fun s s' h h' => ⟨hfunction h h', pascal s.operation, pascal s'.operation,
    fun _ => readVariant?_payload h.operation.isKebab,
    fun _ => readVariant?_payload h'.operation.isKebab, hvariant h h'⟩, ?_⟩
  intro i st stubs h hstubs
  constructor
  · rw [map_stubs (f := StubPlan.function) (fun s _ p hp => hp.function) hstubs]
    exact nodup_map_congr fun s hs s' hs' => (hfunction (h s hs) (h s' hs')).trans Prod.mk_inj.symm
  · have hread : ∀ s ∈ i.signatures, ∀ p, s.Plans st.strict p →
        readVariant? p.request = some (pascal s.operation) := fun s hs p hp => by
      rw [StubPlan.request, hp.operation, readVariant?_payload (h s hs).operation.isKebab]
    rw [map_stubs (f := fun p => readVariant? p.request) hread hstubs]
    exact nodup_map_congr fun s hs s' hs' =>
      (Option.some_inj).trans (hvariant (h s hs) (h s' hs'))

/-- Two names of functions of which one goes on where the other ends. -/
theorem dispatched_apart_prefix :
    let short : Signature := ⟨"get", "a", []⟩
    let long : Signature := ⟨"get-a", "rpc", []⟩
    let i : Interface := ⟨.absolute ["k.wit"], [.signature "get-signature-a" "get" "a" [],
      .signature "get-a-signature-rpc" "get-a" "rpc" []]⟩
    short.functionName = "get_a_rpc" ∧ long.functionName = "get_a_rpc_rpc" ∧
      short.functionName ≠ long.functionName ∧ i.signatures = [short, long] ∧
      ∃ stubs, i.stubs {} = .ok stubs ∧ (stubs.map fun x => x.plan.function).Nodup ∧
        (stubs.map fun x => readVariant? x.plan.request).Nodup := by
  intro short long i
  have hshort : short.IsLower := ⟨by decide, by decide⟩
  have hlong : long.IsLower := ⟨by decide, by decide⟩
  have hsignatures : i.signatures = [short, long] := rfl
  have hlower : ∀ s ∈ i.signatures, s.IsLower := by
    rw [hsignatures, List.forall_mem_cons, List.forall_mem_singleton]
    exact ⟨hshort, hlong⟩
  obtain ⟨stubs, hstubs⟩ : ∃ stubs, (i.stubs {}).toOption = some stubs :=
    Option.isSome_iff_exists.1 (by decide +kernel)
  obtain ⟨hfunctions, hvariants⟩ := dispatched_apart.2 i {} stubs hlower (eq_ok_of_toOption hstubs)
  refine ⟨by decide +kernel, by decide +kernel, fun he => ?_, hsignatures, stubs,
    eq_ok_of_toOption hstubs, hfunctions.2 ?_, hvariants.2 ?_⟩
  · have hsame := ((dispatched_apart.1 short long hshort hlong).1.1 he).1
    exact absurd hsame (by decide)
  · rw [hsignatures]
    decide
  · rw [hsignatures]
    decide

end Signature

end WitCaller
