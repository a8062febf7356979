import Mathlib
import WitCaller.Proofs.StubText

/-!
Reading a stub back from its lines. Commas separate parameters only outside of brackets, which are
balanced in Rust types, so the parameters, the request and the result are found again.
-/

namespace WitCaller

namespace Text
variable {c d : Char} {m a b : List Char}

theorem wideCapitals_letters : ∀ p ∈ wideCapitals, ∀ n ∈ p.2, 0x41 ≤ n := by decide +kernel

theorem caseRuns_letters : ∀ r ∈ caseRuns, 0x41 ≤ (r.1 : Int) + r.2.2.2 := by decide +kernel

theorem letter_ofNat {n : Nat} (h : 0x41 ≤ n) :
    (Char.ofNat n).toNat = 0 ∨ 0x41 ≤ (Char.ofNat n).toNat := by
  rw [Char.toNat_ofNat]
  split
  · exact .inr h
  · exact .inl rfl

/-- A capital form is the character itself or comes after the marks of ASCII. -/
theorem eq_or_letter_of_mem_capital (h : d ∈ capital c) : d = c ∨ d.toNat = 0 ∨ 0x41 ≤ d.toNat := by
  have hruns : ∀ r ∈ caseRuns, ∀ n m, CaseRun.capital? n r = some m → 0x41 ≤ m := by
    rintro ⟨first, count, stride, distance⟩ hr n m hm
    have hstart := caseRuns_letters _ hr
    simp only [CaseRun.capital?, Option.ite_none_right_eq_some, Option.some.injEq] at hm
    obtain ⟨⟨hfirst, -⟩, rfl⟩ := hm
    dsimp only at hstart
    omega
  obtain rfl | ⟨n, hn, rfl⟩ : d = c ∨ ∃ n, 0x41 ≤ n ∧ Char.ofNat n = d :=
    eq_or_ofNat_of_mem_capital wideCapitals_letters hruns h
  · exact .inl rfl
  · exact .inr (letter_ofNat hn)

/-- A text is cut where the first character of the mark first occurs. -/
theorem cut_append (h : c ∉ a) : cut (c :: m) (a ++ (c :: m ++ b)) = some (a, b) := by
  induction a with
  | nil => simp [cut]
  | cons d a ih =>
    rw [List.mem_cons, not_or] at h
    have hprefix : ¬ (c :: m).isPrefixOf (d :: (a ++ (c :: m ++ b))) = true := by
      rw [List.isPrefixOf_iff_prefix, List.cons_prefix_cons]
      exact fun hp => h.1 hp.1
    rw [List.cons_append, cut, if_neg hprefix, ih h.2]
    rfl

/-- How deep in brackets the text after a character is, if the item at its start goes on. -/
def depthAfter? (depth : Nat) (c : Char) : Option Nat :=
  if c = '(' ∨ c = '<' then some (depth + 1)
  else if c = ')' ∨ c = '>' then if depth = 0 then none else some (depth - 1)
  else if c = ',' ∧ depth = 0 then none
  else some depth

/-- A text up to the first comma or closing bracket that is not within brackets, and the rest. -/
def item (depth : Nat) : List Char → List Char × List Char
  | [] => ([], [])
  | c :: r =>
    match depthAfter? depth c with
    | none => ([], c :: r)
    | some deeper => (c :: (item deeper r).1, (item deeper r).2)

theorem length_item_le (depth : Nat) (s : List Char) : (item depth s).2.length ≤ s.length := by
  induction s generalizing depth with
  | nil => exact Nat.le_refl 0
  | cons c r ih =>
    rw [item]
    split
    · exact Nat.le_refl _
    · next deeper _ => exact Nat.le_succ_of_le (ih deeper)

/-- Items with commas and blanks between them, and what follows the last. -/
def items (s : List Char) : List (List Char) × List Char :=
  match _h : (item 0 s).2 with
  | ',' :: ' ' :: r => ((item 0 s).1 :: (items r).1, (items r).2)
  | r => ([(item 0 s).1], r)
termination_by s.length
decreasing_by
  all_goals
    have hlength := length_item_le 0 s
    rw [_h] at hlength
    exact Nat.lt_of_lt_of_le (Nat.lt_succ_of_lt (Nat.lt_succ_self _)) hlength

/-- A text that an item goes over when it starts within at least so many brackets. -/
def Kept (least : Nat) (s : List Char) : Prop :=
  ∀ depth, least ≤ depth → ∀ r, item depth (s ++ r) = (s ++ (item depth r).1, (item depth r).2)

variable {least depth : Nat} {s t r : List Char}

theorem Kept.mono {more : Nat} (h : Kept least s) (hm : least ≤ more) : Kept more s :=
  fun depth hd => h depth (hm.trans hd)

theorem kept_nil : Kept least [] := fun _ _ _ => rfl

theorem Kept.append (hs : Kept least s) (ht : Kept least t) : Kept least (s ++ t) := by
  intro depth hd r
  rw [List.append_assoc, hs depth hd, ht depth hd, List.append_assoc]

theorem kept_of_forall (h : ∀ c ∈ s, ∀ depth, least ≤ depth → depthAfter? depth c = some depth) :
    Kept least s := by
  induction s with
  | nil => exact kept_nil
  | cons c s ih =>
    obtain ⟨hc, hs⟩ := List.forall_mem_cons.1 h
    intro depth hd r
    rw [List.cons_append, item, hc depth hd]
    simp only [ih hs depth hd r, List.cons_append]

/-- An item goes over characters of a class that has neither brackets nor commas. -/
theorem kept_of_class {p : Char → Bool} (hp : (['(', '<', ')', '>', ','].any p) = false)
    (h : ∀ c ∈ s, p c = true) : Kept least s := by
  refine kept_of_forall fun c hc depth _ => ?_
  have hmark : c ∉ ['(', '<', ')', '>', ','] := fun hm => List.any_eq_false.1 hp c hm (h c hc)
  simp only [List.mem_cons, not_or] at hmark
  simp [depthAfter?, hmark]

/-- Brackets keep what is kept within them. -/
theorem Kept.enclosed {opening closing : Char} (ho : opening = '(' ∨ opening = '<')
    (hc : closing = ')' ∨ closing = '>') (h : Kept (least + 1) s) :
    Kept least (opening :: (s ++ [closing])) := by
  intro depth hd r
  have hopen : depthAfter? depth opening = some (depth + 1) := if_pos ho
  have hclose : depthAfter? (depth + 1) closing = some depth := by
    rcases hc with rfl | rfl <;> rfl
  rw [List.cons_append, item, hopen]
  simp only
  rw [List.append_assoc, h (depth + 1) (Nat.succ_le_succ hd), List.singleton_append, item, hclose]
  simp

theorem item_stop (h : Kept 0 s) (hc : depthAfter? 0 c = none) (r : List Char) :
    item 0 (s ++ c :: r) = (s, c :: r) := by
  rw [h 0 (Nat.le_refl 0), item, hc]
  simp

theorem kept_join {ss : List String} (h : ∀ s ∈ ss, Kept 0 s.toList) : Kept 1 (join ", " ss).toList := by
  -- A comma ends an item unless it stands within brackets, hence the depth of one.
  have hsep : Kept 1 ", ".toList := by
    refine kept_of_forall fun c hc depth hd => ?_
    have hzero : depth ≠ 0 := Nat.ne_of_gt hd
    rcases List.mem_cons.1 (show c ∈ [',', ' '] from hc) with rfl | hc
    · simp [depthAfter?, hzero]
    · rw [List.mem_singleton.1 hc]
      simp [depthAfter?]
  induction ss with
  | nil => exact kept_nil
  | cons s ss ih =>
    obtain ⟨hs, hss⟩ := List.forall_mem_cons.1 h
    cases ss with
    | nil => exact hs.mono (Nat.zero_le 1)
    | cons t ss =>
      rw [join, String.toList_append, String.toList_append]
      exact ((hs.mono (Nat.zero_le 1)).append hsep).append (ih hss)

/-- Items are read back, up to a closing bracket after them. -/
theorem items_join {ss : List String} (hne : ss ≠ []) (h : ∀ s ∈ ss, Kept 0 s.toList)
    (hc : c = ')' ∨ c = '>') (r : List Char) :
    items ((join ", " ss).toList ++ c :: r) = (ss.map String.toList, c :: r) := by
  have hclose : depthAfter? 0 c = none := by
    rcases hc with rfl | rfl <;> rfl
  induction ss with
  | nil => exact absurd rfl hne
  | cons s ss ih =>
    obtain ⟨hs, hss⟩ := List.forall_mem_cons.1 h
    cases ss with
    | nil =>
      rw [join, items, item_stop hs hclose]
      rcases hc with rfl | rfl <;> rfl
    | cons t ss =>
      have hsep : ", ".toList = [',', ' '] := by decide
      rw [join, String.toList_append, String.toList_append, hsep]
      simp only [List.append_assoc, List.cons_append, List.nil_append]
      -- The item stops at the comma, as all brackets before it are closed.
      rw [items, item_stop hs (by rfl)]
      simp only [ih (List.cons_ne_nil _ _) hss, List.map_cons]

end Text

namespace TypeExpr
open Text
variable {t : TypeExpr} {strict : Bool} {witType r : String}

theorem kept_parenthesized {ss : List String} (h : ∀ s ∈ ss, Kept 0 s.toList) :
    Kept 0 (parenthesized ss).toList := by
  have hleft : "(".toList = ['('] := by decide
  have hright : ")".toList = [')'] := by decide
  have hsingle : ",)".toList = [','] ++ [')'] := by decide
  unfold parenthesized
  split
  · next item =>
    have hcomma : Kept 1 [','] := kept_of_forall fun c hc depth hd => by
      have hzero : depth ≠ 0 := Nat.ne_of_gt hd
      simp [depthAfter?, hzero, List.mem_singleton.1 hc]
    have hitem : Kept 1 item.toList := (h item (List.mem_singleton_self item)).mono (Nat.zero_le 1)
    rw [toList_between, hleft, hsingle, ← List.append_assoc item.toList]
    exact (hitem.append hcomma).enclosed (.inl rfl) (.inl rfl)
  · rw [toList_between, hleft, hright]
    exact (kept_join h).enclosed (.inl rfl) (.inl rfl)

/-- The brackets of a type are balanced, and its commas stand within them. -/
theorem kept_render (h : Spelled t) : Kept 0 t.render.toList := by
  induction h with
  | nameless => exact kept_nil
  | @named name args hn _ ih =>
    cases args with
    | nil => exact kept_of_class (p := TypeToken.isNameChar) (by decide) hn.2
    | cons a args =>
      have hless : "<".toList = ['<'] := by decide
      have hgreater : ">".toList = ['>'] := by decide
      have hname : Kept 0 name.toList := kept_of_class (p := TypeToken.isNameChar) (by decide) hn.2
      have hargs : Kept 1 (join ", " ((a :: args).map render)).toList :=
        kept_join (List.forall_mem_map.2 ih)
      rw [render, renderAll_eq_map]
      simp only [String.toList_append, hless, hgreater, List.append_assoc]
      exact hname.append (hargs.enclosed (.inr rfl) (.inr rfl))
  | tuple _ ih =>
    rw [render, renderAll_eq_map]
    exact kept_parenthesized (List.forall_mem_map.2 ih)

theorem kept_rustText (h : (rustText strict witType).collect.1 = .ok r) : Kept 0 r.toList := by
  obtain ⟨t, ht, rfl⟩ := spelled_of_rustText h
  exact kept_render ht

end TypeExpr

namespace Identifier
open Text
variable {name : String} {c : Char}

/-- Words of ASCII letters and digits with single hyphens between them. -/
def IsKebab (name : String) : Prop :=
  ∀ w ∈ splitOn '-' name.toList, w ≠ [] ∧ ∀ c ∈ w, c.isAlphanum = true

instance (name : String) : Decidable (IsKebab name) :=
  decidable_of_iff ((splitOn '-' name.toList).all fun w => !w.isEmpty && w.all Char.isAlphanum) (by
    simp [IsKebab])

theorem IsKebab.isAlphanum (h : IsKebab name) (hc : c ∈ name.toList) :
    c.isAlphanum = true ∨ c = '-' := by
  by_cases hne : c = '-'
  · exact .inr hne
  · have hmem : c ∈ (splitOn '-' name.toList).flatten := by
      rw [flatten_splitOn, List.mem_filter]
      exact ⟨hc, by simpa using hne⟩
    obtain ⟨w, hw, hcw⟩ := List.mem_flatten.1 hmem
    exact .inl ((h w hw).2 c hcw)

theorem IsKebab.unbroken (h : IsKebab name) : Unbroken name.toList := by
  intro c hc
  rcases h.isAlphanum hc with hc | rfl
  · exact isLineBreak_of_isAlphanum hc
  · decide

/-- A character of Rust identifiers, or the mark of raw ones. -/
def isRustChar (c : Char) : Bool := c.isAlphanum || c == '_' || c == '#'

/-- A text with characters of Rust identifiers only. -/
def IsRust (s : List Char) : Prop := ∀ c ∈ s, isRustChar c = true

instance (s : List Char) : Decidable (IsRust s) :=
  decidable_of_iff (s.all isRustChar = true) List.all_eq_true

theorem IsRust.not_mem {s : List Char} (h : IsRust s) (hc : isRustChar c = false) : c ∉ s := by
  intro hm
  rw [h c hm] at hc
  cases hc

theorem IsRust.kept {s : List Char} (h : IsRust s) : Kept 0 s :=
  kept_of_class (p := isRustChar) (by decide) h

theorem isRust_append {a b : List Char} : IsRust (a ++ b) ↔ IsRust a ∧ IsRust b := List.forall_mem_append

theorem IsKebab.snake (h : IsKebab name) : IsRust (Identifier.snake name).toList := by
  rw [Identifier.snake, String.toList_ofList]
  intro c hc
  obtain ⟨d, hd, rfl⟩ := List.mem_map.1 hc
  unfold snakeChar
  split
  · decide
  · next hne =>
    rcases h.isAlphanum ((unescape_sublist _).subset hd) with hd | hd
    · rw [isRustChar, hd, Bool.true_or, Bool.true_or]
    · exact absurd hd hne

theorem IsKebab.rust (h : IsKebab name) : IsRust (Identifier.rust name).toList := by
  unfold Identifier.rust
  split
  · rw [String.toList_append, isRust_append]
    exact ⟨by decide, h.snake⟩
  · exact h.snake

theorem IsKebab.quote_not_mem_pascal (h : IsKebab name) : '"' ∉ (pascal name).toList := by
  have hname : '"' ∉ name.toList := fun hm => by
    rcases h.isAlphanum hm with h | h
    · revert h
      decide
    · revert h
      decide
  rw [pascal, String.toList_ofList]
  intro hm
  obtain ⟨part, hp, hm⟩ := List.mem_flatMap.1 hm
  have hpart {c : Char} (hc : c ∈ part) : c ∈ name.toList :=
    (unescape_sublist _).subset (mem_of_mem_splitOn hp hc)
  cases part with
  | nil => cases hm
  | cons c part =>
    rcases List.mem_append.1 hm with hm | hm
    · -- Capitals may be letters of any alphabet, but none of them is a mark.
      rcases eq_or_letter_of_mem_capital hm with rfl | h | h
      · exact hname (hpart List.mem_cons_self)
      · revert h
        decide
      · revert h
        decide
    · exact hname (hpart (List.mem_cons_of_mem _ hm))

end Identifier

/-- The parameters in a request: none, one alone, or several as a tuple. -/
inductive Payload where
  | nothing
  | single (name : String)
  | tuple (names : List String)
  deriving DecidableEq, Repr

/-- The request for parameters of these names. -/
def Payload.ofNames : List String → Payload
  | [] => .nothing
  | [name] => .single name
  | names => .tuple names

/-- What the text of a stub says: the names and types of the parameters, the parameters in the
request, the type of the result, and the type that is asked for. -/
structure StubReading where
  params : List (String × String)
  payload : Payload
  result : String
  sent : String
  deriving DecidableEq, Repr

namespace StubReading
open Text

/-- A parameter with its type. -/
def readParam? (text : List Char) : Option (String × String) :=
  (cut ": ".toList text).map fun p => (String.ofList p.1, String.ofList p.2)

/-- The parameters and the result in the line that declares a function. -/
def readDeclaration? (line : List Char) : Option (List (String × String) × String) := do
  let header ← line.dropPrefix? "pub async fn ".toList
  let parted ← cut ['('] header
  let listed := items parted.2
  let rest ← listed.2.dropPrefix? ") -> SendResult<".toList
  let result := item 0 rest
  if result.2 = "> \x7b".toList then
    return (← listed.1.mapM readParam?, String.ofList result.1)
  else none

/-- The value of a request. -/
def readPayload? (value : List Char) : Option Payload :=
  if value = "\x7b\x7d".toList then some .nothing
  else match value with
    | '(' :: r =>
      let listed := items r
      if listed.2 = [')'] then some (.tuple (listed.1.map String.ofList)) else none
    | r => some (.single (String.ofList r))

/-- The parameters in the line that makes a request. -/
def readRequest? (line : List Char) : Option Payload := do
  let rest ← line.dropPrefix? "    let request = json!(\x7b\"".toList
  let parted ← cut "\": ".toList rest
  let value ← parted.2.dropSuffix? "\x7d);".toList
  readPayload? value

/-- The type in the line that sends a request. -/
def readSend? (line : List Char) : Option String := do
  let rest ← line.dropPrefix? "    send::<".toList
  let sent := item 0 rest
  let _ ← sent.2.dropPrefix? ">(&request, target, ".toList
  return String.ofList sent.1

/-- What a stub says, line by line. -/
def read? (code : String) : Option StubReading :=
  match lines code.toList with
  | [_, declaration, request, send, _] => do
    let declared ← readDeclaration? declaration
    return ⟨declared.1, ← readRequest? request, declared.2, ← readSend? send⟩
  | _ => none

end StubReading

namespace StubPlan
open Text StubReading
variable {p : StubPlan} {route : String} {timeout : Int}

/-- A plan that can be read from its stub: it has a routing parameter, its names are those of Rust,
and its types have balanced brackets. -/
structure Readable (p : StubPlan) (route : String) : Prop where
  oneLined : p.OneLined
  function : Identifier.IsRust p.function.toList
  variant : '"' ∉ (Identifier.pascal p.operation).toList
  target : p.target = some route
  routing : Kept 0 route.toList
  params : ∀ q ∈ p.params, Identifier.IsRust q.name.toList ∧ Kept 0 q.type.toList
  result : Kept 0 p.result.toList

/-- A parameter is cut after its name, in which there is no colon. -/
theorem readParam?_typed {name type : String} (h : ':' ∉ name.toList) :
    readParam? (name ++ ": " ++ type).toList = some (name, type) := by
  have hsep : ": ".toList = [':', ' '] := by decide
  have hcut : cut [':', ' '] (name.toList ++ ([':', ' '] ++ type.toList)) =
      some (name.toList, type.toList) := cut_append h
  rw [String.toList_append, String.toList_append, readParam?, hsep, List.append_assoc, hcut,
    Option.map_some, String.ofList_toList, String.ofList_toList]

theorem mapM_readParam?_typed {params : List (String × String)} (h : ∀ q ∈ params, ':' ∉ q.1.toList) :
    (params.map fun q => (q.1 ++ ": " ++ q.2).toList).mapM readParam? = some params := by
  induction params with
  | nil => rfl
  | cons q params ih =>
    obtain ⟨hq, hparams⟩ := List.forall_mem_cons.1 h
    rw [List.map_cons, List.mapM_cons, readParam?_typed hq, ih hparams]
    rfl

theorem kept_declared {q : Param} (h : Identifier.IsRust q.name.toList) (ht : Kept 0 q.type.toList) :
    Kept 0 (declared "" q).toList := by
  have hsep : Kept 0 ": ".toList :=
    kept_of_class (p := fun c => c == ':' || c == ' ') (by decide) (List.all_eq_true.1 (by decide))
  rw [declared, if_pos rfl, String.toList_append, String.toList_append]
  exact (h.kept.append hsep).append ht

theorem items_declared {qs : List Param} (hne : qs ≠ [])
    (h : ∀ q ∈ qs, Identifier.IsRust q.name.toList ∧ Kept 0 q.type.toList) (rest : List Char) :
    items ((join ", " (qs.map (declared ""))).toList ++ ')' :: rest) =
      (qs.map fun q => (declared "" q).toList, ')' :: rest) := by
  have hkept : ∀ s ∈ qs.map (declared ""), Kept 0 s.toList :=
    List.forall_mem_map.2 fun q hq => kept_declared (h q hq).1 (h q hq).2
  rw [items_join (by simpa using hne) hkept (.inl rfl), List.map_map]
  rfl

theorem mapM_readParam? {qs : List Param} (h : ∀ q ∈ qs, Identifier.IsRust q.name.toList) :
    (qs.map fun q => (declared "" q).toList).mapM readParam? = some (qs.map fun q => (q.name, q.type)) := by
  have hcolon : ∀ q ∈ qs.map fun q => (q.name, q.type), ':' ∉ q.1.toList :=
    List.forall_mem_map.2 fun q hq => (h q hq).not_mem (by decide)
  have hread := mapM_readParam?_typed hcolon
  rwa [List.map_map] at hread

/-- The value of a request is read back: no name starts with a bracket or a brace. -/
theorem readPayload?_payloadValue {names : List String} (h : ∀ n ∈ names, Identifier.IsRust n.toList) :
    readPayload? (payloadValue names).toList = some (.ofNames names) := by
  have hbraces : "\x7b\x7d".toList = ['\x7b', '\x7d'] := by decide
  have hleft : "(".toList = ['('] := by decide
  have hright : ")".toList = [')'] := by decide
  rcases names with _ | ⟨a, _ | ⟨b, names⟩⟩
  · decide
  · have hname : Identifier.IsRust a.toList := h a (List.mem_singleton_self a)
    have hne : a.toList ≠ "\x7b\x7d".toList := fun he =>
      hname.not_mem (c := '\x7b') (by decide) (by rw [he, hbraces]; exact List.mem_cons_self)
    rw [payloadValue, readPayload?, if_neg hne, String.ofList_toList]
    · rfl
    · intro r he
      exact absurd (he ▸ List.mem_cons_self) (hname.not_mem (c := '(') (by decide))
  · have hkept : ∀ n ∈ a :: b :: names, Kept 0 n.toList := fun n hn => (h n hn).kept
    have hid : String.ofList ∘ String.toList = id := funext fun _ => String.ofList_toList
    have hne : '(' :: ((join ", " (a :: b :: names)).toList ++ [')']) ≠ "\x7b\x7d".toList := by
      rw [hbraces]
      simp
    rw [payloadValue, String.toList_append, String.toList_append, hleft, hright, List.append_assoc,
      List.singleton_append, readPayload?, if_neg hne]
    · simp only [items_join (List.cons_ne_nil _ _) hkept (.inl rfl) []]
      rw [if_pos trivial, List.map_map, hid, List.map_id]
      rfl
    all_goals simp

namespace Readable

theorem declaredParams (h : p.Readable route) :
    p.declaredParams "" = (⟨"target", route⟩ :: p.params).map (declared "") := by
  rw [StubPlan.declaredParams, h.target]
  rfl

theorem declared (h : p.Readable route) : ∀ q ∈ ⟨"target", route⟩ :: p.params,
    Identifier.IsRust q.name.toList ∧ Kept 0 q.type.toList := by
  have htarget : Identifier.IsRust "target".toList := by decide
  rw [List.forall_mem_cons]
  exact ⟨⟨htarget, h.routing⟩, h.params⟩

/-- The type of the result ends where its brackets close. -/
theorem item_result (h : p.Readable route) (rest : List Char) :
    item 0 (p.result.toList ++ '>' :: rest) = (p.result.toList, '>' :: rest) :=
  item_stop h.result rfl rest

/-- The line that declares the function is read back. -/
theorem readDeclaration? (h : p.Readable route) :
    readDeclaration? ("pub async fn " ++ p.declaration "").toList =
      some (("target", route) :: p.params.map fun q => (q.name, q.type), p.result) := by
  have hopen : "(".toList = ['('] := by decide
  have hresult : ") -> SendResult<".toList = ')' :: " -> SendResult<".toList := by decide
  have hend : "> \x7b".toList = '>' :: " \x7b".toList := by decide
  have hcut (rest : List Char) : cut ['('] (p.function.toList ++ (['('] ++ rest)) =
      some (p.function.toList, rest) := cut_append (h.function.not_mem (by decide))
  unfold StubReading.readDeclaration? StubPlan.declaration
  rw [h.declaredParams]
  -- The name of the function ends at the first bracket, the parameters at the one that closes it.
  simp only [String.toList_append, hopen, List.append_assoc]
  simp only [dropPrefix?_append, hcut, Option.bind_eq_bind, Option.bind_some]
  have hitems := items_declared (List.cons_ne_nil _ _) h.declared
    (" -> SendResult<".toList ++ (p.result.toList ++ "> \x7b".toList))
  rw [hresult, List.cons_append, hitems]
  simp only
  rw [← List.cons_append, ← hresult, dropPrefix?_append]
  simp only [Option.bind_some, hend, h.item_result]
  rw [if_pos trivial, mapM_readParam? fun q hq => (h.declared q hq).1, Option.bind_some,
    String.ofList_toList, List.map_cons]
  rfl

/-- The line that makes the request is read back. -/
theorem readRequest? (h : p.Readable route) : readRequest?
    ("    let request = " ++ payload p.operation (p.params.map Param.name) ++ ";").toList =
      some (.ofNames (p.params.map Param.name)) := by
  have hstart : "    let request = json!(\x7b\"".toList =
      "    let request = ".toList ++ "json!(\x7b\"".toList := by decide
  have hsep : "\": ".toList = ['"', ':', ' '] := by decide
  have hend : "\x7d);".toList = "\x7d)".toList ++ ";".toList := by decide
  have hcut (rest : List Char) : cut ['"', ':', ' ']
      ((Identifier.pascal p.operation).toList ++ (['"', ':', ' '] ++ rest)) =
        some ((Identifier.pascal p.operation).toList, rest) := cut_append h.variant
  have hnames : ∀ n ∈ p.params.map Param.name, Identifier.IsRust n.toList :=
    List.forall_mem_map.2 fun q hq => (h.params q hq).1
  unfold StubReading.readRequest? payload
  simp only [String.toList_append, List.append_assoc]
  rw [← List.append_assoc, ← hstart, dropPrefix?_append]
  -- The name of the variant has no quotation mark, so the first one ends it.
  simp only [Option.bind_eq_bind, Option.bind_some, hsep, hcut]
  rw [← hend, dropSuffix?_append]
  exact readPayload?_payloadValue hnames

/-- The line that sends the request is read back. -/
theorem readSend? (h : p.Readable route) : readSend?
    ("    send::<" ++ p.result ++ ">(&request, target, " ++ toString timeout ++ ").await").toList =
      some p.result := by
  have hclose : ">(&request, target, ".toList = '>' :: "(&request, target, ".toList := by decide
  unfold StubReading.readSend?
  simp only [String.toList_append, List.append_assoc]
  rw [dropPrefix?_append, hclose, List.cons_append, Option.bind_eq_bind, Option.bind_some,
    h.item_result, ← List.cons_append]
  simp only
  rw [dropPrefix?_append]
  simp

/-- A stub that is not called through http is read back. -/
theorem read?_rpcCode (h : p.Readable route) : read? (p.rpcCode timeout) = some
    ⟨("target", route) :: p.params.map fun q => (q.name, q.type), .ofNames (p.params.map Param.name),
      p.result, p.result⟩ := by
  have hend : Unbroken "\x7d".toList := by decide
  have hlines : lines (p.rpcCode timeout).toList =
      (p.rpcLines timeout).map String.toList ++ ["\x7d".toList] := by
    rw [toList_rpcCode, lines_unlines_append h.oneLined.rpcLines, lines_of_unbroken hend (by decide)]
  unfold read?
  rw [hlines]
  unfold rpcLines
  simp only [List.map_cons, List.map_nil, List.cons_append, List.nil_append, h.readDeclaration?,
    h.readRequest?, h.readSend?, Option.bind_eq_bind, Option.bind_some]
  rfl

end Readable
end StubPlan

namespace Signature
open Identifier Text
variable {s : Signature} {strict : Bool} {p : StubPlan} {st : StubSettings}

/-- A signature whose names are all in kebab case. -/
structure IsKebab (s : Signature) : Prop where
  operation : Identifier.IsKebab s.operation
  kind : Identifier.IsKebab s.kind
  fields : ∀ f ∈ s.fields, Identifier.IsKebab f.name

theorem IsKebab.oneLined (h : s.IsKebab) : s.OneLined :=
  ⟨h.operation.unbroken, h.kind.unbroken, fun f hf => (h.fields f hf).unbroken⟩

theorem kept_routeType (type : String) : Kept 0 (routeType type).toList := by
  have hkept {s : List Char} (h : (s.all fun c => isRustChar c || c == '&') = true) : Kept 0 s :=
    kept_of_class (p := fun c => isRustChar c || c == '&') (by decide) (List.all_eq_true.1 h)
  unfold routeType
  split
  · exact hkept (by decide)
  · exact hkept (by decide)

/-- A call that is not made through http has a routing parameter. -/
theorem exists_routing (h : s.isHttp = false) :
    ∃ route, s.routing = some route ∧ Kept 0 route.toList := by
  unfold routing
  cases s.target? with
  | some f => exact ⟨routeType f.type, rfl, kept_routeType f.type⟩
  | none =>
    rw [h]
    exact ⟨"&Address", rfl, kept_routeType ""⟩

theorem kept_result {r : String} (h : (s.result strict).collect.1 = .ok r) : Kept 0 r.toList := by
  unfold result at h
  split at h
  · exact TypeExpr.kept_rustText h
  · cases h
    have hunit : Kept 0 (TypeExpr.parenthesized []).toList :=
      TypeExpr.kept_parenthesized (List.forall_mem_nil _)
    exact hunit

theorem Plans.readable {route : String} (h : s.Plans strict p) (hs : s.IsKebab)
    (hr : s.routing = some route) (hroute : Kept 0 route.toList) : p.Readable route where
  oneLined := h.oneLined hs.oneLined
  function := by
    have hunderscore : IsRust "_".toList := by decide
    have hend : IsRust "_rpc".toList := by decide
    rw [h.function, functionName]
    simp only [toString, String.toList_append, isRust_append]
    exact ⟨⟨⟨hs.operation.snake, hunderscore⟩, hs.kind.snake⟩, hend⟩
  variant := h.operation ▸ hs.operation.quote_not_mem_pascal
  target := h.target.trans hr
  routing := hroute
  params := by
    intro q hq
    obtain ⟨f, hf, hname, htype⟩ := exists_of_mem_right h.params hq
    rw [hname]
    exact ⟨(hs.fields f (mem_fields_of_mem_params hf)).rust, TypeExpr.kept_rustText htype⟩
  result := kept_result h.result

/-- A plan is found if all types of parameters and of the result have Rust types. -/
theorem exists_plans (h : ∀ f ∈ s.fields.eraseP isTarget,
    ∃ r, (TypeExpr.rustText strict f.type).collect.1 = .ok r) : ∃ p, s.Plans strict p := by
  have hparams (fields : List Field)
      (hf : ∀ f ∈ fields, ∃ r, (TypeExpr.rustText strict f.type).collect.1 = .ok r) :
      ∃ params, List.Forall₂ (Declares strict) fields params := by
    induction fields with
    | nil => exact ⟨[], .nil⟩
    | cons f fields ih =>
      obtain ⟨⟨r, hr⟩, hfields⟩ := List.forall_mem_cons.1 hf
      obtain ⟨params, hparams⟩ := ih hfields
      exact ⟨⟨rust f.name, r⟩ :: params, .cons ⟨rfl, hr⟩ hparams⟩
  have hresult : ∃ r, (s.result strict).collect.1 = .ok r := by
    unfold result
    cases hf : s.returning? with
    | some f => exact h f (mem_eraseP_isTarget.2 (.inr hf))
    | none => exact ⟨"()", rfl⟩
  obtain ⟨params, hparams⟩ := hparams s.params fun f hf => h f (mem_eraseP_isTarget.2 (.inl hf))
  obtain ⟨r, hr⟩ := hresult
  exact ⟨⟨s.operation, s.kind, s.functionName, s.routing, params, r⟩, rfl, rfl, rfl, rfl, hparams, hr⟩

/-- The stub of a call that is not made through http is read back from its text, if its names are in
kebab case and its types have Rust types. It declares the routing parameter and then one parameter
for each field but the first target and the first result, in their order, with Rust name and Rust
type; its request carries exactly these names; and the type that it declares as its result is the one
that it asks for, which is that of the first result or the empty tuple. -/
theorem stub_readBack (st : StubSettings) (s : Signature) (ht : st.templates.rpcStub = .ok none)
    (hhttp : s.kind ≠ "http") (hs : s.IsKebab) (htypes : ∀ f ∈ s.fields.eraseP isTarget,
      ∃ r, (TypeExpr.rustText st.strict f.type).collect.1 = .ok r) :
    ∃ stub route params result, (s.stub st).collect.1 = .ok stub ∧ s.routing = some route ∧
      List.Forall₂ (fun f q => q.1 = rust f.name ∧
        (TypeExpr.rustText st.strict f.type).collect.1 = .ok q.2) s.params params ∧
      (∀ f, s.returning? = some f → (TypeExpr.rustText st.strict f.type).collect.1 = .ok result) ∧
      (s.returning? = none → result = "()") ∧
      StubReading.read? stub.code = some
        ⟨("target", route) :: params, .ofNames (s.params.map fun f => rust f.name), result, result⟩ := by
  obtain ⟨p, hp⟩ := exists_plans htypes
  have hkind : s.isHttp = false := by simpa [isHttp] using hhttp
  obtain ⟨route, hrouting, hroute⟩ := exists_routing hkind
  have hcode : p.code st = .ok (p.rpcCode st.timeout) := by
    have hrpc : p.isHttp = false := by rw [StubPlan.isHttp, hp.kind]; exact hkind
    rw [StubPlan.code, hrpc, ht]
    rfl
  have hnames : (s.params.map fun f => rust f.name) = p.params.map Param.name := by
    rw [← List.forall₂_eq_eq_eq, List.forall₂_map_left_iff, List.forall₂_map_right_iff]
    exact hp.params.imp fun f q hq => hq.1.symm
  refine ⟨⟨p, p.rpcCode st.timeout⟩, route, p.params.map fun q => (q.name, q.type), p.result,
    collect_stub_eq_ok_iff.2 ⟨hp, hcode⟩, hrouting, ?_, ?_, ?_, ?_⟩
  · exact List.forall₂_map_right_iff.2 hp.params
  · intro f hf
    have hresult := hp.result
    rwa [result, hf] at hresult
  · intro hnone
    have hresult := hp.result
    rw [result, hnone] at hresult
    exact (Except.ok.inj hresult).symm
  · rw [hnames]
    exact (hp.readable hs hrouting hroute).read?_rpcCode

/-- A call with two results, of which the second is a parameter, and with a comma within a type. -/
theorem stub_readBack_get :
    let s : Signature := ⟨"get-all", "remote", [⟨"returning", "list<u8>"⟩, ⟨"type", "result<u8, string>"⟩,
      ⟨"target", "address"⟩, ⟨"returning", "u8"⟩]⟩
    ∃ stub, (s.stub {}).collect.1 = .ok stub ∧ StubReading.read? stub.code = some
      ⟨[("target", "&Address"), ("r#type", "Result<u8, String>"), ("returning", "u8")],
        .tuple ["r#type", "returning"], "Vec<u8>", "Vec<u8>"⟩ := by
  intro s
  have hlist : (TypeExpr.rustText false "list<u8>").collect.1 = .ok "Vec<u8>" := by cbv
  have hresult : (TypeExpr.rustText false "result<u8, string>").collect.1 = .ok "Result<u8, String>" := by
    cbv
  have hbyte : (TypeExpr.rustText false "u8").collect.1 = .ok "u8" := by cbv
  have hkebab : s.IsKebab := ⟨by decide, by decide, by decide⟩
  have htypes : ∀ f ∈ s.fields.eraseP isTarget, ∃ r, (TypeExpr.rustText false f.type).collect.1 = .ok r := by
    have hfields : s.fields.eraseP isTarget =
        [⟨"returning", "list<u8>"⟩, ⟨"type", "result<u8, string>"⟩, ⟨"returning", "u8"⟩] := by decide
    rw [hfields]
    simp only [List.forall_mem_cons]
    exact ⟨⟨_, hlist⟩, ⟨_, hresult⟩, ⟨_, hbyte⟩, List.forall_mem_nil _⟩
  obtain ⟨stub, route, params, result, hstub, hroute, hparams, hreturning, -, hread⟩ :=
    stub_readBack {} s rfl (by decide) hkebab htypes
  have hrouting : s.routing = some "&Address" := by decide
  have hfirst : s.returning? = some ⟨"returning", "list<u8>"⟩ := by decide
  have hfields : s.params = [⟨"type", "result<u8, string>"⟩, ⟨"returning", "u8"⟩] := by decide
  have hkeyword : rust "type" = "r#type" := by decide +kernel
  have hplain : rust "returning" = "returning" := by decide +kernel
  have hroute : route = "&Address" := Option.some.inj (hroute.symm.trans hrouting)
  have hresult' : result = "Vec<u8>" := Except.ok.inj ((hreturning _ hfirst).symm.trans hlist)
  rw [hfields, List.forall₂_cons_left_iff] at hparams
  obtain ⟨⟨name, type⟩, rest, ⟨hname, htype⟩, hrest, hparams⟩ := hparams
  rw [List.forall₂_cons_left_iff] at hrest
  obtain ⟨⟨name', type'⟩, rest', ⟨hname', htype'⟩, hrest', hrest⟩ := hrest
  rw [List.forall₂_nil_left_iff] at hrest'
  dsimp only at hname htype hname' htype'
  have htype : type = "Result<u8, String>" := Except.ok.inj (htype.symm.trans hresult)
  have htype' : type' = "u8" := Except.ok.inj (htype'.symm.trans hbyte)
  refine ⟨stub, hstub, hread.trans ?_⟩
  rw [hparams, hrest, hrest', hroute, hresult', hname, hname', htype, htype', hfields, List.map_cons,
    List.map_cons, List.map_nil, hkeyword, hplain]
  rfl

end Signature

end WitCaller
