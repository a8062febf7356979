import WitCaller.Toml.Document
import WitCaller.Toml.Scalar

/-!
Reading a TOML document: values, keys and statements, and the table they make together.
-/

namespace WitCaller.Toml

/-- Skip the blanks within a line. -/
def skipSpace (s : List Char) : List Char := s.dropWhile isSpace

theorem length_skipSpace_le (s : List Char) : (skipSpace s).length ≤ s.length :=
  (List.dropWhile_sublist _).length_le

/-- Skip blanks, line ends and comments; `inComment` says whether a comment has begun. -/
def skipGaps (inComment : Bool) : List Char → Option (List Char)
  | [] => some []
  | c :: r =>
    if inComment then
      if c = '\n' then skipGaps false r
      else if isControl c then none
      else skipGaps true r
    else if isSpace c ∨ c = '\n' then skipGaps false r
    else if c = '#' then skipGaps true r
    else some (c :: r)

theorem length_skipGaps_le {inComment : Bool} {s r : List Char}
    (h : skipGaps inComment s = some r) : r.length ≤ s.length := by
  fun_induction skipGaps inComment s <;> simp_all <;> omega

/-- The characters of a key without quotes. -/
def isBare (c : Char) : Bool := c.isAlphanum || c == '-' || c == '_'

/-- One part of a key, and the blanks after it. -/
def readKeyPart (s : List Char) : Option (Reading String s) :=
  let part? : Option (Reading String s) :=
    match s with
    | [] => none
    | c :: r =>
      if isBare c then
        some ⟨String.ofList (c :: r.takeWhile isBare), r.dropWhile isBare,
          Nat.lt_succ_of_le (List.dropWhile_sublist isBare).length_le⟩
      else (readShortText (c :: r)).map (·.lift String.ofList)
  part?.map (·.skip skipSpace length_skipSpace_le)

/-- What follows the blanks after a character is not longer than with it. -/
theorem length_skipSpace_lt_cons (c : Char) (r : List Char) :
    (skipSpace r).length < (c :: r).length :=
  Nat.lt_succ_of_le (length_skipSpace_le r)

theorem length_skipSpace_lt {α : Type} {s r : List Char} {c : Char} {x : Reading α s}
    (h : x.rest = c :: r) : (skipSpace r).length < s.length :=
  Nat.lt_of_le_of_lt (length_skipSpace_le r) (Reading.lt_of_rest h)

theorem length_lt_of_skipGaps {s r : List Char} {c : Char}
    (h : skipGaps false s = some (c :: r)) : r.length < s.length :=
  length_skipGaps_le h

theorem length_lt_of_skipGaps_rest {α : Type} {s r : List Char} {c : Char} {x : Reading α s}
    (h : skipGaps false x.rest = some (c :: r)) : r.length < s.length :=
  Nat.lt_trans (length_lt_of_skipGaps h) x.shorter

/-- A key: parts with points between them. The blanks after it are read too. -/
def readKey (s : List Char) : Option (Reading (List String) s) :=
  match readKeyPart s with
  | none => none
  | some part =>
    match h : part.rest with
    | '.' :: r =>
      (readKey (skipSpace r)).map fun ks =>
        ks.liftOfLe (part.value :: ·) (Nat.le_of_lt (length_skipSpace_lt h))
    | _ => some (part.lift ([·]))
termination_by s.length
decreasing_by exact length_skipSpace_lt h

mutual

/-- Any value. -/
def readValue (s : List Char) : Option (Reading Value s) :=
  match s with
  | [] => none
  | c :: r =>
    if c = '\x22' ∨ c = '\x27' then
      (readText (c :: r)).map fun x => x.lift fun t => .text (String.ofList t)
    else if c = '[' then (readItems r).map fun x => x.lift .array
    else if c = '\x7b' then do
      let x ← readPairs true (skipSpace r)
      let t ← inlineTable x.value
      return x.liftOfLe (fun _ => .table t) (Nat.le_of_lt (length_skipSpace_lt_cons c r))
    else readScalar (c :: r)
termination_by 3 * s.length
decreasing_by
  · exact rank_lt 2 0 (Nat.lt_succ_self _) (by decide)
  · exact rank_lt 1 0 (length_skipSpace_lt_cons c r) (by decide)

/-- The rest of an array, after the opening bracket or a comma. -/
def readItems (s : List Char) : Option (Reading (List Value) s) :=
  match h : skipGaps false s with
  | none => none
  | some [] => none
  | some (c :: r) =>
    if c = ']' then some ⟨[], r, length_lt_of_skipGaps h⟩
    else (readItem (c :: r)).map fun x => x.liftOfLe id (length_skipGaps_le h)
termination_by 3 * s.length + 2
decreasing_by exact rank_le 1 (length_skipGaps_le h)

/-- An item of an array and the rest of the array. -/
def readItem (s : List Char) : Option (Reading (List Value) s) :=
  match readValue s with
  | none => none
  | some v =>
    match h : skipGaps false v.rest with
    | some (',' :: r) =>
      (readItems r).map fun x =>
        x.liftOfLe (v.value :: ·) (Nat.le_of_lt (length_lt_of_skipGaps_rest h))
    | some (']' :: r) => some ⟨[v.value], r, length_lt_of_skipGaps_rest h⟩
    | _ => none
termination_by 3 * s.length + 1
decreasing_by
  · exact Nat.lt_succ_self _
  · exact rank_lt 2 1 (length_lt_of_skipGaps_rest h) (by decide)

/-- The rest of an inline table, after the blanks that follow the opening brace or a comma. Only
right after the brace may the table end. -/
def readPairs (first : Bool) (s : List Char) : Option (Reading (List Pair) s) :=
  match first, s with
  | true, '\x7d' :: r => some (.done [] r)
  | _, s =>
    match readPair s with
    | none => none
    | some p =>
      match h : p.rest with
      | ',' :: r =>
        (readPairs false (skipSpace r)).map fun x =>
          x.liftOfLe (p.value :: ·) (Nat.le_of_lt (length_skipSpace_lt h))
      | '\x7d' :: r => some ⟨[p.value], r, Reading.lt_of_rest h⟩
      | _ => none
termination_by 3 * s.length + 1
decreasing_by
  · exact Nat.lt_succ_self _
  · exact rank_lt 1 1 (length_skipSpace_lt h) (by decide)

/-- A key, an equals sign and a value, and the blanks after it. -/
def readPair (s : List Char) : Option (Reading Pair s) :=
  match readKey s with
  | none => none
  | some k =>
    match h : k.rest with
    | '=' :: r =>
      (readValue (skipSpace r)).map fun x =>
        (x.skip skipSpace length_skipSpace_le).liftOfLe (⟨k.value, ·⟩)
          (Nat.le_of_lt (length_skipSpace_lt h))
    | _ => none
termination_by 3 * s.length
decreasing_by exact rank_lt 0 0 (length_skipSpace_lt h) (by decide)

end

/-- Closing brackets after the key of a header. -/
def readBrackets : Nat → List Char → Option (List Char)
  | 0, s => some s
  | n + 1, ']' :: r => readBrackets n r
  | _ + 1, _ => none

theorem length_readBrackets_le {n : Nat} {s r : List Char} (h : readBrackets n s = some r) :
    r.length ≤ s.length := by
  fun_induction readBrackets n s <;> simp_all
  omega

theorem length_lt_of_readBrackets {α : Type} {n : Nat} {s r : List Char}
    {x : Reading α (skipSpace s)} (h : readBrackets n x.rest = some r) : r.length < s.length :=
  Nat.lt_of_le_of_lt (length_readBrackets_le h)
    (Nat.lt_of_lt_of_le x.shorter (length_skipSpace_le s))

/-- The key of a header and the brackets after it. -/
def readHeaderKey (brackets : Nat) (s : List Char) : Option (Reading (List String) s) :=
  match readKey (skipSpace s) with
  | none => none
  | some k =>
    match h : readBrackets brackets k.rest with
    | none => none
    | some r => some ⟨k.value, r, length_lt_of_readBrackets h⟩

/-- A statement: a header, or a pair. -/
def readStatement (s : List Char) : Option (Reading Statement s) :=
  match s with
  | '[' :: '[' :: r => (readHeaderKey 2 r).map (·.lift .arrayTable)
  | '[' :: r => (readHeaderKey 1 r).map (·.lift .table)
  | s => (readPair s).map (·.lift .pair)

/-- The rest of a line after a statement: blanks, and perhaps a comment. The line end stays. -/
def skipLineTail (inComment : Bool) : List Char → Option (List Char)
  | [] => some []
  | c :: r =>
    if c = '\n' then some (c :: r)
    else if inComment then
      if isControl c then none else skipLineTail true r
    else if isSpace c then skipLineTail false r
    else if c = '#' then skipLineTail true r
    else none

theorem length_skipLineTail_le {inComment : Bool} {s r : List Char}
    (h : skipLineTail inComment s = some r) : r.length ≤ s.length := by
  fun_induction skipLineTail inComment s <;> simp_all <;> omega

theorem length_lt_of_skipLineTail {α : Type} {s t r : List Char} {c : Char}
    {x : Reading α (c :: r)} (hs : skipGaps false s = some (c :: r))
    (ht : skipLineTail false x.rest = some t) : t.length < s.length :=
  Nat.lt_of_le_of_lt (length_skipLineTail_le ht)
    (Nat.lt_of_lt_of_le x.shorter (length_skipGaps_le hs))

/-- The statements of a document, one to a line. -/
def readStatements (s : List Char) : Option (List Statement) :=
  match _h : skipGaps false s with
  | none => none
  | some [] => some []
  | some (c :: r) =>
    match readStatement (c :: r) with
    | none => none
    | some st =>
      match _h' : skipLineTail false st.rest with
      | none => none
      | some t => (readStatements t).map (st.value :: ·)
termination_by s.length
decreasing_by exact length_lt_of_skipLineTail _h _h'

/-- A carriage return before a line feed is not part of a document. -/
def dropReturns : List Char → List Char
  | [] => []
  | '\r' :: '\n' :: r => '\n' :: dropReturns r
  | c :: r => c :: dropReturns r

/-- The table that a text holds as a TOML document. -/
def decode (text : List Char) : Option Table := do build (← readStatements (dropReturns text))

end WitCaller.Toml
