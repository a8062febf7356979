import WitCaller.Interface.Parser
import WitCaller.Proofs.Lines

/-!
Reading two texts one after the other. What the second declares depends on the first only through the
question whether the body of a signature is still open between them.
-/

namespace WitCaller

namespace Interface
open Text

/-- Whether a line starts the body of a signature. -/
def opens (line : List Char) : Bool :=
  match heading line with
  | .signature .. => true
  | _ => false

/-- Whether a scan is inside the body of a signature after one more line. -/
def insideAfter (inside : Bool) (line : List Char) : Bool :=
  if inside then !closes line else opens line

/-- Whether a scan of these lines ends inside the body of a signature. -/
def endsInside (ls : List (List Char)) : Bool := ls.foldl insideAfter false

variable {l : List Char} {ls ms : List (List Char)}

/-- A scan that is inside a body goes on after the line that closes it. -/
theorem foldl_insideAfter (ls : List (List Char)) : ls.foldl insideAfter true =
    if ls.any closes then endsInside (afterBody ls) else true := by
  induction ls with
  | nil => rfl
  | cons l ls ih =>
    rw [List.foldl_cons, List.any_cons, afterBody, List.dropWhile_cons]
    cases hl : closes l with
    | true => simp [insideAfter, hl, endsInside]
    | false => simpa [insideAfter, hl, afterBody] using ih

theorem bodyOf_cons (hl : closes l = false) :
    bodyOf (l :: ls) = (if isIdle l then [] else [bodyLine l]) ++ bodyOf ls := by
  rw [bodyOf, List.takeWhile_cons_of_pos (by simp [hl]), List.filter_cons]
  cases isIdle l <;> simp [bodyOf]

theorem afterBody_cons (hl : closes l = false) : afterBody (l :: ls) = afterBody ls := by
  rw [afterBody, List.dropWhile_cons_of_pos (by simp [hl]), afterBody]

/-- Lines after a body that is closed do not belong to it. -/
theorem body_append_closed (ms : List (List Char)) (h : ls.any closes = true) :
    bodyOf (ls ++ ms) = bodyOf ls ∧ afterBody (ls ++ ms) = afterBody ls ++ ms := by
  induction ls with
  | nil => cases h
  | cons l ls ih =>
    cases hl : closes l with
    | true => simp [bodyOf, afterBody, hl]
    | false =>
      rw [List.any_cons, hl, Bool.false_or] at h
      obtain ⟨hbody, hafter⟩ := ih h
      rw [List.cons_append, bodyOf_cons hl, bodyOf_cons hl, afterBody_cons hl, afterBody_cons hl,
        hbody, hafter]
      exact ⟨rfl, rfl⟩

/-- Lines after a body that is not closed belong to it up to the one that closes it. -/
theorem body_append_open (ms : List (List Char)) (h : ls.any closes = false) :
    bodyOf (ls ++ ms) = bodyOf ls ++ bodyOf ms ∧ afterBody (ls ++ ms) = afterBody ms := by
  induction ls with
  | nil => exact ⟨rfl, rfl⟩
  | cons l ls ih =>
    rw [List.any_cons, Bool.or_eq_false_iff] at h
    obtain ⟨hbody, hafter⟩ := ih h.2
    rw [List.cons_append, bodyOf_cons h.1, bodyOf_cons h.1, afterBody_cons h.1, hbody, hafter,
      List.append_assoc]
    exact ⟨rfl, rfl⟩

theorem endsInside_cons_other (h : opens l = false) : endsInside (l :: ls) = endsInside ls := by
  rw [endsInside, List.foldl_cons, insideAfter, if_neg (by decide), h, endsInside]

theorem endsInside_cons_opens (h : opens l = true) : endsInside (l :: ls) =
    if ls.any closes then endsInside (afterBody ls) else true := by
  rw [endsInside, List.foldl_cons, insideAfter, if_neg (by decide), h, foldl_insideAfter]

/-- The item of a line that does not start a body. -/
def itemsOfLine (line : List Char) : List Item :=
  match heading line with
  | .type d => [.type d]
  | .malformed e => [.malformed e]
  | _ => []

theorem itemsOf_cons_other (h : opens l = false) : itemsOf (l :: ls) = itemsOfLine l ++ itemsOf ls := by
  rw [itemsOf, itemsOfLine]
  unfold opens at h
  split <;> simp_all

theorem itemsOf_cons_opens (h : opens l = true) : ∃ record operation kind, ∀ ls,
    itemsOf (l :: ls) = .signature record operation kind (bodyOf ls) :: itemsOf (afterBody ls) := by
  unfold opens at h
  split at h
  · next record operation kind hl => exact ⟨record, operation, kind, fun ls => by rw [itemsOf, hl]⟩
  · cases h

/-- After lines that end outside of bodies, further lines are read as if they stood alone. -/
theorem itemsOf_append_outside {ls ms : List (List Char)} (h : endsInside ls = false) :
    itemsOf (ls ++ ms) = itemsOf ls ++ itemsOf ms := by
  match ls with
  | [] => rw [itemsOf, List.nil_append, List.nil_append]
  | l :: ls =>
    cases hl : opens l with
    | false =>
      rw [endsInside_cons_other hl] at h
      rw [List.cons_append, itemsOf_cons_other hl, itemsOf_cons_other hl, itemsOf_append_outside h,
        List.append_assoc]
    | true =>
      obtain ⟨record, operation, kind, hitems⟩ := itemsOf_cons_opens hl
      rw [endsInside_cons_opens hl] at h
      split at h
      · next hclosed =>
        obtain ⟨hbody, hafter⟩ := body_append_closed ms hclosed
        rw [List.cons_append, hitems, hitems, hbody, hafter, itemsOf_append_outside h,
          List.cons_append]
      · cases h
termination_by ls.length
decreasing_by
  · exact Nat.lt_succ_self _
  · exact Nat.lt_succ_of_le (length_afterBody_le _)

/-- After lines that end inside a body, further lines belong to it up to the one that closes it, and
those after that are read as if they stood alone. -/
theorem itemsOf_append_inside {ls : List (List Char)} (h : endsInside ls = true) :
    ∃ before record operation kind body,
      itemsOf ls = before ++ [.signature record operation kind body] ∧
      ∀ ms, itemsOf (ls ++ ms) =
        before ++ .signature record operation kind (body ++ bodyOf ms) :: itemsOf (afterBody ms) := by
  match ls with
  | [] => cases h
  | l :: ls =>
    cases hl : opens l with
    | false =>
      rw [endsInside_cons_other hl] at h
      obtain ⟨before, record, operation, kind, body, hitems, happend⟩ := itemsOf_append_inside h
      refine ⟨itemsOfLine l ++ before, record, operation, kind, body, ?_, fun ms => ?_⟩
      · rw [itemsOf_cons_other hl, hitems, List.append_assoc]
      · rw [List.cons_append, itemsOf_cons_other hl, happend, List.append_assoc]
    | true =>
      obtain ⟨record, operation, kind, hitems⟩ := itemsOf_cons_opens hl
      rw [endsInside_cons_opens hl] at h
      split at h
      · next hclosed =>
        obtain ⟨before, record', operation', kind', body, hrest, happend⟩ := itemsOf_append_inside h
        refine ⟨.signature record operation kind (bodyOf ls) :: before, record', operation', kind',
          body, ?_, fun ms => ?_⟩
        · rw [hitems, hrest, List.cons_append]
        · obtain ⟨hbody, hafter⟩ := body_append_closed ms hclosed
          rw [List.cons_append, hitems, hbody, hafter, happend, List.cons_append]
      · next hopen =>
        -- The body of this line's signature is the one that is not closed.
        have hopen : ls.any closes = false := by simpa using hopen
        have hnone : afterBody ls = [] := by
          simpa [afterBody] using (body_append_open [] hopen).2
        refine ⟨[], record, operation, kind, bodyOf ls, ?_, fun ms => ?_⟩
        · rw [hitems, hnone, itemsOf, List.nil_append]
        · obtain ⟨hbody, hafter⟩ := body_append_open ms hopen
          rw [List.cons_append, hitems, hbody, hafter, List.nil_append]
termination_by ls.length
decreasing_by
  · exact Nat.lt_succ_self _
  · exact Nat.lt_succ_of_le (length_afterBody_le _)

/-- An empty line says nothing, in a body or outside. -/
theorem empty_line (ls : List (List Char)) :
    itemsOf ([] :: ls) = itemsOf ls ∧ bodyOf ([] :: ls) = bodyOf ls ∧
      afterBody ([] :: ls) = afterBody ls :=
  ⟨itemsOf_cons_other rfl, bodyOf_cons rfl, afterBody_cons rfl⟩

/-- The lines of two texts with a line feed between them say what the lines of both say. -/
theorem trimmedLines_append (a b : String) : ∃ ms, trimmedLines (a ++ "\n" ++ b) = trimmedLines a ++ ms ∧
    itemsOf ms = itemsOf (trimmedLines b) ∧ bodyOf ms = bodyOf (trimmedLines b) ∧
      afterBody ms = afterBody (trimmedLines b) := by
  obtain ⟨gap, hgap, hlines⟩ := lines_append_lineFeed a.toList b.toList
  have htext : (a ++ "\n" ++ b).toList = a.toList ++ '\n' :: b.toList := by simp
  refine ⟨gap.map trim ++ trimmedLines b, ?_, ?_⟩
  · rw [trimmedLines, htext, hlines, List.map_append, List.map_append, List.append_assoc]
    rfl
  · rcases hgap with rfl | rfl
    · exact ⟨rfl, rfl, rfl⟩
    · exact empty_line (trimmedLines b)

/-- The lines after a body are those of a text. -/
theorem exists_trimmedLines_afterBody (text : String) :
    ∃ rest, trimmedLines rest = afterBody (trimmedLines text) := by
  have hdrop (ls : List (List Char)) : ∃ n, afterBody ls = ls.drop n := by
    have hsuffix : afterBody ls <:+ ls := (List.drop_suffix 1 _).trans (List.dropWhile_suffix _)
    exact ⟨ls.length - (afterBody ls).length, List.suffix_iff_eq_drop.1 hsuffix⟩
  obtain ⟨n, hn⟩ := hdrop (trimmedLines text)
  refine ⟨String.ofList ((fullLines text.toList).drop n).flatten, ?_⟩
  rw [hn, trimmedLines, trimmedLines, String.toList_ofList, lines, fullLines_flatten_drop, lines,
    List.map_drop, List.map_drop]

/-- The fields that the lines of a text add to a body that is open before it. -/
def furtherFields (text : String) : List Field :=
  (bodyOf (trimmedLines text)).filterMap BodyLine.field?

/-- Two texts with a line feed between them declare what both declare, if the scan of the first ends
outside of bodies. If it ends inside, this is the body of the last signature: the lines of the second
text up to the first one that closes a body add fields to it, and the text after that line declares
what it declares alone. -/
theorem parse_append (path : Path) (a b : String) :
    (endsInside (trimmedLines a) = false →
      (parse path (a ++ "\n" ++ b)).signatures =
        (parse path a).signatures ++ (parse path b).signatures ∧
      (parse path (a ++ "\n" ++ b)).types = (parse path a).types ++ (parse path b).types) ∧
    (endsInside (trimmedLines a) = true → ∃ before last rest,
      (parse path a).signatures = before ++ [last] ∧
      trimmedLines rest = afterBody (trimmedLines b) ∧
      (parse path (a ++ "\n" ++ b)).signatures =
        before ++ { last with fields := last.fields ++ furtherFields b } ::
          (parse path rest).signatures ∧
      (parse path (a ++ "\n" ++ b)).types = (parse path a).types ++ (parse path rest).types) := by
  obtain ⟨ms, hlines, hitems, hbody, hafter⟩ := trimmedLines_append a b
  constructor
  · intro h
    have hall : itemsOf (trimmedLines (a ++ "\n" ++ b)) =
        itemsOf (trimmedLines a) ++ itemsOf (trimmedLines b) := by
      rw [hlines, itemsOf_append_outside h, hitems]
    exact ⟨by simp only [signatures, parse, hall, List.filterMap_append],
      by simp only [types, parse, hall, List.filterMap_append]⟩
  · intro h
    obtain ⟨before, record, operation, kind, body, ha, happend⟩ := itemsOf_append_inside h
    obtain ⟨rest, hrest⟩ := exists_trimmedLines_afterBody b
    have hall : itemsOf (trimmedLines (a ++ "\n" ++ b)) = before ++
        .signature record operation kind (body ++ bodyOf (trimmedLines b)) ::
          itemsOf (trimmedLines rest) := by
      rw [hlines, happend, hbody, hafter, hrest]
    refine ⟨before.filterMap Item.signature?, ⟨operation, kind, body.filterMap BodyLine.field?⟩, rest,
      ?_, hrest, ?_, ?_⟩
    · simp [signatures, parse, ha, Item.signature?]
    · simp [signatures, parse, hall, Item.signature?, furtherFields]
    · simp [types, parse, ha, hall, Item.type?, List.filterMap_cons]

example : (parse ⟨.relative, ["a.wit"]⟩
    ("record get-signature-local \x7b\n key: string" ++ "\n" ++ "count: u8\n\x7d\nvariant v \x7b")).signatures =
      [⟨"get", "local", [⟨"key", "string"⟩, ⟨"count", "u8"⟩]⟩] := by
  decide +kernel

end Interface
end WitCaller
