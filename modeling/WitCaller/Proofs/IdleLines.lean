import WitCaller.Proofs.Concatenation

/-!
Blank lines and lines that are comments say nothing, wherever they stand. What a text declares, and what
is reported about it, depends only on its other lines without the blanks at their ends.
-/

namespace WitCaller

namespace Interface
open Text

/-- The lines that are neither blank nor comments. -/
def saying (ls : List (List Char)) : List (List Char) := ls.filter (!isIdle ·)

/-- The lines of a text that are neither blank nor comments, without the blanks at their ends. -/
def saidLines (text : String) : List (List Char) := saying (trimmedLines text)

variable {l : List Char}

theorem saying_cons_idle (hl : isIdle l = true) (ls : List (List Char)) :
    saying (l :: ls) = saying ls :=
  List.filter_cons_of_neg (by simp [hl])

theorem saying_cons (hl : isIdle l = false) (ls : List (List Char)) :
    saying (l :: ls) = l :: saying ls :=
  List.filter_cons_of_pos (by simp [hl])

/-- An idle line is empty or starts with a slash. -/
theorem head?_of_isIdle (hl : isIdle l = true) : l = [] ∨ l.head? = some '/' := by
  rw [isIdle, Bool.or_eq_true, List.isEmpty_iff] at hl
  apply hl.imp_right
  intro hcomment
  obtain ⟨rest, rfl⟩ := List.isPrefixOf_iff_prefix.1 hcomment
  rfl

theorem closes_of_isIdle (hl : isIdle l = true) : closes l = false := by
  obtain rfl | hhead := head?_of_isIdle hl
  · rfl
  · rw [closes, hhead]
    rfl

theorem not_startsWith_of_isIdle {word : String} (hword : ∃ c cs, word.toList = c :: cs ∧ c ≠ '/')
    (hl : isIdle l = true) : startsWith word l = false := by
  obtain ⟨c, cs, hword, hc⟩ := hword
  rw [startsWith, hword]
  obtain rfl | hhead := head?_of_isIdle hl
  · rfl
  · obtain ⟨rest, rfl⟩ := List.head?_eq_some_iff.1 hhead
    rw [List.isPrefixOf_cons_cons, Bool.and_eq_false_iff]
    exact .inl (beq_eq_false_iff_ne.2 hc)

theorem heading_of_isIdle (hl : isIdle l = true) : heading l = .other := by
  have hrecord : startsWith "record " l = false :=
    not_startsWith_of_isIdle ⟨'r', _, rfl, by decide⟩ hl
  have hvariant : startsWith "variant " l = false :=
    not_startsWith_of_isIdle ⟨'v', _, rfl, by decide⟩ hl
  simp [heading, hrecord, hvariant]

/-- Outside of bodies an idle line declares nothing. -/
theorem itemsOf_cons_idle (hl : isIdle l = true) (ls : List (List Char)) :
    itemsOf (l :: ls) = itemsOf ls := by
  rw [itemsOf, heading_of_isIdle hl]

/-- In a body, the idle lines make no difference to its fields or to where it ends. -/
theorem body_saying (ls : List (List Char)) :
    bodyOf (saying ls) = bodyOf ls ∧ afterBody (saying ls) = saying (afterBody ls) := by
  induction ls with
  | nil => exact ⟨rfl, rfl⟩
  | cons l ls ih =>
    cases hl : isIdle l with
    | true =>
      have hopen : closes l = false := closes_of_isIdle hl
      rw [saying_cons_idle hl, bodyOf_cons hopen, afterBody_cons hopen, hl]
      exact ih
    | false =>
      rw [saying_cons hl]
      cases hc : closes l with
      | true => simp [bodyOf, afterBody, hc]
      | false =>
        rw [bodyOf_cons hc, bodyOf_cons hc, afterBody_cons hc, afterBody_cons hc, ih.1]
        exact ⟨rfl, ih.2⟩

/-- The idle lines declare nothing and keep nothing from being declared. -/
theorem itemsOf_saying (ls : List (List Char)) : itemsOf (saying ls) = itemsOf ls := by
  match ls with
  | [] => rfl
  | l :: ls =>
    cases hl : isIdle l with
    | true => rw [saying_cons_idle hl, itemsOf_cons_idle hl, itemsOf_saying ls]
    | false =>
      rw [saying_cons hl]
      cases ho : opens l with
      | false => rw [itemsOf_cons_other ho, itemsOf_cons_other ho, itemsOf_saying ls]
      | true =>
        -- The lines after the body are fewer than `ls` by an unknown number, so the recursion is on
        -- the length.
        obtain ⟨record, operation, kind, hitems⟩ := itemsOf_cons_opens ho
        obtain ⟨hbody, hafter⟩ := body_saying ls
        rw [hitems, hitems, hbody, hafter, itemsOf_saying (afterBody ls)]
termination_by ls.length
decreasing_by
  · exact Nat.lt_succ_self _
  · exact Nat.lt_succ_of_le (length_afterBody_le _)
  · exact Nat.lt_succ_self _

theorem itemsOf_eq_of_saidLines {a b : String} (h : saidLines a = saidLines b) :
    itemsOf (trimmedLines a) = itemsOf (trimmedLines b) := by
  rw [← itemsOf_saying, ← itemsOf_saying (trimmedLines b)]
  exact congrArg itemsOf h

/-- Two texts with the same lines, apart from blank lines, comments and blanks at the ends of lines,
declare the same, and the same is reported about them. -/
theorem parse_eq_of_saidLines {a b : String} (path : Path) (h : saidLines a = saidLines b) :
    (parse path a).signatures = (parse path b).signatures ∧
      (parse path a).types = (parse path b).types ∧
      (parse path a).entries = (parse path b).entries := by
  have hparse : parse path a = parse path b := by rw [parse, parse, itemsOf_eq_of_saidLines h]
  rw [hparse]
  exact ⟨rfl, rfl, rfl⟩

theorem parse_eq_of_saidLines_get :
    let path : Path := ⟨.relative, ["api.wit"]⟩
    let bare := "record get-signature-http \x7b\ntarget: string,\n\x7d\nvariant v \x7b\n"
    let spaced := "// lookup\r\n\trecord get-signature-http \x7b  \r\n\r\n  // where\u2028   target: string,\x0c\n\x7d\n\n//\n variant v \x7b"
    saidLines bare = saidLines spaced ∧
      (parse path bare).signatures = (parse path spaced).signatures ∧
      (parse path bare).types = (parse path spaced).types ∧
      (parse path bare).entries = (parse path spaced).entries := by
  intro path bare spaced
  have h : saidLines bare = saidLines spaced := by decide +kernel
  exact ⟨h, parse_eq_of_saidLines path h⟩

theorem saidLines_append (a b : String) :
    saidLines (a ++ "\n" ++ b) = saidLines a ++ saidLines b := by
  obtain ⟨gap, hgap, hlines⟩ := lines_append_lineFeed a.toList b.toList
  have htext : (a ++ "\n" ++ b).toList = a.toList ++ '\n' :: b.toList := by simp
  have hidle : saying (gap.map trim) = [] := by rcases hgap with rfl | rfl <;> rfl
  rw [saidLines, trimmedLines, htext, hlines, List.map_append, List.map_append, saying,
    List.filter_append, List.filter_append, ← saying, ← saying, ← saying, hidle, List.append_nil]
  rfl

/-- Lines that say nothing can be put between the lines of a text, in a body or outside. -/
theorem parse_insert (path : Path) (a : String) {noise : String} (b : String)
    (h : saidLines noise = []) :
    (parse path (a ++ "\n" ++ noise ++ "\n" ++ b)).items = (parse path (a ++ "\n" ++ b)).items := by
  have hsaid : saidLines (a ++ "\n" ++ noise ++ "\n" ++ b) = saidLines (a ++ "\n" ++ b) := by
    rw [saidLines_append, saidLines_append, saidLines_append, h, List.append_nil]
  exact itemsOf_eq_of_saidLines hsaid

end Interface
end WitCaller
