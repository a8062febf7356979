import WitCaller.Proofs.Annotation
import WitCaller.Proofs.Declarations
import WitCaller.Proofs.IdleLines
import WitCaller.Proofs.LineShapes
import WitCaller.Proofs.SignatureNames
import WitCaller.World

/-!
Comments after what a line says. Only whole lines are taken for comments, so what stands after the name
or the type in a line belongs to it. For each kind of line this settles which of its readings a comment
leaves as they are.
-/

namespace WitCaller

namespace Interface
open Text
variable {keyword : String} {line comment l₁ l₂ : List Char} {before after : List (List Char)}

/-- A comment as it is put after a line. -/
def remark (comment : List Char) : List Char := ' ' :: '/' :: '/' :: comment

/-- The text with a comment at the end of its line `n`. -/
def withComment (n : Nat) (comment : List Char) (text : String) : String :=
  String.ofList (annotate n (remark comment) text.toList)

/-- A line with one more blank at its end, without the blanks before it. -/
def spaced (line : List Char) : List Char := trimLeft line ++ [' ']

/-- A line with a comment, without the blanks at its ends. -/
def remarked (line comment : List Char) : List Char := spaced line ++ '/' :: '/' :: trimRight comment

theorem trim_append_remark (h : trim line ≠ []) : trim (line ++ remark comment) = remarked line comment := by
  have hleft : trimLeft line ≠ [] := fun he => h (by rw [trim, he]; rfl)
  have hseam : line ++ remark comment = line ++ [' '] ++ '/' :: ([] ++ '/' :: comment) := by
    simp [remark]
  rw [hseam, trim_append_cons (by decide), trimLeft_append hleft, trimRight_append_cons (by decide)]
  rfl

theorem trimmedLines_withComment {text : String} {n : Nat} (hline : (lines text.toList)[n]? = some line)
    (hsaid : trim line ≠ []) (hcomment : Unbroken comment) : trimmedLines (withComment n comment text) =
      (trimmedLines text).take n ++ remarked line comment :: (trimmedLines text).drop (n + 1) := by
  have hremark : Unbroken (remark comment) :=
    (unbroken_append (a := [' ', '/', '/'])).2 ⟨by decide, hcomment⟩
  rw [trimmedLines, withComment, String.toList_ofList, lines_annotate hremark hline, List.map_append,
    List.map_cons, trim_append_remark hsaid, List.map_take, List.map_drop, ← trimmedLines]

theorem trimmedLines_split {text : String} {n : Nat} (hline : (lines text.toList)[n]? = some line) :
    trimmedLines text = (trimmedLines text).take n ++ trim line :: (trimmedLines text).drop (n + 1) := by
  obtain ⟨hn, rfl⟩ := List.getElem?_eq_some_iff.1 hline
  have hlength : n < (trimmedLines text).length := by simpa [trimmedLines] using hn
  have hget : trim (lines text.toList)[n] = (trimmedLines text)[n] := by simp [trimmedLines]
  rw [hget, List.getElem_cons_drop, List.take_append_drop]

/-- The blanks between what a line says and a comment. -/
theorem exists_gap (line : List Char) : ∃ c gap, spaced line = trim line ++ c :: gap ∧ isBlank c = true ∧
    ∀ d ∈ gap, isBlank d = true := by
  obtain ⟨b, hleft, hb⟩ := trimRight_append (trimLeft line)
  have hspaced : spaced line = trim line ++ (b ++ [' ']) := by
    rw [spaced, trim, ← List.append_assoc, ← hleft]
  cases b with
  | nil => exact ⟨' ', [], hspaced, by decide, by simp⟩
  | cons c b =>
    obtain ⟨hc, hb⟩ := List.forall_mem_cons.1 hb
    refine ⟨c, b ++ [' '], hspaced, hc, List.forall_mem_append.2 ⟨hb, ?_⟩⟩
    simp [isBlank]

theorem trim_prefix_spaced (line : List Char) : trim line <+: spaced line :=
  (prefix_trimRight _).trans (List.prefix_append _ _)

theorem startsWith_remarked (h : '/' ∉ keyword.toList) :
    startsWith keyword (remarked line comment) = startsWith keyword (spaced line) := by
  rw [Bool.eq_iff_iff, startsWith, startsWith, List.isPrefixOf_iff_prefix, List.isPrefixOf_iff_prefix]
  exact prefix_separated_iff h

theorem startsWith_spaced (h : startsWith keyword (trim line) = true) :
    startsWith keyword (spaced line) = true :=
  List.isPrefixOf_iff_prefix.2 ((List.isPrefixOf_iff_prefix.1 h).trans (trim_prefix_spaced line))

theorem not_startsWith_of_spaced (h : startsWith keyword (spaced line) = false) :
    startsWith keyword (trim line) = false :=
  Bool.eq_false_iff.2 fun hs => Bool.noConfusion ((startsWith_spaced hs).symm.trans h)

theorem closes_remarked (h : trim line ≠ []) : closes (remarked line comment) = closes (trim line) := by
  obtain ⟨c, gap, hspaced, -⟩ := exists_gap line
  obtain ⟨d, r, hd⟩ := List.exists_cons_of_ne_nil h
  rw [closes, closes, remarked, hspaced, hd]
  rfl

/-- A line that says something does not become a comment. -/
theorem isIdle_remarked (h : isIdle (trim line) = false) : isIdle (remarked line comment) = false := by
  obtain ⟨c, gap, hspaced, hc, -⟩ := exists_gap line
  rw [isIdle, Bool.or_eq_false_iff] at h ⊢
  refine ⟨by simp [remarked], Bool.eq_false_iff.2 fun hstart => ?_⟩
  have hc : c ∉ "//".toList := fun hmem => by
    obtain rfl : c = '/' := by simpa using hmem
    exact Bool.noConfusion hc
  have hprefix : "//".toList <+: trim line := by
    rw [startsWith, List.isPrefixOf_iff_prefix, remarked, hspaced, List.append_assoc,
      List.cons_append] at hstart
    exact (prefix_separated_iff hc).1 hstart
  exact Bool.noConfusion (h.2.symm.trans (List.isPrefixOf_iff_prefix.2 hprefix))

/-- In a body it matters of a line whether it closes the body, and else which field it is. -/
theorem declared_inside_iff (hinside : endsInside before = true) (h₁ : isIdle l₁ = false)
    (h₂ : isIdle l₂ = false) (hclose : closes l₁ = closes l₂) :
    declared (before ++ l₁ :: after) = declared (before ++ l₂ :: after) ↔
      closes l₂ = true ∨ (bodyLine l₁).field? = (bodyLine l₂).field? := by
  obtain ⟨signatures, types, operation, kind, fields, happend⟩ := declared_append_inside hinside
  rw [happend, happend]
  cases hc : closes l₂ with
  | true =>
    rw [hc] at hclose
    simp [fieldsOf, bodyOf, afterBody, hc, hclose]
  | false =>
    rw [hc] at hclose
    rw [fieldsOf_cons hc h₂, fieldsOf_cons hclose h₁, afterBody_cons hc, afterBody_cons hclose]
    cases (bodyLine l₁).field? <;> cases (bodyLine l₂).field? <;> simp

theorem append_cons_ne_of_prefix {a b r : List Char} {c : Char} (h : a <+: b) : b ++ c :: r ≠ a := by
  rintro rfl
  have hlength := h.length_le
  rw [List.length_append, List.length_cons] at hlength
  omega

/-- A comment without colons becomes part of the type of a field. -/
theorem field?_remarked_ne (hone : (trim line).count ':' = 1)
    (hmore : (remarked line comment).count ':' = 1) :
    (bodyLine (remarked line comment)).field? ≠ (bodyLine (trim line)).field? := by
  intro heq
  have hleft : (trimLeft line).count ':' = 1 := by
    rw [count_trimLeft (by decide), ← count_trim (by decide), hone]
  obtain ⟨a, b, hline, ha, hb⟩ := exists_of_count_eq_one hleft
  have hsaid : trim line = a ++ ':' :: trimRight b := by
    rw [trim, hline, trimRight_append_cons (by decide)]
  have hlonger : remarked line comment = a ++ ':' :: (b ++ [' '] ++ '/' :: '/' :: trimRight comment) := by
    simp [remarked, spaced, hline]
  have hrest : ':' ∉ b ++ [' '] ++ '/' :: '/' :: trimRight comment := by
    rw [hlonger, List.count_append, List.count_cons_self, List.count_eq_zero_of_not_mem ha] at hmore
    exact List.count_eq_zero.1 (by omega)
  have hb : ':' ∉ trimRight b := fun hmem => hb ((prefix_trimRight b).subset hmem)
  rw [hlonger, hsaid, bodyLine_field ha hrest, bodyLine_field ha hb] at heq
  have htype := congrArg String.toList (Field.mk.inj (Option.some.inj heq)).2
  rw [String.toList_ofList, String.toList_ofList] at htype
  -- The first slash belongs to the longer type, and the shorter one is the start of what is before it.
  obtain ⟨rest, hrest⟩ := fieldType_append_cons (a := b ++ [' ']) (b := '/' :: trimRight comment)
    (c := '/') (by decide) (by decide)
  rw [hrest] at htype
  exact append_cons_ne_of_prefix
    (prefix_fieldType ((prefix_trimRight b).trans (List.prefix_append b [' ']))) htype

/-- A comment makes no difference to a line with two colons or more, which is no field in any case, and
to one without colons unless it makes it a field. -/
theorem field?_remarked_iff : (bodyLine (remarked line comment)).field? = (bodyLine (trim line)).field? ↔
    2 ≤ (trim line).count ':' ∨ ((trim line).count ':' = 0 ∧ comment.count ':' ≠ 1) := by
  have hcount : (remarked line comment).count ':' = (trim line).count ':' + comment.count ':' := by
    rw [remarked, spaced, List.count_append, List.count_append, count_trimLeft (by decide),
      count_trim (by decide)]
    simp [count_trimRight (c := ':') (by decide)]
  by_cases hone : (trim line).count ':' = 1
  · refine iff_of_false (fun heq => ?_) (by omega)
    by_cases hmore : (remarked line comment).count ':' = 1
    · exact field?_remarked_ne hone hmore heq
    · rw [field?_of_count_ne hmore] at heq
      exact field?_of_count_eq hone heq.symm
  · rw [field?_of_count_ne hone]
    by_cases hmore : (remarked line comment).count ':' = 1
    · exact iff_of_false (field?_of_count_eq hmore) (by omega)
    · exact iff_of_true (field?_of_count_ne hmore) (by omega)

theorem exists_word {w : List Char} (hw : w.any isBlank = false) (h : w <+: spaced line) :
    w <+: trim line := by
  obtain ⟨c, gap, hspaced, hc, -⟩ := exists_gap line
  rw [hspaced] at h
  exact (prefix_separated_iff fun hmem => List.any_eq_false.1 hw c hmem hc).1 h

/-- What stands after the keyword in a line with one more blank at its end. -/
def namePart (keyword : String) (line : List Char) : List Char :=
  trimLeft ((spaced line).drop keyword.length)

theorem declaredName_remarked (h : keyword.toList <+: spaced line) :
    (declaredName keyword (remarked line comment)).toList =
      namePart keyword line ++ '/' :: trimRight (dropBrace (trimRight ('/' :: trimRight comment))) := by
  refine declaredName_append_cons (by decide) (by decide) ?_
  have hlength := h.length_le
  rw [String.length_toList] at hlength
  exact List.drop_append_of_le_length hlength

theorem declaredName_remarked_ne (h : keyword.toList <+: spaced line) :
    declaredName keyword (remarked line []) ≠ declaredName keyword (remarked line ['/']) := by
  intro heq
  rw [← String.toList_inj, declaredName_remarked h, declaredName_remarked h] at heq
  exact absurd (List.append_cancel_left heq) (by decide)

/-- What stands after a keyword and is no part of the name has no hyphens. -/
theorem exists_namePart (hkeyword : keyword.toList.any isBlank = false)
    (h : keyword.toList <+: spaced line) :
    ∃ t, '-' ∉ t ∧ namePart keyword line = (declaredName keyword (trim line)).toList ++ t := by
  obtain ⟨t, ht⟩ := prefix_declaredName ((trim_prefix_spaced line).drop keyword.length)
  refine ⟨t, fun hmem => ?_, ht.symm⟩
  obtain ⟨c, gap, hspaced, hc, hgap⟩ := exists_gap line
  have hlength := (exists_word hkeyword h).length_le
  rw [String.length_toList] at hlength
  -- Neither the blanks before the comment nor what is trimmed holds a hyphen.
  have hnone : '-' ∉ c :: gap := fun hmem => by
    rcases List.mem_cons.1 hmem with rfl | hmem
    · exact absurd hc (by decide)
    · exact absurd (hgap _ hmem) (by decide)
  have hcount := congrArg (List.count '-') ht
  rw [List.count_append, count_declaredName (by decide) (by decide), count_trimLeft (by decide), hspaced,
    List.drop_append_of_le_length hlength, List.count_append, List.count_eq_zero_of_not_mem hnone] at hcount
  have hpos := List.count_pos_iff.2 hmem
  omega

/-- A record whose name is spoiled is skipped, and with any comment after it too. -/
theorem silent_of_isSpoiled (h : startsWith "record " (spaced line) = true)
    (hspoiled : Signature.IsSpoiled (declaredName "record" (trim line))) :
    (heading (trim line)).IsSilent ∧ ∀ comment, (heading (remarked line comment)).IsSilent := by
  have hprefix : "record ".toList <+: spaced line := List.isPrefixOf_iff_prefix.1 h
  have hword : "record".toList <+: spaced line := List.IsPrefix.trans ⟨[' '], rfl⟩ hprefix
  constructor
  · -- The name is not empty, so the blank after the keyword belongs to the line.
    have hname : (declaredName "record" (trim line)).toList ≠ [] := fun he => by
      have hlength := hspoiled.isMarked.length_le
      rw [he] at hlength
      exact absurd hlength (by decide)
    have hlength : "record ".toList.length ≤ (trim line).length := by
      refine Nat.lt_of_not_le fun hshort => hname ?_
      have hdrop : (trim line).drop "record".length = [] := List.drop_eq_nil_of_le hshort
      exact List.prefix_nil.1 (prefix_declaredName (b := []) (hdrop ▸ List.nil_prefix))
    have hsaid := List.prefix_of_prefix_length_le hprefix (trim_prefix_spaced line) hlength
    exact heading_of_isSpoiled (List.isPrefixOf_iff_prefix.2 hsaid) hspoiled
  · intro comment
    obtain ⟨t, -, hpart⟩ := exists_namePart (by decide) hword
    refine heading_of_isSpoiled ((startsWith_remarked (by decide)).trans h) (hspoiled.append ?_)
    rw [declaredName_remarked hword, hpart, List.append_assoc]
    exact List.prefix_append _ _

theorem contains_remarked (hcomment : ¬ signatureMarker <:+: '/' :: trimRight comment) :
    contains signatureMarker (remarked line comment) = contains signatureMarker (spaced line) := by
  rw [Bool.eq_iff_iff, contains_iff, contains_iff, remarked, infix_separated_iff (by decide)]
  exact or_iff_left hcomment

/-- The marker of a record stands after the keyword. -/
theorem marker_infix_namePart (h : startsWith "record " (spaced line) = true)
    (hmarked : contains signatureMarker (spaced line) = true) :
    signatureMarker <:+: namePart "record" line := by
  obtain ⟨rest, hrest⟩ := List.isPrefixOf_iff_prefix.1 h
  rw [contains_iff, ← hrest] at hmarked
  have hafter : signatureMarker <:+: rest :=
    ((infix_separated_iff (a := "record".toList) (by decide)).1 hmarked).resolve_left (by decide)
  rw [namePart, ← hrest]
  exact infix_trimLeft (by decide) (hafter.trans (List.suffix_cons ' ' rest).isInfix)

/-- A comment without the marker becomes part of the kind of a signature whose name is not spoiled. -/
theorem exists_signature_remarked (h : startsWith "record " (spaced line) = true)
    (hmarked : contains signatureMarker (spaced line) = true)
    (hsound : ¬ Signature.IsSpoiled (declaredName "record" (trim line))) :
    ∃ first second, ∀ {comment : List Char}, ¬ signatureMarker <:+: '/' :: trimRight comment →
      heading (remarked line comment) = .signature (declaredName "record" (remarked line comment))
        (String.ofList first) (String.ofList
          (second ++ '/' :: trimRight (dropBrace (trimRight ('/' :: trimRight comment))))) := by
  have hword : "record".toList <+: spaced line :=
    List.IsPrefix.trans ⟨[' '], rfl⟩ (List.isPrefixOf_iff_prefix.1 h)
  obtain ⟨t, ht, hname⟩ := exists_namePart (by decide) hword
  have hsound : ¬ Signature.IsSpoiled (String.ofList (namePart "record" line)) := fun hspoiled =>
    hsound (Signature.isSpoiled_of_append ht (by rw [String.toList_ofList, hname]) hspoiled)
  obtain ⟨first, second, hcut, hfirst, hsecond⟩ := Signature.exists_cut
    (by rw [Signature.IsMarked, String.toList_ofList]; exact marker_infix_namePart h hmarked) hsound
  refine ⟨first, second, fun {comment} hcomment => ?_⟩
  have hrest : ¬ signatureMarker <:+: trimRight (dropBrace (trimRight ('/' :: trimRight comment))) :=
    fun hin => hcomment (hin.trans
      ((prefix_trimRight _).trans ((prefix_dropBrace _).trans (prefix_trimRight _))).isInfix)
  rw [heading_record ((startsWith_remarked (by decide)).trans h),
    if_pos ((contains_remarked hcomment).trans hmarked), signatureHeading,
    Signature.splitName_append (c := '/') hcut hfirst hsecond (by decide) hrest
      (by rw [declaredName_remarked hword, String.toList_ofList])]

/-- Of two comments after a record whose name is not spoiled, one makes a difference. -/
theorem declared_record_remarked_ne (hbefore : endsInside before = false)
    (h : startsWith "record " (spaced line) = true)
    (hsound : ¬ Signature.IsSpoiled (declaredName "record" (trim line))) :
    declared (before ++ remarked line [] :: after) ≠ declared (before ++ remarked line ['/'] :: after) := by
  by_cases hmarked : contains signatureMarker (spaced line) = true
  · obtain ⟨first, second, hheading⟩ := exists_signature_remarked h hmarked hsound
    refine declared_ne_of_signatures hbefore (hheading (by decide)) (hheading (by decide)) fun heq => ?_
    rw [← String.toList_inj, String.toList_ofList, String.toList_ofList] at heq
    exact absurd (List.append_cancel_left heq) (by decide)
  · have hword : "record".toList <+: spaced line :=
      List.IsPrefix.trans ⟨[' '], rfl⟩ (List.isPrefixOf_iff_prefix.1 h)
    have hheading {comment : List Char} (hcomment : ¬ signatureMarker <:+: '/' :: trimRight comment) :
        heading (remarked line comment) = .type ⟨declaredName "record" (remarked line comment), .record⟩ := by
      rw [heading_record ((startsWith_remarked (by decide)).trans h), contains_remarked hcomment,
        if_neg hmarked]
    exact declared_ne_of_types hbefore (hheading (by decide)) (hheading (by decide)) fun heq =>
      declaredName_remarked_ne hword (TypeDeclaration.mk.inj heq).1

/-- Outside of bodies, no comment makes a difference exactly to a line that starts neither a record nor a
variant, and to a record whose name is spoiled. -/
theorem declared_outside_iff (hbefore : endsInside before = false) :
    (∀ comment, Unbroken comment →
      declared (before ++ remarked line comment :: after) = declared (before ++ trim line :: after)) ↔
    startsWith "variant " (spaced line) = false ∧ (startsWith "record " (spaced line) = true →
      Signature.IsSpoiled (declaredName "record" (trim line))) := by
  constructor
  · intro h
    -- The readings with two comments are compared with each other: one of them can be what the line
    -- says alone, as far as the lines after it say the rest.
    have hsame := (h [] (by decide)).trans (h ['/'] (by decide)).symm
    refine ⟨Bool.eq_false_iff.2 fun hvariant => ?_, fun hrecord => ?_⟩
    · have hword : "variant".toList <+: spaced line :=
        List.IsPrefix.trans ⟨[' '], rfl⟩ (List.isPrefixOf_iff_prefix.1 hvariant)
      have hheading (comment : List Char) : heading (remarked line comment) =
          .type ⟨declaredName "variant" (remarked line comment), .variant⟩ :=
        heading_variant ((startsWith_remarked (by decide)).trans hvariant)
      exact declared_ne_of_types hbefore (hheading []) (hheading ['/'])
        (fun heq => declaredName_remarked_ne hword (TypeDeclaration.mk.inj heq).1) hsame
    · by_contra hsound
      exact declared_record_remarked_ne hbefore hrecord hsound hsame
  · rintro ⟨hvariant, hrecord⟩ comment -
    have hsilent : (heading (trim line)).IsSilent ∧ (heading (remarked line comment)).IsSilent := by
      cases hr : startsWith "record " (spaced line) with
      | true =>
        obtain ⟨hsaid, hremarked⟩ := silent_of_isSpoiled hr (hrecord hr)
        exact ⟨hsaid, hremarked comment⟩
      | false =>
        rw [heading_other (not_startsWith_of_spaced hr) (not_startsWith_of_spaced hvariant), heading_other
          ((startsWith_remarked (by decide)).trans hr) ((startsWith_remarked (by decide)).trans hvariant)]
        exact ⟨.inl rfl, .inl rfl⟩
    rw [declared_append_outside hbefore, declared_append_outside hbefore,
      declared_cons_silent hsilent.1, declared_cons_silent hsilent.2]

/-- A comment adds its words to those of a line. -/
theorem words_remarked (line comment : List Char) :
    words (remarked line comment) = words (trim line) ++ words ('/' :: '/' :: trimRight comment) := by
  obtain ⟨c, gap, hspaced, hc, hgap⟩ := exists_gap line
  rw [remarked, hspaced, List.append_assoc, List.cons_append, words_append_cons hc,
    words_append_of_blank hgap]

end Interface

namespace World
open Text Interface
variable {line comment l₁ l₂ : List Char} {before after ls : List (List Char)}

/-- The name that a line with `world` gives. -/
def openedName? (line : List Char) : Option String := do
  let word ← (words line)[1]?
  let name := dropBrace word
  if name = [] then none else some (String.ofList name)

theorem name?_eq (text : String) :
    name? text = ((trimmedLines text).find? opensWorld).bind openedName? := rfl

theorem opensWorld_remarked : opensWorld (remarked line comment) = startsWith "world " (spaced line) :=
  startsWith_remarked (by decide)

/-- The name of a world is the second word, and the comment comes after it. -/
theorem openedName?_remarked (h : opensWorld (trim line) = true) :
    openedName? (remarked line comment) = openedName? (trim line) := by
  obtain ⟨rest, hrest⟩ := List.isPrefixOf_iff_prefix.1 h
  have hsaid : trim line = "worl".toList ++ 'd' :: ([' '] ++ rest) := by
    rw [← hrest]
    rfl
  have hname : trimLeft rest ≠ [] := fun he => by
    -- Then the line would end in blanks.
    have htrim : trimRight (trim line) = trim line := trimRight_trimRight _
    have hblank : trimRight ([' '] ++ rest) = [] :=
      trimRight_eq_nil_iff.2 (List.forall_mem_cons.2 ⟨by decide, trimLeft_eq_nil_iff.1 he⟩)
    rw [hsaid, trimRight_append_cons (by decide), hblank] at htrim
    cases htrim
  have hwords : words (trim line) = "world".toList :: words rest := by
    have hseam : trim line = "world".toList ++ ' ' :: rest := by
      rw [← hrest]
      rfl
    rw [hseam, words_append_cons (by decide), words_of_unblank (by decide) (by decide)]
    rfl
  obtain ⟨name, others, hothers⟩ := List.exists_cons_of_ne_nil (words_ne_nil hname)
  rw [openedName?, openedName?, words_remarked, hwords, hothers]
  rfl

/-- A line whose comment makes it one that opens a world is the keyword alone. -/
theorem keyword_alone (h : startsWith "world " (spaced line) = true) (hsaid : opensWorld (trim line) = false) :
    trim line = "world".toList := by
  have hprefix := List.isPrefixOf_iff_prefix.1 h
  have hworld : "world".toList <+: spaced line := List.IsPrefix.trans ⟨[' '], rfl⟩ hprefix
  obtain ⟨rest, hrest⟩ := exists_word (by decide) hworld
  obtain ⟨c, gap, hspaced, -⟩ := exists_gap line
  cases rest with
  | nil => rw [← hrest, List.append_nil]
  | cons d rest =>
    -- The blank after the keyword would belong to the line.
    have hnext : [' '] <+: d :: (rest ++ c :: gap) := by
      rw [← List.prefix_append_right_inj "world".toList]
      rw [hspaced, ← hrest, List.append_assoc] at hprefix
      exact hprefix
    obtain ⟨rfl, -⟩ := List.cons_prefix_cons.1 hnext
    have hopens : opensWorld (trim line) = true :=
      List.isPrefixOf_iff_prefix.2 ⟨rest, by rw [← hrest]; rfl⟩
    exact absurd hopens (by rw [hsaid]; decide)

/-- After the keyword alone, a comment without blanks is taken for the name. -/
theorem openedName?_after_keyword (hword : trim line = "world".toList)
    (hblank : ('/' :: '/' :: trimRight comment).any isBlank = false)
    (hbrace : dropBrace ('/' :: '/' :: trimRight comment) = '/' :: '/' :: trimRight comment) :
    openedName? (remarked line comment) = some (String.ofList ('/' :: '/' :: trimRight comment)) := by
  rw [openedName?, words_remarked, hword, words_of_unblank (by decide) (by decide),
    words_of_unblank hblank (List.cons_ne_nil _ _)]
  change (if dropBrace ('/' :: '/' :: trimRight comment) = [] then none
    else some (String.ofList (dropBrace ('/' :: '/' :: trimRight comment)))) = _
  rw [hbrace, if_neg (List.cons_ne_nil _ _)]

/-- What lines say about a world: whether they open one, and its name. -/
def opened (ls : List (List Char)) : Bool × Option String :=
  (ls.any opensWorld, (ls.find? opensWorld).bind openedName?)

theorem opened_append_of_any (h : before.any opensWorld = true) (ls : List (List Char)) :
    opened (before ++ ls) = opened before := by
  obtain ⟨first, hfirst⟩ := Option.isSome_iff_exists.1 (List.find?_isSome.2 (List.any_eq_true.1 h))
  rw [opened, opened, List.any_append, List.find?_append, h, hfirst, Bool.true_or, Option.some_or]

theorem opened_append_of_not_any (h : before.any opensWorld = false) (ls : List (List Char)) :
    opened (before ++ ls) = opened ls := by
  have hnone : before.find? opensWorld = none := List.find?_eq_none.2 (List.any_eq_false.1 h)
  rw [opened, opened, List.any_append, List.find?_append, h, hnone, Bool.false_or, Option.none_or]

theorem opened_cons (h : opensWorld l₁ = true) (ls : List (List Char)) :
    opened (l₁ :: ls) = (true, openedName? l₁) := by
  rw [opened, List.any_cons, List.find?_cons_of_pos h, h, Bool.true_or, Option.bind_some]

theorem opened_cons_other (h : opensWorld l₁ = false) (ls : List (List Char)) :
    opened (l₁ :: ls) = opened ls := by
  rw [opened, List.any_cons, List.find?_cons_of_neg (by simp [h]), h, Bool.false_or, opened]

/-- No comment makes a difference to the world of a text, unless it makes the first line that opens one
out of the keyword alone. -/
theorem opened_iff : (∀ comment, Unbroken comment →
      opened (before ++ remarked line comment :: after) = opened (before ++ trim line :: after)) ↔
    (startsWith "world " (spaced line) = true → opensWorld (trim line) = true ∨
      before.any opensWorld = true) := by
  constructor
  · intro h hstart
    by_contra hneither
    obtain ⟨hsaid, hbefore⟩ := not_or.1 hneither
    have hsaid := Bool.eq_false_iff.2 hsaid
    have hbefore := Bool.eq_false_iff.2 hbefore
    have hsame := (h [] (by decide)).trans (h ['/'] (by decide)).symm
    have hword := keyword_alone hstart hsaid
    rw [opened_append_of_not_any hbefore, opened_append_of_not_any hbefore,
      opened_cons (opensWorld_remarked.trans hstart), opened_cons (opensWorld_remarked.trans hstart),
      openedName?_after_keyword hword (by decide) (by decide),
      openedName?_after_keyword hword (by decide) (by decide)] at hsame
    have hequal := Option.some.inj (Prod.mk.inj hsame).2
    rw [← String.toList_inj, String.toList_ofList, String.toList_ofList] at hequal
    exact absurd hequal (by decide)
  · intro h comment _
    cases hbefore : before.any opensWorld with
    | true => rw [opened_append_of_any hbefore, opened_append_of_any hbefore]
    | false =>
      rw [opened_append_of_not_any hbefore, opened_append_of_not_any hbefore]
      cases hstart : startsWith "world " (spaced line) with
      | true =>
        have hsaid : opensWorld (trim line) = true := (h hstart).resolve_right (by simp [hbefore])
        rw [opened_cons (opensWorld_remarked.trans hstart), opened_cons hsaid, openedName?_remarked hsaid]
      | false =>
        rw [opened_cons_other (opensWorld_remarked.trans hstart),
          opened_cons_other (not_startsWith_of_spaced hstart)]

theorem getLast?_remarked :
    (remarked line comment).getLast? = some ';' ↔ (trimRight comment).getLast? = some ';' := by
  rw [remarked, List.getLast?_append_of_ne_nil _ (List.cons_ne_nil _ _), List.getLast?_cons_cons]
  cases trimRight comment with
  | nil => decide
  | cons c t => rw [List.getLast?_cons_cons]

/-- What a line imports is the start of what stands after the keyword. -/
theorem prefix_import? {target : String} (h : import? (trim line) = some target) :
    target.toList <+: trimLeft ((spaced line).drop "import ".length) := by
  unfold import? at h
  split at h
  · simp only at h
    split at h
    · cases h
    · obtain rfl := Option.some.inj h
      have hprefix : (trim line).dropLast.drop "import ".length <+: (spaced line).drop "import ".length :=
        ((List.dropLast_prefix _).trans (trim_prefix_spaced line)).drop _
      rw [String.toList_ofList]
      exact (prefix_trimRight _).trans (trimLeft_mono hprefix)
  · cases h

/-- A comment that ends in a semicolon becomes part of what a line imports. -/
theorem import?_remarked {t : List Char} (h : startsWith "import " (spaced line) = true)
    (hcomment : trimRight comment = t ++ [';']) : import? (remarked line comment) = some (String.ofList
      (trimLeft ((spaced line).drop "import ".length) ++ '/' :: trimRight ('/' :: t))) := by
  have hlength := (List.isPrefixOf_iff_prefix.1 h).length_le
  rw [String.length_toList] at hlength
  have hinit : (remarked line comment).dropLast = spaced line ++ '/' :: '/' :: t := by
    rw [remarked, hcomment, ← List.cons_append, ← List.cons_append, ← List.append_assoc,
      List.dropLast_concat]
  have htarget : trim ((remarked line comment).dropLast.drop "import ".length) =
      trimLeft ((spaced line).drop "import ".length) ++ '/' :: trimRight ('/' :: t) := by
    rw [hinit, List.drop_append_of_le_length hlength, trim_append_cons (by decide)]
  have hlast : (remarked line comment).getLast? = some ';' :=
    getLast?_remarked.2 (by rw [hcomment, List.getLast?_concat])
  rw [import?, if_pos ⟨(startsWith_remarked (by decide)).trans h, hlast⟩, htarget]
  exact if_neg (by simp)

/-- A comment makes a difference to an import, and to a line that is none for want of a semicolon if the
comment ends in one. -/
theorem import?_remarked_iff : import? (remarked line comment) = import? (trim line) ↔
    startsWith "import " (spaced line) = false ∨
      (import? (trim line) = none ∧ (trimRight comment).getLast? ≠ some ';') := by
  have hstart : startsWith "import " (remarked line comment) = startsWith "import " (spaced line) :=
    startsWith_remarked (by decide)
  cases h : startsWith "import " (spaced line) with
  | false =>
    simp [import?, hstart, h, not_startsWith_of_spaced h]
  | true =>
    by_cases hend : (trimRight comment).getLast? = some ';'
    · refine iff_of_false (fun heq => ?_) (by simp [hend])
      obtain ⟨t, ht⟩ := List.getLast?_eq_some_iff.1 hend
      have hprefix := prefix_import? (heq.symm.trans (import?_remarked h ht))
      rw [String.toList_ofList] at hprefix
      exact append_cons_ne_of_prefix hprefix rfl
    · have hnone : import? (remarked line comment) = none :=
        if_neg fun hboth => hend (getLast?_remarked.1 hboth.2)
      rw [hnone, eq_comm]
      simp [hend]

/-- Two texts say the same about a world. -/
def SameWorld (a b : String) : Prop := isSource a = isSource b ∧ name? a = name? b

theorem sameWorld_iff {a b : String} :
    SameWorld a b ↔ opened (trimmedLines a) = opened (trimmedLines b) := by
  rw [SameWorld, name?_eq, name?_eq, opened, opened, Prod.mk.injEq]
  rfl

end World

namespace Interface
open Text World

/-- Which readings of a text a comment leaves as they are, for a line that says something: what it
declares, by whether the line stands in a body, what it says about a world, and what it imports. -/
theorem withComment_same_iff (path : Path) {text : String} {n : Nat} {line : List Char}
    (hline : (lines text.toList)[n]? = some line) (hspeaks : isIdle (trim line) = false) :
    (endsInside ((trimmedLines text).take n) = true → ∀ comment, Unbroken comment →
      ((parse path (withComment n comment text)).declarations = (parse path text).declarations ↔
        closes (trim line) = true ∨ 2 ≤ (trim line).count ':' ∨
          ((trim line).count ':' = 0 ∧ comment.count ':' ≠ 1))) ∧
    (endsInside ((trimmedLines text).take n) = false →
      ((∀ comment, Unbroken comment →
          (parse path (withComment n comment text)).declarations = (parse path text).declarations) ↔
        startsWith "variant " (spaced line) = false ∧ (startsWith "record " (spaced line) = true →
          Signature.IsSpoiled (declaredName "record" (trim line))))) ∧
    ((∀ comment, Unbroken comment → SameWorld (withComment n comment text) text) ↔
      (startsWith "world " (spaced line) = true → opensWorld (trim line) = true ∨
        ((trimmedLines text).take n).any opensWorld = true)) ∧
    ∀ comment, Unbroken comment → (importsOf (withComment n comment text) = importsOf text ↔
      startsWith "import " (spaced line) = false ∨
        (import? (trim line) = none ∧ (trimRight comment).getLast? ≠ some ';')) := by
  have hsaid : trim line ≠ [] := fun he => by
    rw [he] at hspeaks
    cases hspeaks
  have htext := trimmedLines_split hline
  have hcommented {comment : List Char} (hcomment : Unbroken comment) :=
    trimmedLines_withComment hline hsaid hcomment
  have hdeclared {comment : List Char} (hcomment : Unbroken comment) :
      (parse path (withComment n comment text)).declarations = (parse path text).declarations ↔
        declared ((trimmedLines text).take n ++ remarked line comment :: (trimmedLines text).drop (n + 1)) =
          declared ((trimmedLines text).take n ++ trim line :: (trimmedLines text).drop (n + 1)) := by
    rw [declarations_parse, declarations_parse, hcommented hcomment, ← htext]
  refine ⟨fun hinside comment hcomment => ?_, fun houtside => ?_, ?_, fun comment hcomment => ?_⟩
  · rw [hdeclared hcomment, declared_inside_iff hinside (isIdle_remarked hspeaks) hspeaks
      (closes_remarked hsaid), field?_remarked_iff]
  · rw [← declared_outside_iff houtside]
    exact forall₂_congr fun comment hcomment => hdeclared hcomment
  · rw [← opened_iff]
    refine forall₂_congr fun comment hcomment => ?_
    rw [sameWorld_iff, hcommented hcomment, ← htext]
  · have hplain := congrArg (List.filterMap import?) htext
    rw [← import?_remarked_iff, importsOf, importsOf, hcommented hcomment, hplain, List.filterMap_append,
      List.filterMap_append, List.append_cancel_left_eq]
    cases h₁ : import? (remarked line comment) <;> cases h₂ : import? (trim line) <;> simp [h₁, h₂]

/-- No comment after the brace that closes a body makes a difference. -/
theorem withComment_same_iff_closing :
    let path : Path := ⟨.relative, ["api.wit"]⟩
    let text := "record get-signature-http \x7b\ntarget: string,\n\x7d\nvariant v \x7b"
    (lines text.toList)[2]? = some ['\x7d'] ∧ isIdle (trim ['\x7d']) = false ∧
      endsInside ((trimmedLines text).take 2) = true ∧
      ∀ comment, Unbroken comment →
        (parse path (withComment 2 comment text)).declarations = (parse path text).declarations := by
  intro path text
  have hline : (lines text.toList)[2]? = some ['\x7d'] := by decide +kernel
  have hspeaks : isIdle (trim ['\x7d']) = false := by decide
  have hinside : endsInside ((trimmedLines text).take 2) = true := by decide +kernel
  refine ⟨hline, hspeaks, hinside, fun comment hcomment => ?_⟩
  exact ((withComment_same_iff path hline hspeaks).1 hinside comment hcomment).2 (.inl (by decide))

/-- A comment after a field becomes part of its type. -/
theorem withComment_changes_field :
    let path : Path := ⟨.relative, ["api.wit"]⟩
    let text := "record get-signature-http \x7b\ntarget: string,\n\x7d\n"
    let commented := "record get-signature-http \x7b\ntarget: string, // where\n\x7d\n"
    withComment 1 " where".toList text = commented ∧
      (parse path text).signatures = [⟨"get", "http", [⟨"target", "string"⟩]⟩] ∧
      (parse path commented).signatures = [⟨"get", "http", [⟨"target", "string, // where"⟩]⟩] ∧
      ¬ ∀ text n line, (lines text.toList)[n]? = some line → isIdle (trim line) = false →
        ∀ comment, Unbroken comment →
          (parse path (withComment n comment text)).declarations = (parse path text).declarations ∧
          SameWorld (withComment n comment text) text ∧
          importsOf (withComment n comment text) = importsOf text := by
  intro path text commented
  have hcommented : withComment 1 " where".toList text = commented := by decide +kernel
  have hplain : (parse path text).signatures = [⟨"get", "http", [⟨"target", "string"⟩]⟩] := by
    decide +kernel
  have hnoted : (parse path commented).signatures =
      [⟨"get", "http", [⟨"target", "string, // where"⟩]⟩] := by
    decide +kernel
  refine ⟨hcommented, hplain, hnoted, fun hall => ?_⟩
  have hsame := (Prod.mk.inj (hall text 1 "target: string,".toList (by decide +kernel)
    (by decide +kernel) " where".toList (by decide)).1).1
  rw [hcommented, hplain, hnoted] at hsame
  exact absurd hsame (by decide)

end Interface

end WitCaller
