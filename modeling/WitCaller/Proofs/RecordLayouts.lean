import WitCaller.Proofs.Declarations
import WitCaller.Proofs.IdleLines
import WitCaller.Proofs.SignatureNames

/-!
The record of a signature with a line for each field, and on a single line. The scan goes by lines, so it
finds the fields in the first layout only. On a single line they belong to the name of the record, and
the lines after it are taken for its body.
-/

namespace WitCaller

namespace Interface
open Text Signature
variable {s : Signature} {f : Field} {fields : List Field} {operation kind : String}
  {row : List Char} {before rows after : List (List Char)}

/-- A field as it is written. -/
def fieldText (f : Field) : String := f.name ++ ": " ++ f.type

/-- A field on a line of its own, with or without a comma, without the blanks at the ends of the line. -/
def IsRow (f : Field) (row : List Char) : Prop :=
  row = trim (fieldText f).toList ∨ row = trim (fieldText f ++ ",").toList

/-- The line with the name of a record, and what is said after the name. -/
def recordLine (s : Signature) (rest : String) : List Char :=
  ("record " ++ recordName s.operation s.kind ++ rest).toList

/-- The first line of a record whose fields have lines of their own. -/
def headerLine (s : Signature) : List Char := recordLine s " \x7b"

/-- The fields of a record on the line of its name. -/
def block (fields : List Field) : String :=
  if fields = [] then " \x7b\x7d" else " \x7b " ++ join ", " (fields.map fieldText) ++ " \x7d"

/-- A record on a single line. -/
def compactLine (s : Signature) : List Char := recordLine s (block s.fields)

/-- Two texts that differ in the layout of one record, between the same lines. -/
structure Layouts (s : Signature) (before rows after : List (List Char)) (a b : String) : Prop where
  kebab : s.IsKebab
  types : ∀ f ∈ s.fields, ':' ∉ f.type.toList
  written : List.Forall₂ IsRow s.fields rows
  lined : saidLines a = before ++ headerLine s :: (rows ++ ['\x7d'] :: after)
  compact : saidLines b = before ++ compactLine s :: after

theorem declarations_of_saidLines {path : Path} {text : String} {ls : List (List Char)}
    (h : saidLines text = ls) : (parse path text).declarations = declared ls := by
  rw [declarations_parse, declared, declared, ← h, saidLines, itemsOf_saying]

/-- A row is its name, a colon and its type, with or without a comma. -/
theorem cases_of_isRow (hname : Identifier.IsKebab f.name) (h : IsRow f row) :
    row = f.name.toList ++ ':' :: trimRight (' ' :: f.type.toList) ∨
      row = f.name.toList ++ ':' :: trimRight (' ' :: f.type.toList ++ [',']) := by
  have htrim (t : List Char) : trim (f.name.toList ++ ':' :: t) = f.name.toList ++ ':' :: trimRight t := by
    rw [trim_append_cons (by decide), trimLeft_of_unblank hname.unblank]
  apply h.imp
  · rintro rfl
    rw [← htrim, fieldText]
    simp
  · rintro rfl
    rw [← htrim, fieldText]
    simp

theorem exists_of_isRow (hname : Identifier.IsKebab f.name) (h : IsRow f row) :
    ∃ rest, row = f.name.toList ++ ':' :: rest :=
  (cases_of_isRow hname h).elim (fun he => ⟨_, he⟩) fun he => ⟨_, he⟩

/-- A row belongs to a body, and outside of bodies declares nothing. -/
theorem row_silent (hname : Identifier.IsKebab f.name) (h : IsRow f row) :
    closes row = false ∧ isIdle row = false ∧ (heading row).IsSilent := by
  obtain ⟨type, rfl⟩ := exists_of_isRow hname h
  have hne : f.name.toList ≠ [] := fun he => hname.ne_empty (String.toList_eq_nil_iff.1 he)
  obtain ⟨c, r, hc⟩ := List.exists_cons_of_ne_nil hne
  have hstart {keyword : String} (hcolon : ':' ∉ keyword.toList) (hblank : ' ' ∈ keyword.toList) :
      startsWith keyword (f.name.toList ++ ':' :: type) = false := by
    refine Bool.eq_false_iff.2 fun hs => hname.notMem (c := ' ') (by decide) (by decide) ?_
    exact ((prefix_separated_iff hcolon).1 (List.isPrefixOf_iff_prefix.1 hs)).subset hblank
  have hfirst {d : Char} (hd : d.isAlphanum = false) (hne : d ≠ '-') : c ≠ d := fun he =>
    hname.notMem hd hne (by rw [hc, he]; exact List.mem_cons_self)
  refine ⟨?_, ?_, ?_⟩
  · rw [hc]
    simpa [closes] using hfirst (d := '\x7d') (by decide) (by decide)
  · rw [hc]
    refine Bool.eq_false_iff.2 fun hidle => ?_
    rcases head?_of_isIdle hidle with he | he
    · cases he
    · exact hfirst (d := '/') (by decide) (by decide) (Option.some.inj he)
  · exact .inl (heading_other (hstart (by decide) (by decide)) (hstart (by decide) (by decide)))

theorem exists_of_mem_rows (h : List.Forall₂ IsRow fields rows) (hrow : row ∈ rows) :
    ∃ f ∈ fields, IsRow f row := by
  induction h with
  | nil => cases hrow
  | cons hwritten _ ih =>
    rcases List.mem_cons.1 hrow with rfl | hrow
    · exact ⟨_, List.mem_cons_self, hwritten⟩
    · obtain ⟨f, hf, hwritten⟩ := ih hrow
      exact ⟨f, List.mem_cons_of_mem _ hf, hwritten⟩

/-- A type as it is written, without blanks at its ends and without a comma after it. -/
def IsTypeText (type : String) : Prop :=
  trim type.toList = type.toList ∧ type.toList.getLast? ≠ some ','

instance (type : String) : Decidable (IsTypeText type) :=
  inferInstanceAs (Decidable (trim type.toList = type.toList ∧ type.toList.getLast? ≠ some ','))

theorem IsTypeText.trimLeft {type : String} (h : IsTypeText type) : trimLeft type.toList = type.toList := by
  have hlength : type.toList.length ≤ (Text.trimLeft type.toList).length := by
    conv_lhs => rw [← h.1]
    exact (prefix_trimRight _).length_le
  have hsuffix := trimLeft_suffix type.toList
  exact hsuffix.eq_of_length_le hlength

/-- A row is read as the field it was written for. -/
theorem field?_row (hname : Identifier.IsKebab f.name) (hcolon : ':' ∉ f.type.toList)
    (htype : IsTypeText f.type) (h : IsRow f row) : (bodyLine row).field? = some f := by
  have hread {t : List Char} (ht : ':' ∉ t) (hrest : trim (dropCommas (trim t)) = f.type.toList) :
      (bodyLine (f.name.toList ++ ':' :: trimRight t)).field? = some f := by
    have hcolon : ':' ∉ trimRight t := fun hmem => ht ((prefix_trimRight t).subset hmem)
    rw [bodyLine_field (hname.notMem (by decide) (by decide)) hcolon, trim_trimRight, hrest,
      trim_of_unblank hname.unblank, String.ofList_toList, String.ofList_toList]
    rfl
  have hleft : trimLeft (' ' :: f.type.toList) = f.type.toList := by
    rw [trimLeft_cons_blank (by decide), htype.trimLeft]
  have hright : trimRight f.type.toList = f.type.toList := by
    have htrim := htype.1
    rwa [trim, htype.trimLeft] at htrim
  rcases cases_of_isRow hname h with rfl | rfl
  · refine hread (by simpa using hcolon) ?_
    have htrim : trim (' ' :: f.type.toList) = f.type.toList := by rw [trim, hleft, hright]
    rw [htrim, dropCommas_of_last htype.2, htype.1]
  · refine hread (by simpa using hcolon) ?_
    have htrim : trim (' ' :: f.type.toList ++ [',']) = f.type.toList ++ [','] := by
      rw [trim_append_cons (by decide), hleft]
      rfl
    rw [htrim, dropCommas_concat, dropCommas_of_last htype.2, htype.1]

/-- The rows of fields are read as the fields. -/
theorem fieldsOf_written (h : List.Forall₂ IsRow fields rows) (hnames : ∀ f ∈ fields, Identifier.IsKebab f.name)
    (hcolons : ∀ f ∈ fields, ':' ∉ f.type.toList) (htypes : ∀ f ∈ fields, IsTypeText f.type) :
    fieldsOf rows = fields := by
  induction h with
  | nil => rfl
  | cons hrow _ ih =>
    obtain ⟨hname, hnames⟩ := List.forall_mem_cons.1 hnames
    obtain ⟨hcolon, hcolons⟩ := List.forall_mem_cons.1 hcolons
    obtain ⟨htype, htypes⟩ := List.forall_mem_cons.1 htypes
    obtain ⟨hcloses, hspeaks, -⟩ := row_silent hname hrow
    rw [fieldsOf_cons hcloses hspeaks, field?_row hname hcolon htype hrow, ih hnames hcolons htypes]
    rfl

theorem recordLine_eq (s : Signature) (rest : String) : recordLine s rest =
    "record".toList ++ ' ' :: ((recordName s.operation s.kind).toList ++ rest.toList) := by
  simp [recordLine]

theorem startsWith_recordLine (s : Signature) (rest : String) :
    startsWith "record " (recordLine s rest) = true := by
  rw [startsWith, List.isPrefixOf_iff_prefix, recordLine, String.toList_append, String.toList_append,
    List.append_assoc]
  exact List.prefix_append _ _

theorem startsWith_header (s : Signature) : startsWith "record " (headerLine s) = true :=
  startsWith_recordLine s _

theorem startsWith_compact (s : Signature) : startsWith "record " (compactLine s) = true :=
  startsWith_recordLine s _

/-- In a body, a line that starts a record is one like others. -/
theorem says_of_record {l : List Char} (h : startsWith "record " l = true) :
    closes l = false ∧ isIdle l = false := by
  obtain ⟨rest, rfl⟩ := List.isPrefixOf_iff_prefix.1 h
  exact ⟨rfl, rfl⟩

theorem drop_recordLine (s : Signature) (rest : String) : (recordLine s rest).drop "record".length =
    ' ' :: ((recordName s.operation s.kind).toList ++ rest.toList) := by
  rw [recordLine_eq, drop_keyword]

theorem exists_block (fields : List Field) :
    ∃ inner, (block fields).toList = ' ' :: '\x7b' :: inner ++ ['\x7d'] := by
  unfold block
  split
  · exact ⟨[], rfl⟩
  · exact ⟨' ' :: (join ", " (fields.map fieldText)).toList ++ [' '], by simp⟩

theorem recordName_ne_nil (hs : s.IsKebab) : (recordName s.operation s.kind).toList ≠ [] := fun he =>
  (isKebab_recordName hs.operation hs.kind).ne_empty (String.toList_eq_nil_iff.1 he)

/-- The brace at the end of the line is no part of the name. -/
theorem declaredName_header (hs : s.IsKebab) :
    declaredName "record" (headerLine s) = recordName s.operation s.kind := by
  have hname := (isKebab_recordName hs.operation hs.kind).unblank
  have hbrace (t : List Char) : dropBrace (t ++ ['\x7b']) = t := by
    rw [dropBrace, List.getLast?_concat, if_pos rfl, List.dropLast_concat]
  have htrim : trim ((headerLine s).drop "record".length) =
      (recordName s.operation s.kind).toList ++ [' '] ++ ['\x7b'] := by
    have hseam : ' ' :: ((recordName s.operation s.kind).toList ++ " \x7b".toList) =
        ' ' :: ((recordName s.operation s.kind).toList ++ [' ']) ++ '\x7b' :: [] := by simp
    rw [headerLine, drop_recordLine, hseam, trim_append_cons (by decide),
      trimLeft_after_blank hname (recordName_ne_nil hs)]
    rfl
  rw [declaredName, htrim, hbrace, trim_append_of_blank (by simp [isBlank]), trim_of_unblank hname,
    String.ofList_toList]

/-- On a single line, the fields are part of the name. -/
theorem declaredName_compact (hs : s.IsKebab) :
    declaredName "record" (compactLine s) = recordName s.operation s.kind ++ block s.fields := by
  have hname := (isKebab_recordName hs.operation hs.kind).unblank
  obtain ⟨inner, hinner⟩ := exists_block s.fields
  have hdrop : (compactLine s).drop "record".length =
      ' ' :: ((recordName s.operation s.kind).toList ++ ' ' :: '\x7b' :: inner) ++ '\x7d' :: [] := by
    rw [compactLine, drop_recordLine, hinner]
    simp
  rw [← String.toList_inj, declaredName_append_cons (by decide) (by decide) hdrop,
    trimLeft_after_blank hname (recordName_ne_nil hs), String.toList_append, hinner]
  simp [dropBrace, trimRight]

namespace Layouts
variable {path : Path} {a b : String}

/-- The lines of the fields belong to a body, and outside of bodies declare nothing. -/
theorem rows_silent (h : Layouts s before rows after a b) (hrow : row ∈ rows) :
    closes row = false ∧ isIdle row = false ∧ (heading row).IsSilent := by
  obtain ⟨f, hf, hwritten⟩ := exists_of_mem_rows h.written hrow
  exact row_silent (h.kebab.fields f hf) hwritten

/-- The brace on a line of its own ends the body after the fields. -/
theorem body_rows (h : Layouts s before rows after a b) :
    fieldsOf (rows ++ ['\x7d'] :: after) = fieldsOf rows ∧ afterBody (rows ++ ['\x7d'] :: after) = after := by
  have hopen : rows.any closes = false := List.any_eq_false.2 fun row hrow => by
    rw [(h.rows_silent hrow).1]
    decide
  obtain ⟨hbody, hafter⟩ := body_append_open (['\x7d'] :: after) hopen
  refine ⟨?_, hafter⟩
  rw [fieldsOf, hbody, fieldsOf]
  simp [bodyOf, closes]

theorem declared_rows (h : Layouts s before rows after a b) :
    declared (rows ++ ['\x7d'] :: after) = declared after := by
  have hbrace : (heading ['\x7d']).IsSilent := .inl (by decide)
  rw [declared_append_of_silent fun row hrow => (h.rows_silent hrow).2.2, declared_cons_silent hbrace]

/-- With lines for the fields, the record is the signature that its name says, with these fields. -/
theorem declarations_lined (h : Layouts s before rows after a b) (hbefore : endsInside before = false)
    (hsplit : splitName (recordName s.operation s.kind) = .ok (operation, kind)) :
    (parse path a).declarations = ((declared before).1 ++ ⟨operation, kind, fieldsOf rows⟩ ::
      (declared after).1, (declared before).2 ++ (declared after).2) := by
  have hheading := heading_of_splitName (startsWith_header s) (by rwa [declaredName_header h.kebab])
  rw [declarations_of_saidLines h.lined, declared_append_outside hbefore,
    declared_cons_signature hheading, h.body_rows.1, h.body_rows.2]

/-- On a single line, the record is a signature whose kind goes up to the end of the line, with the fields
on the lines after it, or it is skipped since its name has the marker twice. -/
theorem declarations_compact (h : Layouts s before rows after a b) (hbefore : endsInside before = false)
    (hsplit : splitName (recordName s.operation s.kind) = .ok (operation, kind)) :
    (parse path b).declarations =
      if IsMarked (block s.fields) then
        ((declared before).1 ++ (declared after).1, (declared before).2 ++ (declared after).2)
      else
        ((declared before).1 ++ ⟨operation, kind ++ block s.fields, fieldsOf after⟩ ::
          (declared (afterBody after)).1, (declared before).2 ++ (declared (afterBody after)).2) := by
  obtain ⟨hname, hoperation, -, hunmarked⟩ := splitName_eq_ok_iff.1 hsplit
  have hcut := cut_marker_iff.2 ⟨hname, hunmarked.1, hunmarked.2.1⟩
  rw [declarations_of_saidLines h.compact, declared_append_outside hbefore]
  split
  · next hmarked =>
    have hspoiled : IsSpoiled (declaredName "record" (compactLine s)) := by
      rw [declaredName_compact h.kebab]
      refine ⟨operation.toList, kind.toList ++ (block s.fields).toList, ?_, .inr ?_⟩
      · rw [String.toList_append]
        exact cut_append_right (by decide) hcut _
      · exact contains_iff.2 (hmarked.trans (List.suffix_append _ _).isInfix)
    rw [declared_cons_silent (heading_of_isSpoiled (startsWith_compact s) hspoiled)]
  · next hmarked =>
    obtain ⟨inner, hinner⟩ := exists_block s.fields
    have hlonger : splitName (declaredName "record" (compactLine s)) =
        .ok (operation, kind ++ block s.fields) := by
      have hfirst : operation.toList ≠ [] := fun he => hoperation (String.toList_eq_nil_iff.1 he)
      have hrest : ¬ signatureMarker <:+: '\x7b' :: inner ++ ['\x7d'] := fun hin =>
        hmarked (by rw [IsMarked, hinner]; exact hin.trans (List.suffix_cons ' ' _).isInfix)
      have hname : (declaredName "record" (compactLine s)).toList =
          (recordName s.operation s.kind).toList ++ ' ' :: ('\x7b' :: inner ++ ['\x7d']) := by
        rw [declaredName_compact h.kebab, String.toList_append, hinner]
        rfl
      have hkind : String.ofList (kind.toList ++ ' ' :: ('\x7b' :: inner ++ ['\x7d'])) =
          kind ++ block s.fields := by
        rw [← String.toList_inj, String.toList_ofList, String.toList_append, hinner]
        rfl
      rw [splitName_append hcut hfirst hunmarked.2.2 (by decide) hrest hname, String.ofList_toList, hkind]
    rw [declared_cons_signature (heading_of_splitName (startsWith_compact s) hlonger)]

/-- A record whose name is spoiled is skipped in both layouts. -/
theorem declarations_spoiled (h : Layouts s before rows after a b) (hbefore : endsInside before = false)
    (hspoiled : IsSpoiled (recordName s.operation s.kind)) :
    (parse path a).declarations = (parse path b).declarations := by
  have hheader : IsSpoiled (declaredName "record" (headerLine s)) := by
    rwa [declaredName_header h.kebab]
  have hcompact : IsSpoiled (declaredName "record" (compactLine s)) := by
    rw [declaredName_compact h.kebab]
    refine hspoiled.append ?_
    rw [String.toList_append]
    exact List.prefix_append _ _
  rw [declarations_of_saidLines h.lined, declarations_of_saidLines h.compact,
    declared_append_outside hbefore, declared_append_outside hbefore,
    declared_cons_silent (heading_of_isSpoiled (startsWith_header s) hheader), h.declared_rows,
    declared_cons_silent (heading_of_isSpoiled (startsWith_compact s) hcompact)]

/-- The two layouts declare the same only if the record is skipped in both. -/
theorem declarations_eq_iff (h : Layouts s before rows after a b) (hbefore : endsInside before = false) :
    (parse path a).declarations = (parse path b).declarations ↔
      IsSpoiled (recordName s.operation s.kind) := by
  refine ⟨fun heq => ?_, h.declarations_spoiled hbefore⟩
  by_contra hsound
  obtain ⟨operation, kind, hsplit⟩ := exists_splitName h.kebab.operation h.kebab.kind hsound
  rw [h.declarations_lined hbefore hsplit, h.declarations_compact hbefore hsplit] at heq
  split at heq
  · -- One layout declares one signature more than the other.
    have hsignatures := List.append_cancel_left (Prod.mk.inj heq).1
    exact absurd hsignatures (List.cons_ne_self _ _)
  · have hfirst := (List.cons.inj (List.append_cancel_left (Prod.mk.inj heq).1)).1
    have hkind := congrArg String.toList (Signature.mk.inj hfirst).2.1
    obtain ⟨inner, hinner⟩ := exists_block s.fields
    rw [String.toList_append, hinner] at hkind
    simp at hkind

/-- In the body of another signature, the lines of the fields and the brace belong to that body; a single
line is at most one field of it, and the body goes on. -/
theorem declarations_inside (h : Layouts s before rows after a b) (hbefore : endsInside before = true) :
    ∃ signatures types operation kind fields,
      declared before = (signatures ++ [⟨operation, kind, fields⟩], types) ∧
      (parse path a).declarations = (signatures ++ ⟨operation, kind, fields ++ fieldsOf rows⟩ ::
        (declared after).1, types ++ (declared after).2) ∧
      (parse path b).declarations = (signatures ++ ⟨operation, kind,
        fields ++ ((bodyLine (compactLine s)).field?.toList ++ fieldsOf after)⟩ ::
          (declared (afterBody after)).1, types ++ (declared (afterBody after)).2) := by
  obtain ⟨signatures, types, operation, kind, fields, happend⟩ := declared_append_inside hbefore
  have hempty : declared ([] : List (List Char)) = ([], []) := by
    rw [declared, itemsOf]
    rfl
  refine ⟨signatures, types, operation, kind, fields, ?_, ?_, ?_⟩
  · have hbefore := happend []
    have hafter : afterBody [] = [] := rfl
    have hfields : fieldsOf [] = [] := rfl
    rw [List.append_nil, hafter, hfields, hempty, List.append_nil, List.append_nil] at hbefore
    exact hbefore
  · obtain ⟨hcloses, hspeaks⟩ := says_of_record (startsWith_header s)
    have hcolon : ':' ∉ headerLine s := by
      rw [headerLine, recordLine_eq]
      simpa using (isKebab_recordName h.kebab.operation h.kebab.kind).notMem (c := ':') (by decide) (by decide)
    have hnone : (bodyLine (headerLine s)).field? = none :=
      field?_of_count_ne (by rw [List.count_eq_zero_of_not_mem hcolon]; decide)
    rw [declarations_of_saidLines h.lined, happend, fieldsOf_cons hcloses hspeaks, afterBody_cons hcloses,
      h.body_rows.1, h.body_rows.2, hnone]
    rfl
  · obtain ⟨hcloses, hspeaks⟩ := says_of_record (startsWith_compact s)
    rw [declarations_of_saidLines h.compact, happend, fieldsOf_cons hcloses hspeaks, afterBody_cons hcloses]

/-- The lines of the fields are read as the fields. -/
theorem fieldsOf_rows (h : Layouts s before rows after a b) (htypes : ∀ f ∈ s.fields, IsTypeText f.type) :
    fieldsOf rows = s.fields :=
  fieldsOf_written h.written h.kebab.fields h.types htypes

end Layouts

/-- What the two layouts of a record declare. Outside of bodies they declare the same exactly if the name
of the record is spoiled. Else the layout with lines is the signature of that name with the fields, and
the single line is one whose kind goes up to the end of the line and whose fields are on the lines after
it, or is skipped if it has the marker again. -/
theorem layouts_same_iff (path : Path) {a b : String} (h : Layouts s before rows after a b) :
    (endsInside before = false →
      ((parse path a).declarations = (parse path b).declarations ↔
        IsSpoiled (recordName s.operation s.kind)) ∧
      ∀ operation kind, splitName (recordName s.operation s.kind) = .ok (operation, kind) →
        (parse path a).declarations = ((declared before).1 ++ ⟨operation, kind, fieldsOf rows⟩ ::
          (declared after).1, (declared before).2 ++ (declared after).2) ∧
        (parse path b).declarations =
          if IsMarked (block s.fields) then
            ((declared before).1 ++ (declared after).1, (declared before).2 ++ (declared after).2)
          else
            ((declared before).1 ++ ⟨operation, kind ++ block s.fields, fieldsOf after⟩ ::
              (declared (afterBody after)).1, (declared before).2 ++ (declared (afterBody after)).2)) ∧
    (endsInside before = true → ∃ signatures types operation kind fields,
      declared before = (signatures ++ [⟨operation, kind, fields⟩], types) ∧
      (parse path a).declarations = (signatures ++ ⟨operation, kind, fields ++ fieldsOf rows⟩ ::
        (declared after).1, types ++ (declared after).2) ∧
      (parse path b).declarations = (signatures ++ ⟨operation, kind,
        fields ++ ((bodyLine (compactLine s)).field?.toList ++ fieldsOf after)⟩ ::
          (declared (afterBody after)).1, types ++ (declared (afterBody after)).2)) ∧
    ((∀ f ∈ s.fields, IsTypeText f.type) → fieldsOf rows = s.fields) := by
  refine ⟨fun hbefore => ⟨h.declarations_eq_iff hbefore, fun operation kind hsplit => ?_⟩,
    h.declarations_inside, h.fieldsOf_rows⟩
  exact ⟨h.declarations_lined hbefore hsplit, h.declarations_compact hbefore hsplit⟩

/-- The body of a record on a single line is looked for on the lines after it, here up to the brace that
closes the interface, and the variant in between is lost. -/
theorem layouts_same_iff_swallowed :
    let path : Path := ⟨.relative, ["api.wit"]⟩
    let s : Signature := ⟨"get", "http", [⟨"target", "string"⟩, ⟨"key", "list<u8>"⟩]⟩
    let before := ["interface api \x7b".toList]
    let rows := ["target: string,".toList, "key: list<u8>".toList]
    let after := ["variant v \x7b".toList, "\x7d".toList, "\x7d".toList]
    let a := "interface api \x7b\n  record get-signature-http \x7b\n    target: string,\n    key: list<u8>\n  \x7d\n\n  // next\n  variant v \x7b\n  \x7d\n\x7d\n"
    let b := "interface api \x7b\n  record get-signature-http \x7b target: string, key: list<u8> \x7d\n\n  // next\n  variant v \x7b\n  \x7d\n\x7d\n"
    Layouts s before rows after a b ∧ endsInside before = false ∧
      splitName (recordName s.operation s.kind) = .ok ("get", "http") ∧
      (parse path a).declarations = ([s], [⟨"v", .variant⟩]) ∧
      (parse path b).declarations = ([⟨"get", "http \x7b target: string, key: list<u8> \x7d", []⟩], []) := by
  intro path s before rows after a b
  have hlined : saidLines a = before ++ headerLine s :: (rows ++ ['\x7d'] :: after) := by
    rw [headerLine, recordLine_eq, recordName, String.toList_ofList]
    decide +kernel
  have hcompact : saidLines b = before ++ compactLine s :: after := by
    rw [compactLine, recordLine_eq, recordName, String.toList_ofList]
    decide +kernel
  have h : Layouts s before rows after a b :=
    ⟨⟨by decide, by decide, by decide⟩, by decide,
      .cons (.inr (by decide)) (.cons (.inl (by decide)) .nil), hlined, hcompact⟩
  have hbefore : endsInside before = false := by decide
  have hsplit : splitName (recordName s.operation s.kind) = .ok ("get", "http") := by
    rw [splitName_eq_ok_iff]
    decide
  obtain ⟨houtside, -, hfields⟩ := layouts_same_iff path h
  obtain ⟨ha, hb⟩ := (houtside hbefore).2 _ _ hsplit
  refine ⟨h, hbefore, hsplit, ?_, ?_⟩
  · rw [ha, hfields (by decide)]
    decide +kernel
  · rw [hb]
    decide +kernel

/-- A record on a single line is not the signature that it is with a line for each field. -/
theorem layouts_differ :
    let path : Path := ⟨.relative, ["api.wit"]⟩
    let s : Signature := ⟨"get", "http", [⟨"target", "string"⟩]⟩
    let a := "record get-signature-http \x7b\ntarget: string\n\x7d\n"
    let b := "record get-signature-http \x7b target: string \x7d\n"
    Layouts s [] ["target: string".toList] [] a b ∧
      (parse path a).declarations = ([s], []) ∧
      (parse path b).declarations = ([⟨"get", "http \x7b target: string \x7d", []⟩], []) ∧
      ¬ ∀ s before rows after a b, Layouts s before rows after a b →
        (parse path a).declarations = (parse path b).declarations := by
  intro path s a b
  have hlined : saidLines a = [headerLine s, "target: string".toList, ['\x7d']] := by
    rw [headerLine, recordLine_eq, recordName, String.toList_ofList]
    decide +kernel
  have hcompact : saidLines b = [compactLine s] := by
    rw [compactLine, recordLine_eq, recordName, String.toList_ofList]
    decide +kernel
  have h : Layouts s [] ["target: string".toList] [] a b :=
    ⟨⟨by decide, by decide, by decide⟩, by decide, .cons (.inl (by decide)) .nil, hlined, hcompact⟩
  have ha : (parse path a).declarations = ([s], []) := by decide +kernel
  have hb : (parse path b).declarations = ([⟨"get", "http \x7b target: string \x7d", []⟩], []) := by
    decide +kernel
  refine ⟨h, ha, hb, fun hall => ?_⟩
  have hequal := hall s [] ["target: string".toList] [] a b h
  rw [ha, hb] at hequal
  exact absurd hequal (by decide)

end Interface

end WitCaller
