import WitCaller.Proofs.Manifest.DependencyPlace
import WitCaller.Proofs.Manifest.MembersPlace

/-!
The array of members as its reader sees it, before and after one more item is put in.
-/

namespace WitCaller.Manifest
open Toml Text Reading
variable {after : Bool} {c : Char} {g g' w r s t u z : List Char} {v : Value} {vs : List Value}
  {x : List Value × List Char} {member : String} {a : ArrayText}

theorem not_isScalar_of_isBlank (hc : isBlank c) : isScalar c = false := by
  rw [← Bool.not_eq_true]
  intro hs
  have hbare : isBare c = false := by
    rw [← Bool.not_eq_true]
    intro hb
    rw [not_isBlank_of_isBare hb] at hc
    cases hc
  simp only [isBare, Bool.or_eq_false_iff] at hbare
  simp only [isScalar, hbare, Bool.false_or, Bool.or_false, Bool.or_eq_true, beq_iff_eq] at hs
  rcases hs with (rfl | rfl) | rfl <;> cases hc

theorem not_opens_of_isBlank (hc : isBlank c) : ¬ Opens c := by
  rintro ((rfl | rfl) | rfl | rfl) <;> cases hc

/-- No value begins with a blank that the document does not know. -/
theorem outcome_readValue_blank (hc : isBlank c) (hs : isSpace c = false) :
    outcome (readValue (c :: r)) = none := by
  have hgo : goesOn c r = false := by
    refine goesOn_eq_false (not_isScalar_of_isBlank hc) ?_
    rintro rfl
    cases hs
  exact outcome_readValue_none (not_opens_of_isBlank hc) hgo

theorem restItems_blank (hc : isBlank c) (hgap : ¬ (isSpace c ∨ c = '\n')) :
    restItems after vs (c :: r) = none := by
  have hhash : c ≠ '#' := by
    rintro rfl
    cases hc
  have hbracket : c ≠ ']' := by
    rintro rfl
    cases hc
  have hcomma : c ≠ ',' := by
    rintro rfl
    cases hc
  have hskip : skipGaps false (c :: r) = some (c :: r) := skipGaps_stop hgap hhash
  cases after with
  | true => exact restItems_none hskip hbracket hcomma
  | false =>
    have hs : isSpace c = false := by simpa using (not_or.1 hgap).1
    rw [restItems_item hskip hbracket, readItem_eq_rest, outcome_readValue_blank hc hs]
    rfl

/-- A comment is skipped up to the end of its line, unless it holds a control character. -/
theorem skipGaps_commentLine (hr : '\n' ∉ r) :
    (∀ z, skipGaps true (r ++ '\n' :: z) = skipGaps false z) ∨
      ∀ z, skipGaps true (r ++ '\n' :: z) = none := by
  induction r with
  | nil => exact .inl fun _ => skipGaps_comment_end
  | cons c r ih =>
    rw [List.mem_cons, not_or] at hr
    by_cases hc : isControl c
    · refine .inr fun z => ?_
      rw [List.cons_append, skipGaps, if_pos rfl, if_neg (Ne.symm hr.1), if_pos hc]
    · refine (ih hr.2).imp (fun h z => ?_) fun h z => ?_
      all_goals exact (skipGaps_comment hc).trans (h z)

/-- What the scan takes for a gap is one, or it cannot be read. -/
theorem Gap.fills (hg : Gap g) : Filler false g ∨ ∀ after vs z, restItems after vs (g ++ z) = none := by
  induction hg with
  | nil => exact .inl fun _ => rfl
  | @blank c g hc _ ih =>
    by_cases hgap : isSpace c ∨ c = '\n'
    · have hskip (z : List Char) : skipGaps false (c :: g ++ z) = skipGaps false (g ++ z) :=
        skipGaps_blank hgap
      refine ih.imp (fun h z => (hskip z).trans (h z)) fun h after vs z => ?_
      rw [restItems_congr (hskip z), h]
    · exact .inr fun after vs z => restItems_blank hc hgap
  | @comment r g hr _ ih =>
    have hopen (z : List Char) :
        skipGaps false ('#' :: (r ++ '\n' :: g) ++ z) = skipGaps true (r ++ '\n' :: (g ++ z)) := by
      rw [List.cons_append, skipGaps_hash, List.append_assoc, List.cons_append]
    rcases skipGaps_commentLine hr with hline | hline
    · have hskip (z : List Char) :
          skipGaps false ('#' :: (r ++ '\n' :: g) ++ z) = skipGaps false ('\n' :: g ++ z) := by
        rw [hopen, hline, List.cons_append, skipGaps_lineFeed]
      refine ih.imp (fun h z => (hskip z).trans (h z)) fun h after vs z => ?_
      rw [restItems_congr (hskip z), h]
    · refine .inr fun after vs z => ?_
      rw [restItems, hopen, hline]

theorem Gap.append (hg : Gap g) (hg' : Gap g') : Gap (g ++ g') := by
  induction hg with
  | nil => exact hg'
  | blank hc _ ih => exact .blank hc ih
  | comment hr _ ih =>
    rw [List.cons_append, List.append_assoc]
    exact .comment hr ih

theorem Gap.tail (hg : Gap ('\n' :: g)) : Gap g := by
  cases hg with
  | blank _ hg => exact hg

/-- A gap may be cut at the end of a line. -/
theorem Gap.cut (hg : Gap g) (h : g = w ++ '\n' :: r) (hw : '\n' ∉ w) : Gap (w ++ ['\n']) ∧ Gap r := by
  have hline : Gap ['\n'] := .blank (by decide) .nil
  induction hg generalizing w with
  | nil => simp at h
  | blank hc hg ih =>
    cases w with
    | nil =>
      cases h
      exact ⟨hline, hg⟩
    | cons d w =>
      obtain ⟨rfl, hr⟩ := List.cons.inj h
      obtain ⟨hfront, hrest⟩ := ih hr fun hm => hw (List.mem_cons_of_mem _ hm)
      exact ⟨.blank hc hfront, hrest⟩
  | @comment r' g' hr' hg ih =>
    cases w with
    | nil => simp at h
    | cons d w =>
      obtain ⟨rfl, hr⟩ := List.cons.inj h
      rw [List.mem_cons, not_or] at hw
      -- The comment ends at the first line feed.
      rcases List.append_eq_append_iff.1 hr with ⟨b, rfl, hb⟩ | ⟨b, rfl, hb⟩
      · cases b with
        | nil =>
          obtain ⟨-, rfl⟩ := List.cons.inj hb
          rw [List.append_nil] at hw ⊢
          exact ⟨.comment hw.2 hline, hg.tail⟩
        | cons e b =>
          obtain ⟨rfl, -⟩ := List.cons.inj hb
          exact absurd (by simp) hw.2
      · cases b with
        | nil =>
          obtain ⟨-, rfl⟩ := List.cons.inj hb
          exact ⟨.comment hw.2 hline, hg.tail⟩
        | cons e b =>
          obtain ⟨rfl, -⟩ := List.cons.inj hb
          exact absurd (by simp) hr'

/-- No value goes on in a gap. -/
theorem Gap.stop (hg : Gap g) (hne : g ≠ []) (hz : z.head?.any Char.isDigit = false) : Stop (g ++ z) := by
  have hhead (d : Char) (hd : isBlank d ∨ d = '#') :
      isScalar d = false ∧ d.isDigit = false ∧ d ≠ '\x22' ∧ d ≠ '\x27' := by
    rcases hd with hd | rfl
    · have hs := not_isScalar_of_isBlank hd
      refine ⟨hs, ?_, ?_⟩
      · rw [← Bool.not_eq_true]
        intro hdigit
        rw [isScalar_of_isDigit hdigit] at hs
        cases hs
      · exact ⟨fun h => not_opens_of_isBlank hd (.inl (.inl h)), fun h => not_opens_of_isBlank hd (.inl (.inr h))⟩
    · decide
  have hfirst {d : Char} {g : List Char} (hg : Gap (d :: g)) : isBlank d ∨ d = '#' := by
    cases hg with
    | blank hd _ => exact .inl hd
    | comment => exact .inr rfl
  cases g with
  | nil => exact absurd rfl hne
  | cons d g =>
    rintro _ _ ⟨⟩
    obtain ⟨hs, -, hq⟩ := hhead d (hfirst hg)
    refine ⟨goesOn_eq_false hs ?_, hq⟩
    rintro rfl
    cases hg with
    | blank _ hg =>
      cases g with
      | nil => exact hz
      | cons e g => simpa using (hhead e (hfirst hg)).2.1

theorem Gap.stop_bracket (hg : Gap g) : Stop (g ++ ']' :: z) := by
  by_cases hne : g = []
  · rw [hne]
    exact hard_bracket.stop
  · exact hg.stop hne rfl

/-- An array ends after a gap. -/
theorem restItems_gap (hg : Gap g) (h : restItems after vs (g ++ ']' :: z) = some x) : x = (vs, z) := by
  rcases hg.fills with hfill | hnone
  · have hend : skipGaps false (g ++ ']' :: z) = some (']' :: z) := by
      rw [hfill]
      rfl
    rw [restItems_eq_end hend] at h
    exact (Option.some.inj h).symm
  · rw [hnone] at h
    cases h

theorem plain_of_bare (hm : ∀ c ∈ member.toList, isBare c) : Plain member.toList := by
  intro c hc
  have hb := hm c hc
  obtain ⟨hlow, hhigh⟩ := toNat_of_isBare hb
  refine ⟨?_, ?_, ?_⟩
  · rintro rfl
    cases hb
  · rintro rfl
    cases hb
  · simp only [isControl, Bool.or_eq_false_iff, Bool.and_eq_false_iff, decide_eq_false_iff_not,
      beq_eq_false_iff_ne]
    omega

/-- A text in quotes. -/
def quoted (member : String) (t : List Char) : List Char := '\x22' :: (member.toList ++ '\x22' :: t)

theorem readItem_quoted (hm : Plain member.toList) (ht : t.head? ≠ some '\x22') :
    outcome (readItem (quoted member t)) = restItems true [.text member] t := by
  rw [readItem_eq_rest, quoted, outcome_readValue_plain hm ht, Option.bind_some, String.ofList_toList]

theorem outcome_readItem_comma : outcome (readItem (',' :: r)) = none := by
  have ho : ¬ Opens ',' := by
    unfold Opens
    decide
  rw [readItem_eq_rest, outcome_readValue_none ho (by simp [goesOn, isScalar])]
  rfl

/-- A member that is read after the other items is the last of them. -/
theorem restItems_member {comma : List Char} (hm : Plain member.toList) (hg : Gap g)
    (hcomma : comma = [] ∨ comma = [',']) (ht : t.head? ≠ some '\x22')
    (h : restItems after vs (comma ++ (g ++ quoted member t)) = some x) :
    restItems true (vs ++ [.text member]) t = some x := by
  have hquote (vs : List Value) (after : Bool) (h : restItems after vs (g ++ quoted member t) = some x) :
      skipGaps false (g ++ quoted member t) = some (quoted member t) := by
    rcases hg.fills with hfill | hnone
    · rw [hfill]
      exact skipGaps_stop (by decide) (by decide)
    · rw [hnone] at h
      cases h
  -- There is a comma if and only if an item stands before it.
  have hitem : restItems false vs (g ++ quoted member t) = some x := by
    rcases hcomma with rfl | rfl
    · rw [List.nil_append] at h
      cases after with
      | false => exact h
      | true =>
        rw [restItems_none (hquote vs true h) (by decide) (by decide)] at h
        cases h
    · have hcomma : skipGaps false (',' :: (g ++ quoted member t)) = some (',' :: (g ++ quoted member t)) :=
        skipGaps_stop (by decide) (by decide)
      rw [List.singleton_append] at h
      cases after with
      | false =>
        rw [restItems_item hcomma (by decide), outcome_readItem_comma] at h
        cases h
      | true =>
        rw [restItems_comma hcomma, readItems_eq_rest, onValue_restItems, List.append_nil] at h
        exact h
  rw [restItems_item (hquote vs false hitem) (by decide), ← quoted, readItem_quoted hm ht,
    onValue_restItems] at hitem
  exact hitem

/-- How an item is put into an array: after the values come a comma if one is missing, a gap, the
item, and before the closing bracket perhaps a comma and a gap. -/
structure Inserted (member : String) (a : ArrayText) (g t : List Char) : Prop where
  text : a.insertItem member = '[' :: (a.values ++ (a.comma ++ (g ++ quoted member (t ++ [']']))))
  front : Gap g
  apart : a.values = [] ∨ g ≠ []
  back : Gap t ∨ ∃ g, t = ',' :: g ∧ Gap g

theorem isBlank_of_indent (a : ArrayText) : ∀ c ∈ a.indent, isBlank c := by
  unfold ArrayText.indent
  split
  · exact isBlank_of_indentation _
  · exact List.all_eq_true.1 (by decide)

theorem gap_indent (a : ArrayText) : Gap a.indent := gap_of_blanks (isBlank_of_indent a)

theorem comma_cases (a : ArrayText) : a.comma = [] ∨ a.comma = [','] := by
  unfold ArrayText.comma
  split
  · exact .inl rfl
  · exact .inr rfl

theorem dropWhile_lineFeed (h : '\n' ∈ s) : ∃ r, s.dropWhile (· ≠ '\n') = '\n' :: r := by
  cases hd : s.dropWhile (· ≠ '\n') with
  | nil =>
    have hall := List.takeWhile_append_dropWhile (p := (· ≠ '\n')) (l := s)
    rw [hd, List.append_nil] at hall
    rw [← hall] at h
    simpa using List.all_eq_true.1 List.all_takeWhile '\n' h
  | cons c r =>
    have hc := List.head?_dropWhile_not (· ≠ '\n') s
    rw [hd] at hc
    obtain rfl : c = '\n' := by simpa using hc
    exact ⟨r, rfl⟩

/-- The three layouts of a new item: in one line, before the end of the line of the last value, or before
the closing bracket in that line. An array of one line without values is replaced. -/
theorem insertItem_cases (member : String) (a : ArrayText) :
    ('\n' ∉ a.inside ∧ a.values = [] ∧ a.insertItem member = '[' :: quoted member [']']) ∨
    ∃ front back w z, a.gap = front ++ back ∧ '\n' ∉ front ∧
      a.insertItem member = '[' :: (a.values ++ (a.comma ++ (front ++ (w ++ quoted member
        (z ++ (back ++ [']'])))))) ∧
      ('\n' ∉ a.inside ∧ front = [] ∧ w = [' '] ∧ z = [] ∨
        '\n' ∈ a.inside ∧ w = '\n' :: a.indent ∧
          ((∃ r, back = '\n' :: r) ∧ z = [','] ∨ back = [] ∧ z = [',', '\n'])) := by
  by_cases hone : '\n' ∉ a.inside
  · by_cases hv : a.values = []
    · refine .inl ⟨hone, hv, ?_⟩
      simp [ArrayText.insertItem, hone, hv, quoted]
    · refine .inr ⟨[], a.gap, [' '], [], rfl, List.not_mem_nil, ?_, .inl ⟨hone, rfl, rfl, rfl⟩⟩
      simp [ArrayText.insertItem, hone, hv, quoted]
  have hmulti : '\n' ∈ a.inside := not_not.1 hone
  by_cases hgap : '\n' ∈ a.gap
  · obtain ⟨r, hr⟩ := dropWhile_lineFeed hgap
    refine .inr ⟨a.gap.takeWhile (· ≠ '\n'), '\n' :: r, '\n' :: a.indent, [','], ?_, ?_, ?_,
      .inr ⟨hmulti, rfl, .inl ⟨⟨r, rfl⟩, rfl⟩⟩⟩
    · rw [← hr, List.takeWhile_append_dropWhile]
    · intro hm
      simpa using List.all_eq_true.1 List.all_takeWhile '\n' hm
    · rw [ArrayText.insertItem, if_neg hone, if_pos hgap, hr]
      simp [quoted]
  · refine .inr ⟨a.gap, [], '\n' :: a.indent, [',', '\n'], (List.append_nil _).symm, hgap, ?_,
      .inr ⟨hmulti, rfl, .inr ⟨rfl, rfl⟩⟩⟩
    simp [ArrayText.insertItem, hone, hgap, quoted]

theorem exists_inserted (member : String) (ha : Gap a.gap) : ∃ g t, Inserted member a g t := by
  have hline : Gap ('\n' :: a.indent) := .blank (by decide) (gap_indent a)
  obtain ⟨-, hv, htext⟩ | ⟨front, back, w, z, hgap, hfront, htext, hlayout⟩ := insertItem_cases member a
  · refine ⟨[], [], ?_, .nil, .inl hv, .inl .nil⟩
    simp [htext, hv, ArrayText.comma]
  have htext' : a.insertItem member = '[' :: (a.values ++ (a.comma ++ ((front ++ w) ++
      quoted member ((z ++ back) ++ [']'])))) := by
    simp only [htext, List.append_assoc]
  refine ⟨front ++ w, z ++ back, ?_⟩
  rw [hgap] at ha
  obtain ⟨-, rfl, rfl, rfl⟩ | ⟨-, rfl, ⟨⟨r, rfl⟩, rfl⟩ | ⟨rfl, rfl⟩⟩ := hlayout
  · exact ⟨htext', .blank (by decide) .nil, .inr (by simp), .inl ha⟩
  · obtain ⟨hhead, hback⟩ := ha.cut rfl hfront
    refine ⟨htext', ?_, .inr (by simp), .inr ⟨_, rfl, .blank (by decide) hback⟩⟩
    simpa using hhead.append (gap_indent a)
  · rw [List.append_nil] at ha
    exact ⟨htext', ha.append hline, .inr (by simp), .inr ⟨_, rfl, .blank (by decide) .nil⟩⟩

/-- If the values that the scan finds are the items of an array, they are those of the array. -/
theorem readItems_gap (hg : Gap a.gap) (hvs : outcome (readItems (a.values ++ [']'])) = some (vs, []))
    (h : outcome (readItems (a.values ++ (a.gap ++ ']' :: z))) = some x) : x = (vs, z) := by
  obtain ⟨after, hfront⟩ := readItems_front hvs
  rw [hfront _ (.inr hg.stop_bracket)] at h
  exact restItems_gap hg h

/-- The item that is put in is read after them. -/
theorem Inserted.readItems (hi : Inserted member a g t) (hm : Plain member.toList)
    (hvs : outcome (readItems (a.values ++ [']'])) = some (vs, []))
    (h : outcome (readItems (a.values ++ (a.comma ++ (g ++ quoted member (t ++ ']' :: z))))) = some x) :
    x = (vs ++ [.text member], z) := by
  obtain ⟨after, hfront⟩ := readItems_front hvs
  have hstop : a.values = [] ∨ Stop (a.comma ++ (g ++ quoted member (t ++ ']' :: z))) := by
    refine hi.apart.imp_right fun hne => ?_
    rcases comma_cases a with hc | hc
    · rw [hc]
      exact hi.front.stop hne rfl
    · rw [hc]
      exact hard_comma.stop
  have hquote : (t ++ ']' :: z).head? ≠ some '\x22' := by
    rcases hi.back with hg | ⟨g', rfl, -⟩
    · exact (unquoted_of_stop hg.stop_bracket).1
    · simp
  rw [hfront _ hstop] at h
  have hrest := restItems_member hm hi.front (comma_cases a) hquote h
  rcases hi.back with hg | ⟨g', rfl, hg⟩
  · exact restItems_gap hg hrest
  · rw [List.cons_append, restItems_comma (skipGaps_stop (by decide) (by decide)), readItems_eq_rest,
      onValue_restItems, List.append_nil] at hrest
    exact restItems_gap hg hrest

end WitCaller.Manifest
