import WitCaller.Proofs.Lines
import WitCaller.Proofs.Manifest.LineStrings
import WitCaller.Proofs.Manifest.Members

/-!
Arrays of strings in any layout, with their values and their comments, and what the scan and the
insertion of an item make of them.
-/

namespace WitCaller

namespace Text
variable {c : Char} {l : List Char}

theorem mem_indentation_append {r : List Char} (hc : c ∈ indentation l) :
    c ∈ indentation (l ++ r) := by
  induction l with
  | nil => cases hc
  | cons d l ih =>
    rw [List.cons_append]
    unfold indentation at hc ih ⊢
    cases hd : isBlank d with
    | false => simp [hd] at hc
    | true =>
      rw [List.takeWhile_cons_of_pos hd] at hc ⊢
      exact List.mem_cons.2 ((List.mem_cons.1 hc).imp_right ih)

end Text

namespace Manifest
open Toml Text Reading
variable {c q : Char} {g p r s t x : List Char} {v item : String} {vs : List String}
  {cs cs' c₁ c₂ : List (List Char)} {a : ArrayText}

/-- What may stand between the items of an array: blanks, line feeds and comments, here with the
comments. -/
inductive Layout : List (List Char) → List Char → Prop where
  | nil : Layout [] []
  | blank {c : Char} {cs : List (List Char)} {g : List Char} (hc : isSpace c ∨ c = '\n')
      (hg : Layout cs g) : Layout cs (c :: g)
  | comment {r g : List Char} {cs : List (List Char)} (hr : ∀ c ∈ r, isControl c = false)
      (hg : Layout cs g) : Layout (r :: cs) ('#' :: (r ++ '\n' :: g))

/-- The rest of an array of strings, after the opening bracket or a comma and up to the closing
bracket, with the strings and the comments in it. -/
inductive Items : List String → List (List Char) → List Char → Prop where
  | none {cs : List (List Char)} {g : List Char} (hg : Layout cs g) : Items [] cs g
  | last {v : String} {c₁ c₂ : List (List Char)} {g₁ p g₂ : List Char} (h₁ : Layout c₁ g₁)
      (hp : LineString v p) (h₂ : Layout c₂ g₂) : Items [v] (c₁ ++ c₂) (g₁ ++ (p ++ g₂))
  | next {v : String} {vs : List String} {c₁ c₂ cs : List (List Char)} {g₁ p g₂ s : List Char}
      (h₁ : Layout c₁ g₁) (hp : LineString v p) (h₂ : Layout c₂ g₂) (hs : Items vs cs s) :
      Items (v :: vs) (c₁ ++ (c₂ ++ cs)) (g₁ ++ (p ++ (g₂ ++ ',' :: s)))

/-- An array of strings, each within a line, with its values and its comments. -/
inductive StringArray : List String → List (List Char) → List Char → Prop where
  | mk {vs : List String} {cs : List (List Char)} {s : List Char} (hs : Items vs cs s) :
      StringArray vs cs ('[' :: (s ++ [']']))

theorem not_mem_comment (hr : ∀ c ∈ r, isControl c = false) : '\n' ∉ r := fun h => by
  have := hr _ h
  cases this

theorem isBlank_of_isSpace (hc : isSpace c ∨ c = '\n') : isBlank c := by
  rw [isSpace, Bool.or_eq_true, beq_iff_eq, beq_iff_eq] at hc
  rcases hc with (rfl | rfl) | rfl <;> rfl

theorem ArrayText.space_nil (a : ArrayText) : ArrayText.space [] a = a := by
  simp [ArrayText.space]

theorem ArrayText.space_space (s t : List Char) (a : ArrayText) :
    ArrayText.space s (ArrayText.space t a) = ArrayText.space (s ++ t) a := by
  unfold ArrayText.space
  by_cases hv : a.values = [] <;> simp [hv]

theorem map_space (s t : List Char) (x : Except ArrayFault ArrayText) :
    (x.map (ArrayText.space t)).map (ArrayText.space s) = x.map (ArrayText.space (s ++ t)) := by
  cases x with
  | error => rfl
  | ok a => exact congrArg Except.ok (ArrayText.space_space s t a)

theorem scanArray_blank (hc : isBlank c) :
    scanArray 0 (c :: t) = (scanArray 0 t).map (ArrayText.space [c]) := by
  have hne (e : Char) (he : isBlank e = false) : c ≠ e := ne_of_isBlank hc he
  have hquote : ¬ (c = '\x22' ∨ c = '\x27') := not_or.2 ⟨hne _ (by decide), hne _ (by decide)⟩
  rw [scanArray, if_neg (hne _ (by decide)), if_neg hquote, if_neg (hne _ (by decide)),
    if_neg (hne _ (by decide)), if_pos hc]

theorem scanArray_comma : scanArray 0 (',' :: t) = (scanArray 0 t).map (ArrayText.token [',']) := by
  rw [scanArray, if_neg (by decide), if_neg (by decide), if_neg (by decide), if_neg (by decide),
    if_neg (by decide)]

theorem takeWhile_line (hr : '\n' ∉ r) : (r ++ '\n' :: t).takeWhile (· ≠ '\n') = r ∧
    (r ++ '\n' :: t).dropWhile (· ≠ '\n') = '\n' :: t := by
  have hall : ∀ c ∈ r, (c ≠ '\n' : Bool) = true := fun c hc => by
    rw [decide_eq_true_iff]
    rintro rfl
    exact hr hc
  rw [List.takeWhile_append_of_pos hall, List.dropWhile_append_of_pos hall]
  simp

theorem scanArray_hash (hr : '\n' ∉ r) : scanArray 0 ('#' :: (r ++ '\n' :: t)) =
    (scanArray 0 ('\n' :: t)).map (ArrayText.space ('#' :: r)) := by
  rw [scanArray, if_pos rfl, (takeWhile_line hr).1, (takeWhile_line hr).2]

namespace Layout

theorem append (hg : Layout cs g) (ht : Layout cs' t) : Layout (cs ++ cs') (g ++ t) := by
  induction hg with
  | nil => exact ht
  | blank hc _ ih => exact .blank hc ih
  | comment hr _ ih =>
    rw [List.cons_append, List.cons_append, List.append_assoc, List.cons_append]
    exact .comment hr ih

/-- A layout cut at the end of a line, with the comments of each part. -/
theorem cut (hg : Layout cs g) (h : g = s ++ '\n' :: t) (hs : '\n' ∉ s) :
    ∃ c₁ c₂, cs = c₁ ++ c₂ ∧ Layout c₁ (s ++ ['\n']) ∧ Layout c₂ t := by
  have hline : Layout [] ['\n'] := .blank (.inr rfl) .nil
  induction hg generalizing s with
  | nil => simp at h
  | @blank c cs g hc hg ih =>
    cases s with
    | nil =>
      cases h
      exact ⟨[], cs, rfl, hline, hg⟩
    | cons d s =>
      obtain ⟨rfl, htail⟩ := List.cons.inj h
      obtain ⟨c₁, c₂, hcs, h₁, h₂⟩ := ih htail fun hm => hs (List.mem_cons_of_mem _ hm)
      exact ⟨c₁, c₂, hcs, .blank hc h₁, h₂⟩
  | @comment r g cs hr hg ih =>
    cases s with
    | nil => simp at h
    | cons d s =>
      rw [List.cons_append] at h
      obtain ⟨rfl, htail⟩ := List.cons.inj h
      have hs : '\n' ∉ s := fun hm => hs (List.mem_cons_of_mem _ hm)
      have hfront := congrArg (List.takeWhile (· ≠ '\n')) htail
      have hback := congrArg (List.dropWhile (· ≠ '\n')) htail
      rw [(takeWhile_line (not_mem_comment hr)).1, (takeWhile_line hs).1] at hfront
      rw [(takeWhile_line (not_mem_comment hr)).2, (takeWhile_line hs).2] at hback
      obtain rfl := hfront
      obtain ⟨-, rfl⟩ := List.cons.inj hback
      exact ⟨[r], cs, rfl, .comment hr .nil, hg⟩

/-- A comment ends in a line feed. -/
theorem uncommented (hg : Layout cs g) (h : '\n' ∉ g) : cs = [] := by
  induction hg with
  | nil => rfl
  | blank _ _ ih => exact ih fun hm => h (List.mem_cons_of_mem _ hm)
  | comment => simp at h

theorem fills (hg : Layout cs g) : Filler false g := by
  induction hg with
  | nil => exact fun _ => rfl
  | blank hc _ ih => exact fun s => (skipGaps_blank hc).trans (ih s)
  | @comment r g cs hr _ ih =>
    have hline (s : List Char) : skipGaps true (r ++ s) = skipGaps true s := by
      induction r with
      | nil => rfl
      | cons c r ihr =>
        obtain ⟨hc, hr⟩ := List.forall_mem_cons.1 hr
        rw [List.cons_append, skipGaps_comment (by simp [hc]), ihr hr]
    intro s
    rw [List.cons_append, skipGaps_hash, List.append_assoc, hline, List.cons_append,
      skipGaps_comment_end, ih s]

theorem scan (hg : Layout cs g) (t : List Char) :
    scanArray 0 (g ++ t) = (scanArray 0 t).map (ArrayText.space g) := by
  induction hg with
  | nil =>
    rw [List.nil_append]
    cases scanArray 0 t with
    | error => rfl
    | ok a => exact congrArg Except.ok (ArrayText.space_nil a).symm
  | @blank c cs g hc _ ih =>
    rw [List.cons_append, scanArray_blank (isBlank_of_isSpace hc), ih, map_space,
      List.singleton_append]
  | @comment r g cs hr _ ih =>
    rw [List.cons_append, List.append_assoc, List.cons_append, scanArray_hash (not_mem_comment hr),
      scanArray_blank (by decide), ih, map_space, map_space]
    simp

end Layout

theorem unquoted_layout (hg : Layout cs g) (ht : Unquoted t) : Unquoted (g ++ t) := by
  cases hg with
  | nil => exact ht
  | @blank c cs g hc _ =>
    have hne (e : Char) (he : isBlank e = false) : (c :: g ++ t).head? ≠ some e := fun hh =>
      ne_of_isBlank (isBlank_of_isSpace hc) he (Option.some.inj hh)
    exact ⟨hne _ (by decide), hne _ (by decide)⟩
  | comment => exact ⟨by simp, by simp⟩

theorem unquoted_comma : Unquoted (',' :: t) := ⟨by simp, by simp⟩

theorem unquoted_bracket : Unquoted (']' :: t) := ⟨by simp, by simp⟩

/-- The items of an array, cut after the last value or comma: what its scan finds, with the comments
before and after the cut. -/
structure Items.Cut (vs : List String) (cs : List (List Char)) (s : List Char) (a : ArrayText)
    (c₁ c₂ : List (List Char)) : Prop where
  text : s = a.values ++ a.gap
  comments : cs = c₁ ++ c₂
  gap : Layout c₂ a.gap
  scan : ∀ r, scanArray 0 (s ++ ']' :: r) = .ok { a with rest := r }
  extend : ∀ {vs' cs' t}, Items vs' cs' t →
    Items (vs ++ vs') (c₁ ++ cs') (a.values ++ (a.comma ++ t))

theorem ArrayText.comma_of_quote {r : List Char} (hp : p.getLast? = some q)
    (hq : q = '\x22' ∨ q = '\x27') : (⟨g ++ p, s, r⟩ : ArrayText).comma = [','] := by
  have hne : q ≠ ',' := by
    rintro rfl
    exact absurd hq (by decide)
  have hp' : p ≠ [] := by
    rintro rfl
    cases hp
  rw [ArrayText.comma, if_neg]
  simp [hp', List.getLast?_append, hp, hne]

theorem ArrayText.comma_of_comma {u r : List Char} {a : ArrayText} :
    (⟨u ++ ',' :: a.values, s, r⟩ : ArrayText).comma = a.comma := by
  unfold ArrayText.comma
  by_cases hv : a.values = []
  · simp [hv]
  · obtain ⟨w, e, he⟩ := List.eq_nil_or_concat a.values |>.resolve_left hv
    simp [he, List.getLast?_cons]

theorem Items.exists_cut (hs : Items vs cs s) : ∃ a c₁ c₂, Items.Cut vs cs s a c₁ c₂ := by
  induction hs with
  | @none cs g hg =>
    refine ⟨⟨[], g, []⟩, [], cs, rfl, rfl, hg, fun r => ?_, fun ht => ht⟩
    rw [hg.scan, scanArray_bracket]
    simp [Except.map, ArrayText.space]
  | @last v c₁ c₂ g₁ p g₂ h₁ hp h₂ =>
    obtain ⟨q, hq, hhead, hlast, -⟩ := hp.ends
    refine ⟨⟨g₁ ++ p, g₂, []⟩, c₁, c₂, by simp, rfl, h₂, fun r => ?_, fun {vs' cs' t} ht => ?_⟩
    · rw [List.append_assoc, List.append_assoc, h₁.scan,
        hp.scan (unquoted_layout h₂ unquoted_bracket), h₂.scan, scanArray_bracket]
      simp [Except.map, ArrayText.space, ArrayText.token, hp.ne_nil]
    · rw [ArrayText.comma_of_quote hlast hq]
      have h := Items.next h₁ hp .nil ht
      simpa using h
  | @next v vs c₁ c₂ cs g₁ p g₂ s h₁ hp h₂ hs ih =>
    obtain ⟨a, d₁, d₂, rfl, rfl, hgap, hscan, hextend⟩ := ih
    refine ⟨⟨g₁ ++ (p ++ (g₂ ++ ',' :: a.values)), a.gap, []⟩, c₁ ++ (c₂ ++ d₁), d₂, by simp,
      by simp, hgap, fun r => ?_, fun {vs' cs' t} ht => ?_⟩
    · have hscan := hscan r
      simp only [List.append_assoc, List.cons_append] at hscan ⊢
      rw [h₁.scan, hp.scan (unquoted_layout h₂ unquoted_comma), h₂.scan, scanArray_comma, hscan]
      simp [Except.map, ArrayText.space, ArrayText.token, hp.ne_nil]
    · have hcomma := ArrayText.comma_of_comma (u := g₁ ++ (p ++ g₂)) (s := a.gap) (r := []) (a := a)
      simp only [List.append_assoc] at hcomma
      rw [hcomma]
      have h := Items.next h₁ hp h₂ (hextend ht)
      simpa using h

/-- Every line begins with blanks that a layout may have. -/
structure Indented (s : List Char) : Prop where
  first : ∀ c ∈ indentation s, isSpace c ∨ c = '\n'
  later : ∀ t, '\n' :: t <:+ s → ∀ c ∈ indentation t, isSpace c ∨ c = '\n'

theorem indented_nil : Indented [] where
  first := by simp [indentation]
  later t ht := by simp at ht

/-- What begins within a line with no blank leaves the lines after it as they are. -/
theorem Indented.append {c : Char} (ht : Indented t) (hc : p.head? = some c)
    (hblank : isBlank c = false) (hp : '\n' ∉ p) : Indented (p ++ t) where
  first := by
    obtain ⟨p, rfl⟩ := List.head?_eq_some_iff.1 hc
    simp [indentation, hblank]
  later u hu := by
    obtain ⟨w, hw⟩ := hu
    rcases List.append_eq_append_iff.1 hw with ⟨e, rfl, he⟩ | ⟨e, rfl, rfl⟩
    · cases e with
      | nil => exact ht.later u ⟨[], he⟩
      | cons d e =>
        obtain ⟨rfl, -⟩ := List.cons.inj he
        simp at hp
    · exact ht.later u (List.suffix_append _ _)

theorem Indented.blank (ht : Indented t) (hc : isSpace c ∨ c = '\n') : Indented (c :: t) where
  first := by
    rw [indentation, List.takeWhile_cons_of_pos (isBlank_of_isSpace hc)]
    exact List.forall_mem_cons.2 ⟨hc, ht.first⟩
  later u hu := by
    rcases List.suffix_cons_iff.1 hu with he | hu
    · obtain ⟨-, rfl⟩ := List.cons.inj he
      exact ht.first
    · exact ht.later u hu

theorem Indented.layout (ht : Indented t) (hg : Layout cs g) : Indented (g ++ t) := by
  induction hg with
  | nil => exact ht
  | blank hc _ ih => exact ih.blank hc
  | @comment r g cs hr _ ih =>
    have hline : Indented ('\n' :: (g ++ t)) := ih.blank (.inr rfl)
    have hhash : '\n' ∉ '#' :: r := by simpa using not_mem_comment hr
    have h := hline.append rfl (by decide) hhash
    simpa using h

theorem Items.indented (hs : Items vs cs s) : Indented s := by
  have hstring {v : String} {p t : List Char} (hp : LineString v p) (ht : Indented t) :
      Indented (p ++ t) := by
    obtain ⟨q, hq, hhead, -, hline⟩ := hp.ends
    refine ht.append hhead ?_ hline
    rcases hq with rfl | rfl <;> decide
  induction hs with
  | none hg => simpa using indented_nil.layout hg
  | last h₁ hp h₂ =>
    have h := indented_nil.layout h₂
    rw [List.append_nil] at h
    exact (hstring hp h).layout h₁
  | next h₁ hp h₂ _ ih =>
    have hcomma := ih.append (p := [',']) rfl (by decide) (by decide)
    exact (hstring hp (hcomma.layout h₂)).layout h₁

/-- A new line of the array is moved right by blanks that a layout may have. -/
theorem Items.indent (hs : Items vs cs s) (ha : s = a.values ++ a.gap) (hfeeds : OnlyFeeds s) :
    ∀ c ∈ a.indent, isSpace c ∨ c = '\n' := by
  have hinside : a.inside = '[' :: s := by rw [ArrayText.inside, ha, List.cons_append]
  have honly : OnlyFeeds a.inside := by
    rw [hinside]
    exact List.forall_mem_cons.2 ⟨by decide, hfeeds⟩
  unfold ArrayText.indent
  split
  · next l hl =>
    intro c hc
    obtain ⟨t, ht, hprefix⟩ := suffix_of_mem_lines honly (List.mem_of_find?_eq_some hl)
    rw [hinside] at ht
    have ht : '\n' :: t <:+ s := by
      rcases List.suffix_cons_iff.1 ht with he | ht
      · cases he
      · exact ht
    obtain ⟨r, rfl⟩ := hprefix
    exact hs.indented.later _ ht c (mem_indentation_append hc)
  · exact fun c hc => .inl (by simp at hc; simp [hc, isSpace])

theorem layout_of_blanks (h : ∀ c ∈ g, isSpace c ∨ c = '\n') : Layout [] g := by
  induction g with
  | nil => exact .nil
  | cons c g ih =>
    obtain ⟨hc, hg⟩ := List.forall_mem_cons.1 h
    exact .blank hc (ih hg)

/-- What is put in after the values and a comma: the item, in a layout with the comments of the gap. -/
theorem exists_insertItem (hgap : Layout cs a.gap) (hindent : Layout [] a.indent)
    (hitem : Plain item.toList) :
    ∃ t, a.insertItem item = '[' :: (a.values ++ (a.comma ++ t) ++ [']']) ∧ Items [item] cs t := by
  have hquoted := lineString_quoted hitem
  have hline : Layout [] ('\n' :: a.indent) := .blank (.inr rfl) hindent
  obtain ⟨hone, hv, htext⟩ | ⟨front, back, w, z, hsplit, hfront, htext, hlayout⟩ := insertItem_cases item a
  · have hcs : cs = [] := hgap.uncommented fun hm => hone (List.mem_append_right _ hm)
    subst hcs
    refine ⟨_, ?_, Items.last .nil hquoted .nil⟩
    simp [htext, hv, quoted, ArrayText.comma]
  obtain ⟨hone, rfl, rfl, rfl⟩ | ⟨-, rfl, ⟨⟨r, rfl⟩, rfl⟩ | ⟨rfl, rfl⟩⟩ := hlayout
  · have hcs : cs = [] := hgap.uncommented fun hm => hone (List.mem_append_right _ hm)
    subst hcs
    refine ⟨_, ?_, Items.last (.blank (c := ' ') (.inl rfl) .nil) hquoted hgap⟩
    simp [htext, hsplit, quoted]
  · obtain ⟨c₁, c₂, rfl, hhead, hback⟩ := hgap.cut hsplit hfront
    have hnext := Items.next (hhead.append hindent) hquoted .nil (.none (.blank (.inr rfl) hback))
    rw [List.append_nil, List.nil_append] at hnext
    refine ⟨_, ?_, hnext⟩
    simp [htext, quoted]
  · rw [List.append_nil] at hsplit
    have hnext := Items.next (hgap.append hline) hquoted .nil (.none (.blank (.inr rfl) .nil))
    rw [List.append_nil, List.nil_append, List.append_nil] at hnext
    refine ⟨_, ?_, hnext⟩
    simp [htext, hsplit, quoted]

theorem Items.restItems (hs : Items vs cs s) {us : List Value} :
    restItems false us (s ++ ']' :: r) = some (us ++ vs.map .text, r) := by
  have hstring {v : String} {p t : List Char} {us : List Value} (hp : LineString v p)
      (ht : Unquoted t) :
      Toml.restItems false us (p ++ t) = Toml.restItems true (us ++ [.text v]) t := by
    obtain ⟨q, hq, hhead, -, -⟩ := hp.ends
    have hread := hp.readValue ht
    obtain ⟨p, rfl⟩ := List.head?_eq_some_iff.1 hhead
    have hstop : skipGaps false (q :: p ++ t) = some (q :: (p ++ t)) := by
      rcases hq with rfl | rfl <;> exact skipGaps_stop (by decide) (by decide)
    have hbracket : q ≠ ']' := by
      rintro rfl
      exact absurd hq (by decide)
    rw [List.cons_append] at hread
    rw [restItems_item hstop hbracket, readItem_eq_rest, hread, Option.bind_some, onValue_restItems]
  induction hs generalizing us with
  | none hg =>
    rw [restItems_congr (hg.fills _), restItems_eq_end rfl]
    simp
  | last h₁ hp h₂ =>
    rw [List.append_assoc, List.append_assoc, restItems_congr (h₁.fills _),
      hstring hp (unquoted_layout h₂ unquoted_bracket), restItems_congr (h₂.fills _),
      restItems_eq_end rfl]
    rfl
  | next h₁ hp h₂ _ ih =>
    simp only [List.append_assoc, List.cons_append]
    rw [restItems_congr (h₁.fills _), hstring hp (unquoted_layout h₂ unquoted_comma),
      restItems_congr (h₂.fills _), restItems_comma rfl, readItems_eq_rest, ih]
    simp

/-- The document has the values of the array. -/
theorem StringArray.readValue (ha : StringArray vs cs x) (r : List Char) :
    outcome (readValue (x ++ r)) = some (.array (vs.map .text), r) := by
  obtain ⟨hs⟩ := ha
  rw [List.cons_append, List.append_assoc, List.singleton_append, outcome_readValue_array,
    readItems_eq_rest, hs.restItems]
  rfl

/-- The scan of an array of strings ends at its closing bracket, whatever follows it. With an item put
in it is such an array again: the item comes after the values, the comments are the same, and only the
item can bring in line breaks other than line feeds. -/
theorem insertItem_stringArray (ha : StringArray vs cs x) (hfeeds : OnlyFeeds x)
    (hitem : Plain item.toList) :
    ∃ a : ArrayText, (∀ r, scanArray 0 (x.drop 1 ++ r) = .ok { a with rest := r }) ∧
      a.inside ++ [']'] = x ∧ StringArray (vs ++ [item]) cs (a.insertItem item) ∧
      (∀ c ∈ a.insertItem item, isLineBreak c → c = '\n' ∨ c ∈ item.toList) ∧
      ∀ r, outcome (readValue (x ++ r)) = some (.array (vs.map .text), r) ∧
        outcome (readValue (a.insertItem item ++ r)) =
          some (.array (vs.map .text ++ [.text item]), r) := by
  have hread := ha.readValue
  obtain @⟨s, hs⟩ := ha
  obtain ⟨a, c₁, c₂, hcut⟩ := hs.exists_cut
  have hinside : a.inside ++ [']'] = '[' :: (s ++ [']']) := by
    rw [ArrayText.inside, List.cons_append, ← hcut.text, List.cons_append]
  have hinner : OnlyFeeds (s ++ [']']) := (List.forall_mem_cons.1 hfeeds).2
  have hindent := layout_of_blanks (hs.indent hcut.text (onlyFeeds_append.1 hinner).1)
  obtain ⟨t, htext, ht⟩ := exists_insertItem hcut.gap hindent hitem
  have hnew : StringArray (vs ++ [item]) cs (a.insertItem item) := by
    rw [htext, hcut.comments]
    exact .mk (hcut.extend ht)
  refine ⟨a, fun r => ?_, hinside, hnew, fun c hc hb => ?_, fun r => ⟨hread r, ?_⟩⟩
  · rw [List.drop_one, List.tail_cons, List.append_assoc]
    exact hcut.scan r
  · have hmarks : ∀ c ∈ [',', ' ', '\n', '\x22', ']'], isLineBreak c → c = '\n' := by
      simp [isLineBreak]
    refine forall_mem_insertItem (P := fun c => isLineBreak c → c = '\n' ∨ c ∈ item.toList)
      ?_ ?_ ?_ c hc hb
    · refine fun d hd hb => .inl (hfeeds d ?_ hb)
      rw [← hinside]
      exact List.mem_append_left _ hd
    · exact fun d hd _ => .inr hd
    · exact fun d hd hb => .inl (hmarks d hd hb)
  · rw [hnew.readValue r, List.map_append]
    rfl

/-- Brackets, commas and quotes in strings and comments do not count, and the comment after the last
string keeps its place. -/
theorem insertItem_stringArray_commented :
    let array := "[\n    \"a]\\\"#\", # one ]\n    'b,' # two \"\n]".toList
    ∃ a : ArrayText, (∀ r, scanArray 0 (array.drop 1 ++ r) = .ok { a with rest := r }) ∧
      StringArray ["a]\"#", "b,", "calls"] [" one ]".toList, " two \"".toList] (a.insertItem "calls") ∧
      a.insertItem "calls" =
        "[\n    \"a]\\\"#\", # one ]\n    'b,', # two \"\n    \"calls\",\n]".toList := by
  intro array
  have hone : Layout [" one ]".toList] (' ' :: '#' :: (" one ]".toList ++ '\n' :: "    ".toList)) :=
    .blank (.inl rfl) (.comment (by simp [isControl]) (layout_of_blanks (by simp [isSpace])))
  have htwo : Layout [" two \"".toList] (' ' :: '#' :: (" two \"".toList ++ ['\n'])) :=
    .blank (.inl rfl) (.comment (by simp [isControl]) .nil)
  have hfirst : LineString "a]\"#" ('\x22' :: "a]\\\"#\"".toList) :=
    .basic (x := "a]\"#".toList) (by decide +kernel)
  have hsecond : LineString "b," ('\x27' :: "b,'".toList) :=
    .literal (x := "b,".toList) (by decide +kernel)
  have harray : StringArray ["a]\"#", "b,"] [" one ]".toList, " two \"".toList] array := by
    have hline : Layout [] "\n    ".toList := layout_of_blanks (by simp [isSpace])
    exact .mk (.next hline hfirst .nil (.last hone hsecond htwo))
  have hfeeds : OnlyFeeds array := by simp [OnlyFeeds, array, isLineBreak]
  have hitem : Plain "calls".toList := by decide +kernel
  obtain ⟨a, hscan, -, hnew, -⟩ := insertItem_stringArray harray hfeeds hitem
  have hinsert : (scanArray 0 (array.drop 1 ++ [])).toOption.map (ArrayText.insertItem "calls") =
      some "[\n    \"a]\\\"#\", # one ]\n    'b,', # two \"\n    \"calls\",\n]".toList := by
    decide +kernel
  rw [hscan] at hinsert
  exact ⟨a, hscan, hnew, Option.some.inj hinsert⟩

end Manifest

end WitCaller
