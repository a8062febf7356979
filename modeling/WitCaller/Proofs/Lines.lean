import WitCaller.Text.Lines
import WitCaller.Text.Search

/-!
Texts and their lines. Lines with line feeds after them are read back as they are, if they hold no
line breaks themselves, and a text whose only line breaks are line feeds is that of its lines.
-/

namespace WitCaller

namespace Text
variable {c : Char} {r s a b : List Char}

theorem fullLines_cons (hc : isLineBreak c = false) (r : List Char) :
    fullLines (c :: r) = consLine c (fullLines r) := by
  rw [fullLines, if_neg (by simp [hc])]
  rintro r' rfl
  cases hc

theorem fullLines_break (hc : isLineBreak c = true) (h : c = '\r' → r.head? ≠ some '\n') :
    fullLines (c :: r) = [c] :: fullLines r := by
  rw [fullLines, if_pos hc]
  rintro r' rfl rfl
  exact h rfl rfl

theorem lines_returnFeed (r : List Char) : lines ('\r' :: '\n' :: r) = [] :: lines r := by
  rw [lines, fullLines]
  rfl

theorem lines_break (hc : isLineBreak c = true) (h : c = '\r' → r.head? ≠ some '\n') :
    lines (c :: r) = [] :: lines r := by
  rw [lines, fullLines_break hc h, List.map_cons, List.takeWhile_cons_of_neg (by simp [hc]), lines]

theorem lines_cons (hc : isLineBreak c = false) (r : List Char) :
    lines (c :: r) = consLine c (lines r) := by
  rw [lines, lines, fullLines_cons hc]
  cases fullLines r <;> simp [consLine, hc]

theorem lines_eq_nil (h : lines s = []) : s = [] := by
  rw [← flatten_fullLines s, List.map_eq_nil_iff.1 h]
  rfl

/-- A line feed between two texts keeps their lines apart. It adds an empty line where the first
text ends in a whole line. -/
theorem lines_append_lineFeed (a b : List Char) :
    ∃ gap, (gap = [] ∨ gap = [[]]) ∧ lines (a ++ '\n' :: b) = lines a ++ gap ++ lines b := by
  fun_induction fullLines a with
  | case1 => exact ⟨[[]], .inr rfl, lines_break rfl (by simp)⟩
  | case2 r ih =>
    obtain ⟨gap, hgap, hr⟩ := ih
    refine ⟨gap, hgap, ?_⟩
    rw [List.cons_append, List.cons_append, lines_returnFeed, lines_returnFeed, hr]
    rfl
  | case3 c r hnot hc ih =>
    -- A carriage return at the very end of the first text takes the line feed after it.
    by_cases hend : c = '\r' ∧ r = []
    · obtain ⟨rfl, rfl⟩ := hend
      exact ⟨[], .inl rfl, lines_returnFeed b⟩
    · obtain ⟨gap, hgap, hr⟩ := ih
      refine ⟨gap, hgap, ?_⟩
      have hhead : c = '\r' → r.head? ≠ some '\n' := by
        rintro rfl hr
        obtain ⟨r', rfl⟩ := List.head?_eq_some_iff.1 hr
        exact hnot r' rfl rfl
      have hhead' : c = '\r' → (r ++ '\n' :: b).head? ≠ some '\n' := by
        intro hreturn
        cases r with
        | nil => exact absurd ⟨hreturn, rfl⟩ hend
        | cons d r => exact hhead hreturn
      rw [List.cons_append, lines_break hc hhead', lines_break hc hhead, hr]
      rfl
  | case4 c r hnot hc ih =>
    have hc : isLineBreak c = false := by simpa using hc
    rw [List.cons_append, lines_cons hc, lines_cons hc]
    cases hl : lines r with
    | nil =>
      obtain rfl := lines_eq_nil hl
      refine ⟨[], .inl rfl, ?_⟩
      rw [List.nil_append, lines_break rfl (by simp)]
      rfl
    | cons l ls =>
      obtain ⟨gap, hgap, hr⟩ := ih
      refine ⟨gap, hgap, ?_⟩
      rw [hr, hl]
      rfl

theorem fullLines_flatten_tail {l : List Char} {ls : List (List Char)} (h : fullLines s = l :: ls) :
    fullLines ls.flatten = ls := by
  fun_induction fullLines s generalizing l with
  | case1 => cases h
  | case2 r =>
    obtain ⟨-, rfl⟩ := List.cons.inj h
    rw [flatten_fullLines]
  | case3 c r =>
    obtain ⟨-, rfl⟩ := List.cons.inj h
    rw [flatten_fullLines]
  | case4 c r _ _ ih =>
    cases hr : fullLines r with
    | nil =>
      rw [hr] at h
      cases h
      rfl
    | cons m ms =>
      rw [hr] at h
      cases h
      exact ih hr

/-- The lines that are left after some lines are those of the text that is left. -/
theorem fullLines_flatten_drop (n : Nat) (s : List Char) :
    fullLines ((fullLines s).drop n).flatten = (fullLines s).drop n := by
  induction n with
  | zero => rw [List.drop_zero, flatten_fullLines]
  | succ n ih =>
    rw [List.drop_add_one_eq_tail_drop]
    cases hd : (fullLines s).drop n with
    | nil => rfl
    | cons l ls =>
      rw [hd] at ih
      exact fullLines_flatten_tail ih

/-- A text without line breaks. -/
def Unbroken (s : List Char) : Prop := ∀ c ∈ s, isLineBreak c = false

instance (s : List Char) : Decidable (Unbroken s) :=
  decidable_of_iff (s.all (!isLineBreak ·) = true) (by simp [Unbroken])

/-- A text whose only line breaks are line feeds. -/
def OnlyFeeds (s : List Char) : Prop := ∀ c ∈ s, isLineBreak c = true → c = '\n'

/-- Lines with a line feed after each. -/
def unlines (ls : List (List Char)) : List Char := ls.flatMap (· ++ ['\n'])

variable {l : List Char} {ls ms : List (List Char)}

@[simp] theorem unbroken_nil : Unbroken [] := by simp [Unbroken]

@[simp] theorem unbroken_append : Unbroken (a ++ b) ↔ Unbroken a ∧ Unbroken b := List.forall_mem_append

/-- The characters of a text between two others. -/
theorem toList_between (a s b : String) : (a ++ s ++ b).toList = a.toList ++ (s.toList ++ b.toList) := by
  rw [String.toList_append, String.toList_append, List.append_assoc]

theorem unbroken_between {a s b : String} (ha : Unbroken a.toList) (hs : Unbroken s.toList)
    (hb : Unbroken b.toList) : Unbroken (a ++ s ++ b).toList := by
  rw [toList_between, unbroken_append, unbroken_append]
  exact ⟨ha, hs, hb⟩

/-- What holds of all characters of some texts and of what separates them holds when they are joined. -/
theorem forall_mem_join {P : Char → Prop} {sep : String} {ss : List String}
    (hsep : ∀ c ∈ sep.toList, P c) (h : ∀ s ∈ ss, ∀ c ∈ s.toList, P c) :
    ∀ c ∈ (join sep ss).toList, P c := by
  induction ss with
  | nil => exact List.forall_mem_nil _
  | cons s ss ih =>
    obtain ⟨hs, hss⟩ := List.forall_mem_cons.1 h
    cases ss with
    | nil => exact hs
    | cons t ss =>
      rw [join, String.toList_append, String.toList_append, List.forall_mem_append,
        List.forall_mem_append]
      exact ⟨⟨hs, hsep⟩, ih hss⟩

theorem unbroken_join {sep : String} {ss : List String} (hsep : Unbroken sep.toList)
    (h : ∀ s ∈ ss, Unbroken s.toList) : Unbroken (join sep ss).toList :=
  forall_mem_join hsep h

theorem onlyFeeds_join {sep : String} {ss : List String} (hsep : OnlyFeeds sep.toList)
    (h : ∀ s ∈ ss, OnlyFeeds s.toList) : OnlyFeeds (join sep ss).toList :=
  forall_mem_join hsep h

theorem Unbroken.subset (h : Unbroken a) (hs : b ⊆ a) : Unbroken b := fun c hc => h c (hs hc)

theorem Unbroken.onlyFeeds (h : Unbroken s) : OnlyFeeds s := by
  intro c hc hb
  rw [h c hc] at hb
  cases hb

@[simp] theorem onlyFeeds_append : OnlyFeeds (a ++ b) ↔ OnlyFeeds a ∧ OnlyFeeds b :=
  List.forall_mem_append

@[simp] theorem unlines_nil : unlines [] = [] := rfl

@[simp] theorem unlines_cons : unlines (l :: ls) = l ++ '\n' :: unlines ls := by
  simp [unlines]

@[simp] theorem unlines_append : unlines (ls ++ ms) = unlines ls ++ unlines ms := List.flatMap_append

theorem onlyFeeds_unlines (h : ∀ l ∈ ls, Unbroken l) : OnlyFeeds (unlines ls) := by
  induction ls with
  | nil => exact unbroken_nil.onlyFeeds
  | cons l ls ih =>
    obtain ⟨hl, hls⟩ := List.forall_mem_cons.1 h
    have hfeed : OnlyFeeds ['\n'] := by simp [OnlyFeeds]
    rw [unlines_cons, ← List.singleton_append, onlyFeeds_append, onlyFeeds_append]
    exact ⟨hl.onlyFeeds, hfeed, ih hls⟩

theorem unbroken_of_mem_lines (h : l ∈ lines s) : Unbroken l := by
  obtain ⟨m, -, rfl⟩ := List.mem_map.1 h
  intro c hc
  simpa using List.all_eq_true.1 List.all_takeWhile c hc

theorem lines_line (h : Unbroken l) (s : List Char) : lines (l ++ '\n' :: s) = l :: lines s := by
  induction l with
  | nil => exact lines_break rfl (by simp)
  | cons c l ih =>
    obtain ⟨hc, hl⟩ := List.forall_mem_cons.1 h
    rw [List.cons_append, lines_cons hc, ih hl, consLine]

theorem lines_of_unbroken (h : Unbroken l) (hne : l ≠ []) : lines l = [l] := by
  induction l with
  | nil => exact absurd rfl hne
  | cons c l ih =>
    obtain ⟨hc, hl⟩ := List.forall_mem_cons.1 h
    rw [lines_cons hc]
    cases l with
    | nil => rfl
    | cons d l => rw [ih hl (List.cons_ne_nil _ _), consLine]

/-- What stands before all line breaks starts the first line. -/
theorem lines_append_of_unbroken (ha : Unbroken a) (hne : a ≠ []) (s : List Char) :
    ∃ l ls, lines (a ++ s) = (a ++ l) :: ls := by
  induction a with
  | nil => exact absurd rfl hne
  | cons c a ih =>
    obtain ⟨hc, ha⟩ := List.forall_mem_cons.1 ha
    rw [List.cons_append, lines_cons hc]
    cases a with
    | nil =>
      rw [List.nil_append]
      cases lines s with
      | nil => exact ⟨[], [], rfl⟩
      | cons l ls => exact ⟨l, ls, rfl⟩
    | cons d a =>
      obtain ⟨l, ls, h⟩ := ih ha (List.cons_ne_nil _ _)
      rw [h]
      exact ⟨l, ls, rfl⟩

/-- Lines are read back from their text. -/
theorem lines_unlines_append (h : ∀ l ∈ ls, Unbroken l) (s : List Char) :
    lines (unlines ls ++ s) = ls ++ lines s := by
  induction ls with
  | nil => rfl
  | cons l ls ih =>
    obtain ⟨hl, hls⟩ := List.forall_mem_cons.1 h
    rw [unlines_cons, List.append_assoc, List.cons_append, lines_line hl, ih hls, List.cons_append]

theorem prefix_of_lines (h : lines s = l :: ls) : l <+: s := by
  unfold lines at h
  cases hf : fullLines s with
  | nil =>
    rw [hf] at h
    cases h
  | cons m ms =>
    rw [hf] at h
    obtain ⟨rfl, -⟩ := List.cons.inj h
    have hs := flatten_fullLines s
    rw [hf, List.flatten_cons] at hs
    exact (List.takeWhile_prefix _).trans ⟨_, hs⟩

/-- Every line but the first comes after a line feed, if there are no other line breaks. -/
theorem suffix_of_mem_lines (hs : OnlyFeeds s) (hl : l ∈ (lines s).drop 1) :
    ∃ v, '\n' :: v <:+ s ∧ l <+: v := by
  induction s with
  | nil => cases hl
  | cons c s ih =>
    obtain ⟨hc, hs⟩ := List.forall_mem_cons.1 hs
    have hlater (hl : l ∈ (lines s).drop 1) : ∃ v, '\n' :: v <:+ c :: s ∧ l <+: v := by
      obtain ⟨v, hv, hprefix⟩ := ih hs hl
      exact ⟨v, hv.trans (List.suffix_cons c s), hprefix⟩
    cases hb : isLineBreak c with
    | true =>
      obtain rfl := hc hb
      rw [lines_break rfl (by simp), List.drop_one, List.tail_cons] at hl
      cases hls : lines s with
      | nil =>
        rw [hls] at hl
        cases hl
      | cons m ms =>
        rw [hls] at hl hlater
        rcases List.mem_cons.1 hl with rfl | hl
        · exact ⟨s, List.suffix_rfl, prefix_of_lines hls⟩
        · exact hlater hl
    | false =>
      refine hlater ?_
      rw [lines_cons hb] at hl
      cases hls : lines s with
      | nil =>
        rw [hls] at hl
        cases hl
      | cons m ms =>
        rw [hls] at hl
        exact hl

theorem unlines_consLine (hne : ls ≠ []) : unlines (consLine c ls) = c :: unlines ls := by
  cases ls with
  | nil => exact absurd rfl hne
  | cons l ls => simp [consLine]

/-- A text whose only line breaks are line feeds is that of its lines. -/
theorem unlines_lines (h : OnlyFeeds s) : unlines (lines (s ++ ['\n'])) = s ++ ['\n'] := by
  induction s with
  | nil => rfl
  | cons c s ih =>
    obtain ⟨hc, hs⟩ := List.forall_mem_cons.1 h
    have hne : lines (s ++ ['\n']) ≠ [] := fun hnil => by
      have := lines_eq_nil hnil
      simp at this
    by_cases hb : isLineBreak c = true
    · obtain rfl := hc hb
      rw [List.cons_append, lines_break rfl (by simp), unlines_cons, ih hs]
      rfl
    · rw [List.cons_append, lines_cons (by simpa using hb), unlines_consLine hne, ih hs]

theorem join_append_feed (hne : ls ≠ []) :
    (join "\n" (ls.map String.ofList)).toList ++ ['\n'] = unlines ls := by
  induction ls with
  | nil => exact absurd rfl hne
  | cons l ls ih =>
    have hfeed : "\n".toList = ['\n'] := by decide
    cases ls with
    | nil => rw [List.map_singleton, join, String.toList_ofList, unlines_cons, unlines_nil]
    | cons m ls =>
      rw [List.map_cons, List.map_cons, join, String.toList_append, String.toList_append,
        String.toList_ofList, hfeed, List.append_assoc, ← List.map_cons, ih (List.cons_ne_nil _ _),
        List.append_assoc, List.singleton_append, ← unlines_cons]

end Text

end WitCaller
