import WitCaller.Proofs.Toml.Statements

/-!
A string that is cut at the end of a line: either it ends before, or it is one of several lines, and
then the text after the cut continues it in a way that the text before has settled.
-/

namespace WitCaller.Toml
open Reading
variable {α β : Type} {c q : Char} {u p s t r x z : List Char} {k : Continuation}

theorem LineEnd.tail (h : LineEnd (c :: u)) (hc : c ≠ '\n') : LineEnd u ∧ u ≠ [] := by
  refine ⟨h.of_append (s := [c]), ?_⟩
  rintro rfl
  rcases h with h | h
  · cases h
  · exact hc (Option.some.inj h)

/-- A front without line feeds lies in what ends at the end of a line. -/
theorem LineEnd.of_front (h : LineEnd u) (hu : u ≠ []) (he : u ++ z = p ++ t) (hp : '\n' ∉ p) :
    ∃ r, u = p ++ r ∧ r ≠ [] ∧ LineEnd r ∧ t = r ++ z := by
  rcases List.append_eq_append_iff.1 he with ⟨a, rfl, rfl⟩ | ⟨r, rfl, rfl⟩
  · exact absurd (List.mem_append_left a (h.mem hu)) hp
  · refine ⟨r, rfl, ?_, h.of_append, rfl⟩
    rintro rfl
    rw [List.append_nil] at h hu
    exact hp (h.mem hu)

/-- Reading ends in `u`, which is not used up, whatever follows. -/
def Inside (read : List Char → Option (α × List Char)) (u : List Char) (a : α) : Prop :=
  ∃ r, r ≠ [] ∧ LineEnd r ∧ ∀ z, read (u ++ z) = some (a, r ++ z)

theorem Inside.of_front {read : List Char → Option (α × List Char)} {a : α} (hu : LineEnd (p ++ r))
    (hr : r ≠ []) (h : ∀ z, read (p ++ (r ++ z)) = some (a, r ++ z)) : Inside read (p ++ r) a :=
  ⟨r, hr, hu.of_append, fun z => by rw [List.append_assoc, h]⟩

/-- What reading makes of the front `u` of a text: it ends in it, fails in it, or goes on after it
with one of some readers, `g` being read already. -/
def Cut (next : (List Char → Option (List Char × List Char)) → Prop)
    (read : List Char → Option (List Char × List Char)) (u : List Char) : Prop :=
  (∃ x, Inside read u x) ∨ (∀ z, read (u ++ z) = none) ∨
    ∃ g read', next read' ∧ ∀ z, read (u ++ z) = onValue (g ++ ·) (read' z)

variable {next : (List Char → Option (List Char × List Char)) → Prop}
  {read read' : List Char → Option (List Char × List Char)}

/-- A reader that reads on after some characters is cut where that is. -/
theorem Cut.prepend {g : List Char} (h : Cut next read' u)
    (hread : ∀ z, read (p ++ (u ++ z)) = onValue (g ++ ·) (read' (u ++ z))) : Cut next read (p ++ u) := by
  rcases h with ⟨x, r, hr, hl, hz⟩ | hn | ⟨g', read₂, hnext, hz⟩
  · refine .inl ⟨g ++ x, r, hr, hl, fun z => ?_⟩
    rw [List.append_assoc, hread, hz]
    rfl
  · refine .inr (.inl fun z => ?_)
    rw [List.append_assoc, hread, hn]
    rfl
  · refine .inr (.inr ⟨g ++ g', read₂, hnext, fun z => ?_⟩)
    rw [List.append_assoc, hread, hz]
    cases read₂ z with
    | none => rfl
    | some y => simp [onValue]

/-- If reading does not fail for every text that may follow, it succeeds for one. -/
theorem Cut.of_some (h : ∀ z x t, read (u ++ z) = some (x, t) → Cut next read u) : Cut next read u := by
  by_cases hn : ∀ z, read (u ++ z) = none
  · exact .inr (.inl hn)
  · obtain ⟨z, hz⟩ := Classical.not_forall.1 hn
    obtain ⟨⟨x, t⟩, hx⟩ := Option.ne_none_iff_exists'.1 hz
    exact h z x t hx

/-- A string on one line ends in the line or fails. -/
theorem cut_of_inline (hu : LineEnd u) (hne : u ≠ []) (h : ∀ {s x t}, read s = some (x, t) →
    Takes Inline read (fun _ => True) x s t) : Cut next read u := by
  refine .of_some fun z x t hx => ?_
  obtain ⟨p, hs, hp, hread⟩ := h hx
  obtain ⟨r, rfl, hr, -, -⟩ := hu.of_front hne hs hp.2
  exact .inl ⟨x, .of_front hu hr fun z => hread _ trivial⟩

theorem closing_cut (hq : q ≠ '\n') (hu : LineEnd u) (hne : u ≠ []) (h : [q, q, q] <+: u) :
    ∃ x, Inside (fun s => outcome (closing q s)) u x := by
  obtain ⟨v, rfl⟩ := h
  obtain ⟨n, r, hn, rfl, hr⟩ := exists_replicate_append q v
  -- The line feed at the end is no quote, so it is left.
  have hrest : r ≠ [] := by
    rintro rfl
    have hm : '\n' ∈ q :: q :: q :: (List.replicate n q ++ []) := hu.mem hne
    simp [hq.symm] at hm
  obtain ⟨c, r, rfl⟩ := List.exists_cons_of_ne_nil hrest
  have hend : LineEnd (c :: r) := (hu.of_append (s := [q, q, q])).of_append
  refine ⟨List.replicate n q, c :: r, hrest, hend, fun z => ?_⟩
  show outcome (closing q (q :: q :: q :: (List.replicate n q ++ c :: r ++ z))) = _
  rw [List.append_assoc]
  exact outcome_closing hn hr

theorem prefix_of_lineEnd (hu : LineEnd u) (hne : u ≠ []) (hp : '\n' ∉ p) (h : p <+: u ++ z) :
    p <+: u := by
  obtain ⟨t, ht⟩ := h
  obtain ⟨r, rfl, -, -, -⟩ := hu.of_front hne ht.symm hp
  exact ⟨r, rfl⟩

/-- The readers of the rest of a string of several lines at the start of a line. -/
inductive LongTail : (List Char → Option (List Char × List Char)) → Prop where
  | basic {k : Continuation} (hk : k ≠ .toLineEnd) : LongTail fun s => outcome (longBasicTail k s)
  | literal : LongTail fun s => outcome (longLiteralTail s)

theorem longLiteralTail_cut (hu : LineEnd u) : Cut LongTail (fun s => outcome (longLiteralTail s)) u := by
  induction u with
  | nil =>
    refine .inr (.inr ⟨[], _, .literal, fun z => ?_⟩)
    exact onValue_id.symm
  | cons c u ih =>
    by_cases hq : ['\x27', '\x27', '\x27'] <+: c :: u
    · obtain ⟨x, r, hr, hl, hz⟩ := closing_cut (by decide) hu (by simp) hq
      exact .inl ⟨x, r, hr, hl, fun z => outcome_longLiteralTail_closing (hz z)⟩
    · have hq' (z : List Char) : ¬ ['\x27', '\x27', '\x27'] <+: c :: (u ++ z) := fun h =>
        hq (prefix_of_lineEnd hu (by simp) (by decide) h)
      by_cases hc : isControl c ∧ c ≠ '\n'
      · refine .inr (.inl fun z => ?_)
        show outcome (longLiteralTail (c :: (u ++ z))) = _
        rw [longLiteralTail, closing_eq_none (hq' z)]
        simp only [if_pos hc]
        rfl
      · exact (ih (hu.of_append (s := [c]))).prepend (p := [c]) (g := [c]) fun z =>
          outcome_longLiteralTail_other (hq' z) hc

/-- Nothing is read of an empty front, and what is left to skip in a line lies in the line. -/
theorem longBasicTail_cut_of_ne_nil (hk : k = .toLineEnd → u ≠ [])
    (h : u ≠ [] → Cut LongTail (fun s => outcome (longBasicTail k s)) u) :
    Cut LongTail (fun s => outcome (longBasicTail k s)) u := by
  by_cases hu : u = []
  · subst hu
    exact .inr (.inr ⟨[], _, .basic fun h => hk h rfl, fun z => onValue_id.symm⟩)
  · exact h hu

/-- By induction on what is read; a step that takes nothing but characters of the line lies in `u`. -/
theorem LongRead.cut (h : LongRead '\x22' k s x t) (hs : u ++ z = s) (hu : LineEnd u) (hne : u ≠ []) :
    Cut LongTail (fun s => outcome (longBasicTail k s)) u := by
  induction h generalizing u with
  | close hk =>
    obtain ⟨y, r, hr, hl, hz⟩ :=
      closing_cut (by decide) hu hne (prefix_of_lineEnd hu hne (by decide) ⟨_, hs.symm⟩)
    obtain ⟨c, v, rfl⟩ := List.exists_cons_of_ne_nil hne
    cases (List.cons.inj hs).1
    refine .inl ⟨y, r, hr, hl, fun z => ?_⟩
    show outcome (longBasicTail _ ('\x22' :: (v ++ z))) = _
    rw [longBasicTail_settled hk.1 hk.2]
    exact outcome_longBasicTail_closing (hz z)
  | @char k c _ _ _ hk hn hb hc _ ih =>
    obtain ⟨d, v, rfl⟩ := List.exists_cons_of_ne_nil hne
    obtain ⟨rfl, rfl⟩ := List.cons.inj hs
    have hv := longBasicTail_cut_of_ne_nil (k := .none) nofun (ih rfl (hu.of_append (s := [d])))
    refine hv.prepend (p := [d]) (g := [d]) fun z' => ?_
    have hn' : ¬ ['\x22', '\x22', '\x22'] <+: d :: (v ++ z') := fun h =>
      hn ((prefix_of_lineEnd hu hne (by decide) h).trans (List.prefix_append _ _))
    show outcome (longBasicTail k (d :: (v ++ z'))) = _
    rw [longBasicTail_settled hk.1 hk.2, outcome_longBasicTail_other hn' (hb rfl) hc]
    rfl
  | @skip k k' c _ _ _ _ hk _ ih =>
    obtain ⟨d, v, rfl⟩ := List.exists_cons_of_ne_nil hne
    obtain ⟨rfl, rfl⟩ := List.cons.inj hs
    -- Blanks before a line end leave the line end to come.
    have hk' : k' = .toLineEnd → v ≠ [] := by
      rintro rfl
      rcases hk with ⟨-, ⟨hd, -⟩ | ⟨-, -, hk⟩⟩ | ⟨-, -, hk⟩
      · refine (hu.tail ?_).2
        rintro rfl
        cases hd
      · cases hk
      · cases hk
    have hv : LineEnd v := hu.of_append (s := [d])
    exact (longBasicTail_cut_of_ne_nil hk' (ih rfl hv)).prepend (p := [d]) (g := []) fun z' =>
      (outcome_longBasicTail_skip hk).trans onValue_id.symm
  | @escape k e _ _ _ y _ hk he _ ih =>
    have hline : '\n' ∉ '\\' :: e := by simpa using he.not_mem
    obtain ⟨v, rfl, hne', hv, hr⟩ := hu.of_front hne hs hline
    refine (ih hr.symm hv hne').prepend (p := '\\' :: e) (g := [y]) fun z' => ?_
    show outcome (longBasicTail k ('\\' :: (e ++ (v ++ z')))) = _
    rw [longBasicTail_settled hk.1 hk.2, outcome_longBasicTail_escape he]
    rfl
  | @join k c _ _ _ _ hk hc _ ih =>
    obtain ⟨v, rfl, hne', hv, hr⟩ := hu.of_front (p := ['\\']) hne hs (by decide)
    obtain ⟨d, w, rfl⟩ := List.exists_cons_of_ne_nil hne'
    obtain ⟨rfl, rfl⟩ := List.cons.inj hr
    have hk' : (if c = '\n' then Continuation.blanks else .toLineEnd) = .toLineEnd → w ≠ [] := by
      split
      · rintro ⟨⟩
      · next hn => exact fun _ => (hv.tail hn).2
    have hw : LineEnd w := hv.of_append (s := [c])
    refine (longBasicTail_cut_of_ne_nil hk' (ih rfl hw)).prepend (p := ['\\', c]) (g := []) fun z' => ?_
    show outcome (longBasicTail k ('\\' :: c :: (w ++ z'))) = _
    rw [longBasicTail_settled hk.1 hk.2, outcome_longBasicTail_join hc]
    exact onValue_id.symm

theorem longBasicTail_cut (hu : LineEnd u) (hk : k = .toLineEnd → u ≠ []) :
    Cut LongTail (fun s => outcome (longBasicTail k s)) u :=
  longBasicTail_cut_of_ne_nil hk fun hne =>
    .of_some fun _ _ _ hx => (longRead_longBasicTail.1 hx).cut rfl hu hne

/-- A character that means itself is the first of what is read, unless it is a blank that is skipped. -/
theorem LongRead.step (h : LongRead q k (c :: r) x t) (hk : k ≠ .toLineEnd) (hq : c ≠ q) (hb : c ≠ '\\') :
    ∃ k' y, k' ≠ .toLineEnd ∧ LongRead q k' r y t ∧
      (x = c :: y ∨ (isSpace c ∨ c = '\n') ∧ x = y) := by
  cases h with
  | close => exact absurd rfl hq
  | char _ _ _ _ h => exact ⟨.none, _, nofun, h, .inl rfl⟩
  | @skip _ k' _ _ _ _ _ hskip h =>
    obtain ⟨rfl, -⟩ | ⟨-, hgap, rfl⟩ := hskip
    · exact absurd rfl hk
    · exact ⟨.blanks, x, nofun, h, .inr ⟨hgap, rfl⟩⟩
  | escape => exact absurd rfl hb
  | join => exact absurd rfl hb

theorem LongTail.step (hr : LongTail read) (hc : c ≠ '\x22' ∧ c ≠ '\x27' ∧ c ≠ '\\')
    (h : read (c :: r) = some (x, t)) : ∃ read' y, LongTail read' ∧ read' r = some (y, t) ∧
      (x = c :: y ∨ (isSpace c ∨ c = '\n') ∧ x = y) := by
  cases hr with
  | literal =>
    obtain ⟨k', y, -, hy, hx⟩ := (longRead_longLiteralTail.1 h).step nofun hc.2.1 hc.2.2
    exact ⟨_, y, .literal, hy.longLiteralTail, hx⟩
  | basic hk =>
    obtain ⟨k', y, hk', hy, hx⟩ := (longRead_longBasicTail.1 h).step hk hc.1 hc.2.2
    exact ⟨_, y, .basic hk', longRead_longBasicTail.2 hy, hx⟩

theorem LongTail.nil (hr : LongTail read) : read [] = none := by
  rw [Option.eq_none_iff_forall_ne_some]
  rintro ⟨x, t⟩ h
  cases hr with
  | literal => cases longRead_longLiteralTail.1 h
  | basic => cases longRead_longBasicTail.1 h

theorem ordinary_of_gap (hc : isSpace c ∨ c = '\n') : c ≠ '\x22' ∧ c ≠ '\x27' ∧ c ≠ '\\' := by
  rw [isSpace, Bool.or_eq_true, beq_iff_eq, beq_iff_eq] at hc
  rcases hc with (rfl | rfl) | rfl <;> decide

/-- What is read begins with the first character that is no blank, after some blanks. -/
theorem LongTail.front {w x : List Char} (hr : LongTail read) (hw : ∀ d ∈ w, isSpace d ∨ d = '\n')
    (hc : c ≠ '\x22' ∧ c ≠ '\x27' ∧ c ≠ '\\') (hgap : ¬ (isSpace c ∨ c = '\n'))
    (h : read (w ++ c :: r) = some (x, t)) :
    ∃ w' y, x = w' ++ c :: y ∧ ∀ d ∈ w', isSpace d ∨ d = '\n' := by
  induction w generalizing read x with
  | nil =>
    obtain ⟨_, y, -, -, rfl | ⟨hg, -⟩⟩ := hr.step hc h
    · exact ⟨[], y, rfl, by simp⟩
    · exact absurd hg hgap
  | cons d w ih =>
    have hd := hw d List.mem_cons_self
    obtain ⟨read', y, hr', hy, hx⟩ := hr.step (ordinary_of_gap hd) h
    obtain ⟨w', y', rfl, hw'⟩ := ih hr' (fun e he => hw e (List.mem_cons_of_mem d he)) hy
    rcases hx with rfl | ⟨-, rfl⟩
    · refine ⟨d :: w', y', rfl, ?_⟩
      intro e he
      rcases List.mem_cons.1 he with rfl | he
      · exact hd
      · exact hw' e he
    · exact ⟨w', y', rfl, hw'⟩

theorem LongTail.gaps {w : List Char} (hr : LongTail read) (hw : ∀ d ∈ w, isSpace d ∨ d = '\n') :
    read w = none := by
  induction w generalizing read with
  | nil => exact hr.nil
  | cons d w ih =>
    rw [Option.eq_none_iff_forall_ne_some]
    intro x h
    obtain ⟨read', y, hr', hy, -⟩ := hr.step (ordinary_of_gap (hw d List.mem_cons_self)) h
    rw [ih hr' fun e he => hw e (List.mem_cons_of_mem d he)] at hy
    cases hy

/-- A string with tripled quotes is cut as its tail is. -/
theorem Cut.tripled {tail : List Char → Option (List Char × List Char)}
    (hline : ∀ r, read (q :: q :: q :: '\n' :: r) = tail r)
    (hlong : ∀ r, r.head? ≠ some '\n' → read (q :: q :: q :: r) = tail r)
    (htail : ∀ {u}, LineEnd u → Cut next tail u) (hu : LineEnd u) (hne : u ≠ []) :
    Cut next read (q :: q :: q :: u) := by
  by_cases hn : u.head? = some '\n'
  · obtain ⟨v, rfl⟩ := List.head?_eq_some_iff.1 hn
    exact (htail (hu.of_append (s := ['\n']))).prepend (p := [q, q, q, '\n']) (g := []) fun z =>
      (hline _).trans onValue_id.symm
  · obtain ⟨c, v, rfl⟩ := List.exists_cons_of_ne_nil hne
    have hn' (z : List Char) : (c :: v ++ z).head? ≠ some '\n' := hn
    exact (htail hu).prepend (p := [q, q, q]) (g := []) fun z => (hlong _ (hn' z)).trans onValue_id.symm

theorem Cut.short {tail : List Char → Option (List Char × List Char)} (hq : q ≠ '\n')
    (hshort : ∀ r, ¬ [q, q] <+: r → read (q :: r) = tail r)
    (htail : ∀ {r x t}, tail r = some (x, t) → Takes Inline tail (fun _ => True) x r t)
    (hu : LineEnd u) (hne : u ≠ []) (hp : ¬ [q, q] <+: u) : Cut next read (q :: u) := by
  refine (cut_of_inline hu hne htail).prepend (p := [q]) (g := []) fun z => ?_
  refine (hshort _ fun h => hp ?_).trans onValue_id.symm
  exact prefix_of_lineEnd hu hne (by simpa using Ne.symm hq) h

theorem readText_cut (hu : LineEnd u) (hne : u ≠ []) :
    Cut LongTail (fun s => outcome (readText s)) u := by
  obtain ⟨c, v, rfl⟩ := List.exists_cons_of_ne_nil hne
  by_cases hd : c = '\x22'
  · subst hd
    obtain ⟨hv, hvne⟩ := hu.tail (by decide)
    by_cases hp : ['\x22', '\x22'] <+: v
    · obtain ⟨w, rfl⟩ := hp
      have hw := (hv.tail (by decide)).1.tail (by decide)
      exact .tripled (fun _ => outcome_readText_long_line) (fun _ => outcome_readText_long)
        (fun hu => longBasicTail_cut hu nofun) hw.1 hw.2
    · exact .short (by decide) (fun _ => outcome_readText_basic) basicTail_takes hv hvne hp
  by_cases hs : c = '\x27'
  · subst hs
    obtain ⟨hv, hvne⟩ := hu.tail (by decide)
    by_cases hp : ['\x27', '\x27'] <+: v
    · obtain ⟨w, rfl⟩ := hp
      have hw := (hv.tail (by decide)).1.tail (by decide)
      exact .tripled (fun _ => outcome_readText_long_literal_line)
        (fun _ => outcome_readText_long_literal) longLiteralTail_cut hw.1 hw.2
    · exact .short (by decide) (fun _ => outcome_readText_literal) literalTail_takes hv hvne hp
  · exact .inr (.inl fun z => outcome_readText_none hd hs)

end WitCaller.Toml
