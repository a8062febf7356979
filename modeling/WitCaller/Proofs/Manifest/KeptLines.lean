import Mathlib
import WitCaller.Proofs.Manifest.Splices

/-!
The lines of a manifest that a registration leaves alone. Their line ends become line feeds, as all line
ends do when a text is read, so such a line keeps its bytes exactly if it has no carriage return.
-/

namespace WitCaller

namespace Text
open Toml
variable {c : Char} {r s u v w : List Char} {ls ms old new : List (List Char)}

/-- The lines of a file, each with its line feed, its carriage return, or the two together. -/
def fileLines : List Char → List (List Char)
  | [] => []
  | '\r' :: '\n' :: r => ['\r', '\n'] :: fileLines r
  | c :: r => if c = '\n' ∨ c = '\r' then [c] :: fileLines r else consLine c (fileLines r)

theorem flatten_fileLines (s : List Char) : (fileLines s).flatten = s := by
  fun_induction fileLines s <;> simp_all

theorem fileLines_break (hc : c = '\n' ∨ c = '\r') (h : c = '\r' → r.head? ≠ some '\n') :
    fileLines (c :: r) = [c] :: fileLines r := by
  rw [fileLines, if_pos hc]
  rintro r' rfl rfl
  exact h rfl rfl

theorem fileLines_feed (r : List Char) : fileLines ('\n' :: r) = ['\n'] :: fileLines r :=
  fileLines_break (.inl rfl) fun h => absurd h (by decide)

theorem fileLines_cons (hc : ¬ (c = '\n' ∨ c = '\r')) (r : List Char) :
    fileLines (c :: r) = consLine c (fileLines r) := by
  rw [fileLines, if_neg hc]
  rintro r' rfl
  exact absurd (.inr rfl) hc

theorem fileLines_eq_nil (h : fileLines s = []) : s = [] := by
  rw [← flatten_fileLines s, h]
  rfl

theorem consLine_append (h : ls ≠ []) : consLine c (ls ++ ms) = consLine c ls ++ ms := by
  cases ls with
  | nil => exact absurd rfl h
  | cons l ls => rfl

/-- A text after the end of a line adds lines of its own. -/
theorem fileLines_append (h : LineEnd s) (t : List Char) :
    fileLines (s ++ t) = fileLines s ++ fileLines t := by
  fun_induction fileLines s with
  | case1 => rfl
  | case2 r ih =>
    rw [List.cons_append, List.cons_append, fileLines, ih (h.of_append (s := ['\r', '\n']))]
    rfl
  | case3 c r hnot hc ih =>
    have hhead : c = '\r' → (r ++ t).head? ≠ some '\n' := by
      rintro rfl
      cases r with
      | nil => exact absurd rfl (h.tail (by decide)).2
      | cons d r =>
        rintro ⟨⟩
        exact hnot r rfl rfl
    rw [List.cons_append, fileLines_break hc hhead, ih (h.of_append (s := [c]))]
    rfl
  | case4 c r hnot hc ih =>
    obtain ⟨hr, hne⟩ := h.tail fun he => hc (.inl he)
    rw [List.cons_append, fileLines_cons hc, ih hr, consLine_append (mt fileLines_eq_nil hne)]

/-- When its line ends are made line feeds, so are those of its lines. -/
theorem fileLines_unifyLineEnds (s : List Char) :
    fileLines (unifyLineEnds s) = (fileLines s).map unifyLineEnds := by
  fun_induction fileLines s with
  | case1 => rfl
  | case2 r ih =>
    rw [unifyLineEnds, fileLines_feed, ih]
    rfl
  | case3 c r hnot hc ih =>
    have hfeed : unifyLineEnds (c :: r) = '\n' :: unifyLineEnds r := by
      rw [unifyLineEnds]
      · rcases hc with rfl | rfl <;> rfl
      · exact hnot
    have hline : unifyLineEnds [c] = ['\n'] := by
      rcases hc with rfl | rfl <;> rfl
    rw [hfeed, fileLines_feed, ih, List.map_cons, hline]
  | case4 c r hnot hc ih =>
    have hcons (r : List Char) : unifyLineEnds (c :: r) = c :: unifyLineEnds r := by
      rw [unifyLineEnds, if_neg fun he => hc (.inr he)]
      rintro r' rfl
      exact absurd (.inr rfl) hc
    rw [hcons, fileLines_cons hc, ih]
    cases fileLines r with
    | nil => exact congrArg (fun l => [l]) (hcons []).symm
    | cons l ls => exact congrArg (· :: _) (hcons l).symm

theorem map_unifyLineEnds_eq_self :
    ls.map unifyLineEnds = ls ↔ ∀ l ∈ ls, '\r' ∉ l := by
  constructor
  · intro h l hl
    rw [← h] at hl
    obtain ⟨m, -, rfl⟩ := List.mem_map.1 hl
    exact not_mem_unifyLineEnds m
  · intro h
    exact (List.map_congr_left fun l hl => unifyLineEnds_eq_self (h l hl)).trans (List.map_id ls)

/-- A text without line ends but at its own end is no more than one line. -/
theorem fileLines_line {e : List Char} (hs : '\n' ∉ s) (hr : '\r' ∉ s) (he : e = [] ∨ e = ['\n']) :
    fileLines (s ++ e) = [] ∨ fileLines (s ++ e) = [s ++ e] := by
  induction s with
  | nil =>
    rcases he with rfl | rfl
    · exact .inl rfl
    · exact .inr rfl
  | cons c s ih =>
    rw [List.mem_cons, not_or] at hs hr
    refine .inr ?_
    rw [List.cons_append, fileLines_cons (by simp [Ne.symm hs.1, Ne.symm hr.1])]
    rcases ih hs.2 hr.2 with h | h
    · rw [fileLines_eq_nil h]
      rfl
    · rw [h]
      rfl

theorem exists_lastLine (s : List Char) : ∃ u v, s = u ++ v ∧ LineEnd u ∧ '\n' ∉ v := by
  by_cases h : '\n' ∈ s
  · obtain ⟨v, u, hs, hv⟩ := List.eq_append_cons_of_mem (List.mem_reverse.2 h)
    refine ⟨u.reverse ++ ['\n'], v.reverse, ?_, .inr List.getLast?_concat, by simpa using hv⟩
    rw [← List.reverse_reverse s, hs]
    simp
  · exact ⟨[], s, rfl, .inl rfl, h⟩

theorem exists_firstLine (s : List Char) : ∃ u e v, s = u ++ e ++ v ∧ '\n' ∉ u ∧
    (e = ['\n'] ∨ e = [] ∧ v = []) := by
  by_cases h : '\n' ∈ s
  · obtain ⟨u, v, hs, hu⟩ := List.eq_append_cons_of_mem h
    exact ⟨u, ['\n'], v, by simp [hs], hu, .inl rfl⟩
  · exact ⟨s, [], [], by simp, h, .inr ⟨rfl, rfl⟩⟩

/-- That lines give way to others in an edit: no more than one, and it is not the first or the last of
those that are there afterwards. -/
def Replaced (old new : List (List Char)) : Prop :=
  old = [] ∨ ∃ l, old = [l] ∧ new.head? ≠ some l ∧ new.getLast? ≠ some l

/-- A line that is still there is not counted. -/
theorem exists_replaced {front back : List (List Char)} (h : old = [] ∨ ∃ l, old = [l]) :
    ∃ front' old' new' back', front ++ old ++ back = front' ++ old' ++ back' ∧
      front ++ new ++ back = front' ++ new' ++ back' ∧ Replaced old' new' := by
  rcases h with rfl | ⟨l, rfl⟩
  · exact ⟨front, [], new, back, rfl, rfl, .inl rfl⟩
  by_cases hhead : new.head? = some l
  · obtain ⟨rest, rfl⟩ := List.head?_eq_some_iff.1 hhead
    exact ⟨front ++ [l], [], rest, back, by simp, by simp, .inl rfl⟩
  by_cases hlast : new.getLast? = some l
  · obtain ⟨rest, rfl⟩ := List.getLast?_eq_some_iff.1 hlast
    exact ⟨front, [], rest, l :: back, by simp, by simp, .inl rfl⟩
  · exact ⟨front, [l], new, back, rfl, rfl, .inr ⟨l, rfl, hhead, hlast⟩⟩

/-- An edit within one line replaces no more than this line. -/
theorem exists_edited_lines (hr : '\r' ∉ u ++ (w ++ v)) (hw : '\n' ∉ w) (t : List Char) :
    ∃ front old new back, fileLines (u ++ (w ++ v)) = front ++ old ++ back ∧
      fileLines (u ++ (t ++ v)) = front ++ new ++ back ∧ Replaced old new := by
  obtain ⟨above, lead, rfl, habove, hlead⟩ := exists_lastLine u
  obtain ⟨tail, e, below, rfl, htail, he⟩ := exists_firstLine v
  -- The text between the line ends around the edit, whatever is put in there.
  have hlines (x : List Char) : fileLines ((above ++ lead) ++ (x ++ (tail ++ e ++ below))) =
      fileLines above ++ fileLines (lead ++ (x ++ tail) ++ e) ++ fileLines below := by
    have hassoc : (above ++ lead) ++ (x ++ (tail ++ e ++ below)) =
        above ++ ((lead ++ (x ++ tail) ++ e) ++ below) := by simp
    rw [hassoc, fileLines_append habove, List.append_assoc (fileLines above)]
    rcases he with rfl | ⟨rfl, rfl⟩
    · rw [fileLines_append (.inr List.getLast?_concat)]
    · simp [fileLines]
  rw [hlines, hlines]
  refine exists_replaced ?_
  have hfeed : '\n' ∉ lead ++ (w ++ tail) := by simp [hlead, hw, htail]
  have hreturn : '\r' ∉ lead ++ (w ++ tail) := by
    simp only [List.mem_append, not_or] at hr ⊢
    exact ⟨hr.1.2, hr.2.1, hr.2.2.1.1⟩
  refine (fileLines_line hfeed hreturn ?_).imp_right fun h => ⟨_, h⟩
  exact he.symm.imp_left And.left

end Text

namespace Manifest
open Text Session
variable {call : Call} {s s' : Session} {text text' : List Char}

/-- A registration changes text within one line only, and what it puts in there may have more lines. -/
theorem Call.edit_inLine (h : call.edit text = .ok text') :
    ∃ u w t v, text = u ++ (w ++ v) ∧ text' = u ++ (t ++ v) ∧ '\n' ∉ w := by
  cases call with
  | member base crate =>
    obtain ⟨p, hplace, rfl⟩ := addMember_eq_ok h
    have htext := (membersPlace?_split hplace).1
    obtain ⟨hone, -, hitem⟩ | ⟨front, back, w, z, hgap, hfront, hitem, -⟩ :=
      insertItem_cases crate p.array
    · refine ⟨p.above ++ p.lead, p.array.inside ++ [']'], '[' :: quoted crate [']'], p.below, ?_, ?_, ?_⟩
      · rw [htext]
        simp [ArrayText.inside]
      · simp [hitem]
      · simp [hone]
    · refine ⟨p.above ++ (p.lead ++ '[' :: p.array.values), front,
        p.array.comma ++ (front ++ (w ++ quoted crate z)), back ++ ']' :: p.below, ?_, ?_, hfront⟩
      · rw [htext, hgap]
        simp
      · simp [hitem, quoted]
  | dependency project name target =>
    cases h
    obtain ⟨k, feed, -, h⟩ | ⟨k, feed, -, h⟩ := addDependency_inserts name target text
    all_goals exact ⟨text.take k, [], _, text.drop k, by simp, h, List.not_mem_nil⟩

/-- A registration that returns `true` replaces no more than one line of its manifest, and makes the line
ends of all others line feeds. So these keep their bytes if and only if none of them has a carriage return. -/
theorem Call.run_keeps_lines_iff (hk : s.ReportsAside call.manifest) (h : call.run s = (.ok true, s')) :
    ∃ named raw text front old new back, s.tree.locate s.cwd call.manifest = .ok named ∧
      s.tree.get? named = some (.file (Utf8.encode raw)) ∧
      s'.tree.get? named = some (.file (Utf8.encode text)) ∧
      fileLines raw = front ++ old ++ back ∧ Replaced (old.map unifyLineEnds) new ∧
      fileLines text = front.map unifyLineEnds ++ new ++ back.map unifyLineEnds ∧
      (fileLines text = front ++ new ++ back ↔ ∀ l ∈ front ++ back, '\r' ∉ l) := by
  obtain ⟨named, bytes, raw, text, hl, hf, hraw, hedit, hwritten⟩ := edited hk h
  obtain ⟨u, w, t, v, hread, rfl, hw⟩ := edit_inLine hedit
  have hreturn : '\r' ∉ u ++ (w ++ v) := hread ▸ not_mem_unifyLineEnds raw
  obtain ⟨front', old', new, back', hbefore, hafter, hreplaced⟩ := exists_edited_lines hreturn hw t
  rw [← hread, fileLines_unifyLineEnds] at hbefore
  obtain ⟨fo, back, hlines, hfo, rfl⟩ := List.map_eq_append_iff.1 hbefore
  obtain ⟨front, old, rfl, rfl, rfl⟩ := List.map_eq_append_iff.1 hfo
  refine ⟨named, raw, _, front, old, new, back, hl, ?_, hwritten, hlines, hreplaced, hafter, ?_⟩
  · rw [Utf8.encode_of_decode hraw]
    exact hf
  · rw [hafter, ← map_unifyLineEnds_eq_self, List.map_append]
    constructor
    · intro hsame
      obtain ⟨hfn, hb⟩ := List.append_inj' hsame (List.length_map _)
      rw [List.append_cancel_right hfn, hb]
    · intro hsame
      obtain ⟨hf, hb⟩ := List.append_inj hsame (List.length_map _)
      rw [hf, hb]

/-- A line with a line feed is kept, and one with a carriage return before it is not. -/
theorem Call.run_keeps_lines_iff_returns :
    let call := Call.member ⟨.relative, []⟩ "calls"
    let feeds := "[workspace]\nmembers = [\"app\"]"
    let returns := "[workspace]\r\nmembers = [\"app\"]"
    let written := "[workspace]\nmembers = [\"app\", \"calls\"]".toList
    (∃ s' front old new back, call.run (withManifest feeds) = (.ok true, s') ∧
      s'.tree.get? ["w", "Cargo.toml"] = some (.file (Utf8.encode written)) ∧
      fileLines feeds.toList = front ++ old ++ back ∧ Replaced (old.map unifyLineEnds) new ∧
      fileLines written = front ++ new ++ back) ∧
    ∃ s' front old new back, call.run (withManifest returns) = (.ok true, s') ∧
      s'.tree.get? ["w", "Cargo.toml"] = some (.file (Utf8.encode written)) ∧
      fileLines returns.toList = front ++ old ++ back ∧ Replaced (old.map unifyLineEnds) new ∧
      fileLines written ≠ front ++ new ++ back := by
  intro call feeds returns written
  have key (manifest : String) (hreturns : (call.run (withManifest manifest)).1.toOption = some true)
      (hfile : (call.run (withManifest manifest)).2.tree.get? ["w", "Cargo.toml"] =
        some (.file (Utf8.encode written))) :
      ∃ s' front old new back, call.run (withManifest manifest) = (.ok true, s') ∧
        s'.tree.get? ["w", "Cargo.toml"] = some (.file (Utf8.encode written)) ∧
        fileLines manifest.toList = front ++ old ++ back ∧ Replaced (old.map unifyLineEnds) new ∧
        fileLines written = front.map unifyLineEnds ++ new ++ back.map unifyLineEnds ∧
        (fileLines written = front ++ new ++ back ↔ ∀ l ∈ front ++ back, '\r' ∉ l) := by
    have h := Steps.apply_of_toOption hreturns
    have haside : (withManifest manifest).ReportsAside call.manifest := by rintro k ⟨⟩
    obtain ⟨named, raw, text, front, old, new, back, hl, hf, hw, hlines, hreplaced, hafter, hiff⟩ :=
      run_keeps_lines_iff haside h
    obtain ⟨rfl, rfl⟩ := read_withManifest rfl hl hf (Utf8.decode_encode raw)
    obtain rfl : written = text := Utf8.encode_inj (by simpa using hfile.symm.trans hw)
    exact ⟨_, front, old, new, back, h, hfile, hlines, hreplaced, hafter, hiff⟩
  constructor
  · obtain ⟨s', front, old, new, back, h, hfile, hlines, hreplaced, -, hiff⟩ :=
      key feeds (by decide +kernel) (by decide +kernel)
    have hno : ∀ l ∈ front ++ old ++ back, '\r' ∉ l := hlines ▸ (by decide +kernel)
    refine ⟨s', front, old, new, back, h, hfile, hlines, hreplaced, hiff.2 fun l hl => hno l ?_⟩
    rw [List.append_assoc, List.mem_append, List.mem_append]
    exact (List.mem_append.1 hl).imp_right .inr
  · obtain ⟨s', front, old, new, back, h, hfile, hlines, hreplaced, hafter, hiff⟩ :=
      key returns (by decide +kernel) (by decide +kernel)
    refine ⟨s', front, old, new, back, h, hfile, hlines, hreplaced, fun hkept => ?_⟩
    have hno := hiff.1 hkept
    have hfirst : fileLines returns.toList = ["[workspace]\r\n".toList, "members = [\"app\"]".toList] := by
      decide +kernel
    have hwritten : fileLines written = ["[workspace]\n".toList, "members = [\"app\", \"calls\"]".toList] := by
      decide +kernel
    rw [hfirst] at hlines
    -- The first line has a carriage return, so it would be the one that is replaced; but it is still there.
    cases front with
    | cons f front =>
      obtain ⟨rfl, -⟩ := List.cons.inj hlines
      exact hno _ List.mem_cons_self (by decide)
    | nil =>
      rcases hreplaced with hnil | ⟨l, hl, hhead, -⟩
      · rw [List.map_eq_nil_iff.1 hnil] at hlines
        exact hno _ (hlines ▸ List.mem_cons_self) (by decide)
      · obtain ⟨o, rfl, rfl⟩ := List.map_eq_singleton_iff.1 hl
        obtain ⟨rfl, rfl⟩ := List.cons.inj hlines
        rw [hwritten] at hafter
        cases new with
        | nil => exact absurd (congrArg List.length hafter) (by decide)
        | cons n new =>
          obtain ⟨rfl, -⟩ := List.cons.inj hafter
          exact hhead rfl

end Manifest

end WitCaller
