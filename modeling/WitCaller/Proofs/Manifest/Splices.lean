import Mathlib
import WitCaller.Proofs.Manifest.Members
import WitCaller.Proofs.Manifest.Registering

/-!
What a registration puts into the text of a manifest: the entry of a dependency at one place, or an
array of members that has one more item. All text before and after it stays.
-/

namespace WitCaller.Manifest
open Toml Text Session
variable {m n : ℕ} {s t u v g text text' : List Char} {member : String} {a : ArrayText}

/-- That the second text is the first one without `n` of its commas and without some of its blanks. -/
inductive Thinned : ℕ → List Char → List Char → Prop where
  | nil : Thinned 0 [] []
  | keep {n : ℕ} {s t : List Char} (c : Char) (h : Thinned n s t) : Thinned n (c :: s) (c :: t)
  | blank {n : ℕ} {s t : List Char} {c : Char} (hc : isBlank c) (h : Thinned n s t) : Thinned n (c :: s) t
  | comma {n : ℕ} {s t : List Char} (h : Thinned n s t) : Thinned (n + 1) (',' :: s) t

namespace Thinned

theorem refl : ∀ s : List Char, Thinned 0 s s
  | [] => .nil
  | c :: s => .keep c (refl s)

theorem append (h : Thinned m s t) (h' : Thinned n u v) : Thinned (m + n) (s ++ u) (t ++ v) := by
  induction h with
  | nil => simpa using h'
  | keep c _ ih => exact .keep c ih
  | blank hc _ ih => exact .blank hc ih
  | @comma m s t _ ih =>
    rw [Nat.add_right_comm]
    exact .comma ih

theorem of_blanks (h : ∀ c ∈ s, isBlank c) : Thinned 0 s [] := by
  induction s with
  | nil => exact .nil
  | cons c s ih =>
    obtain ⟨hc, hs⟩ := List.forall_mem_cons.1 h
    exact .blank hc (ih hs)

/-- Commas that are left out are missing. -/
theorem count_comma (h : Thinned n s t) : s.count ',' = t.count ',' + n := by
  induction h with
  | nil => rfl
  | keep c _ ih => rw [List.count_cons, List.count_cons, ih, Nat.add_right_comm]
  | @blank n s t c hc _ ih =>
    have hne : ¬ (c == ',') = true := fun he => by
      rw [eq_of_beq he] at hc
      cases hc
    rw [List.count_cons, if_neg hne, ih, Nat.add_zero]
  | comma _ ih => rw [List.count_cons_self, ih, Nat.add_assoc]

end Thinned

/-- That a text is another one with a quoted item, blanks and at most so many commas put in. -/
def Gains (member : String) (most : ℕ) (text text' : List Char) : Prop :=
  ∃ l r n, n ≤ most ∧ text' = l ++ quoted member r ∧ Thinned n (l ++ r) text

theorem count_comma_quoted (h : ',' ∉ member.toList) : (quoted member t).count ',' = t.count ',' := by
  rw [quoted, List.count_cons_of_ne (by decide), List.count_append, List.count_cons_of_ne (by decide),
    List.count_eq_zero_of_not_mem h, Nat.zero_add]

namespace ArrayText

/-- The text of an array. -/
def whole (a : ArrayText) : List Char := a.inside ++ [']']

/-- The commas that a new item needs: one after the last value if it has none, and one of its own in an
array of several lines. -/
def commas (a : ArrayText) : ℕ := a.comma.length + if '\n' ∈ a.inside then 1 else 0

end ArrayText

theorem Gap.isBlank_of_notMem (hg : Gap g) (h : '\n' ∉ g) : ∀ c ∈ g, isBlank c := by
  induction hg with
  | nil => exact List.forall_mem_nil _
  | blank hc _ ih =>
    rw [List.mem_cons, not_or] at h
    exact List.forall_mem_cons.2 ⟨hc, ih h.2⟩
  | comment => simp at h

theorem thinned_comma (a : ArrayText) : Thinned a.comma.length a.comma [] := by
  rcases comma_cases a with hc | hc <;> rw [hc]
  · exact .nil
  · exact .comma .nil

/-- A new item goes into an array that it replaces, or with no more than the commas that it needs. -/
theorem insertItem_gains (member : String) (hg : Gap a.gap) :
    ((∀ c ∈ a.values ++ a.gap, isBlank c) ∧ a.insertItem member = '[' :: quoted member [']']) ∨
      Gains member a.commas a.whole (a.insertItem member) := by
  obtain ⟨hone, hv, htext⟩ | ⟨front, back, w, z, hgap, hfront, htext, hlayout⟩ := insertItem_cases member a
  · refine .inl ⟨?_, htext⟩
    rw [hv, List.nil_append]
    refine hg.isBlank_of_notMem fun hmem => hone ?_
    exact List.mem_append_right _ hmem
  have hindent := isBlank_of_indent a
  have hadded : (∀ c ∈ w, isBlank c) ∧ Thinned (if '\n' ∈ a.inside then 1 else 0) z [] := by
    obtain ⟨hone, -, rfl, rfl⟩ | ⟨hmulti, rfl, ⟨-, rfl⟩ | ⟨-, rfl⟩⟩ := hlayout
    · rw [if_neg hone]
      exact ⟨List.all_eq_true.1 (by decide), .nil⟩
    · rw [if_pos hmulti]
      exact ⟨List.forall_mem_cons.2 ⟨by decide, hindent⟩, .comma .nil⟩
    · rw [if_pos hmulti]
      exact ⟨List.forall_mem_cons.2 ⟨by decide, hindent⟩, .comma (.blank (by decide) .nil)⟩
  obtain ⟨hw, hz⟩ := hadded
  refine .inr ⟨'[' :: (a.values ++ (a.comma ++ (front ++ w))), z ++ (back ++ [']']), a.commas, le_rfl, ?_,
    ?_⟩
  · simp [htext]
  · -- The parts of the array stay as they are, and between them stands what is left out.
    have hthin := (((Thinned.refl ('[' :: a.values)).append (thinned_comma a)).append
      ((Thinned.refl front).append (.of_blanks hw))).append (hz.append (.refl (back ++ [']'])))
    have hwhole : a.whole = '[' :: a.values ++ [] ++ (front ++ []) ++ ([] ++ (back ++ [']'])) := by
      simp [ArrayText.whole, ArrayText.inside, hgap]
    rw [hwhole]
    simpa [ArrayText.commas] using hthin

/-- An array of members in a manifest: it starts on a line of the first section of the workspace, after the
key and the equals sign, and a scan finds its end. -/
structure MembersArray (text front : List Char) (a : ArrayText) (back : List Char) : Prop where
  text_eq : text = front ++ (a.whole ++ back)
  line : ∃ c above lead after below, cutAt? "workspace" (fullLines text) = some c ∧
    c.lines = above ++ (lead ++ '[' :: after) :: below ∧ IsMembersLead lead ∧
    front = (c.before ++ above).flatten ++ lead
  scanned : Scanned 0 a.text a
  rest : a.rest <+: back

theorem membersArray_of_membersPlace? {p : MembersPlace} (h : membersPlace? text = some p) :
    MembersArray text (p.above ++ p.lead) p.array p.below := by
  have htext := (membersPlace?_split h).1
  obtain ⟨c, x, a, hcut, hx, hscan, rfl⟩ := membersPlace?_eq_some h
  obtain ⟨above, after, below, hlines, habove, hlead, hafter⟩ := membersAt?_lines hx
  have hs := scanned_of_scanArray hscan
  refine ⟨?_, ⟨c, above, x.2.1, after, below, hcut, hlines, hlead, ?_⟩, hs.text_eq.symm ▸ hs, ?_⟩
  · rw [htext]
    simp [ArrayText.whole, ArrayText.inside]
  · simp [habove]
  · exact List.prefix_append _ _

/-- That a text is cut at one place and an entry put in there, perhaps after a line feed. -/
def Inserts (entry text text' : List Char) : Prop :=
  ∃ k feed, (feed = [] ∨ feed = ['\n']) ∧ text' = text.take k ++ ((feed ++ entry) ++ text.drop k)

theorem inserts_endLine {entry : List Char} (h : text = u ++ v) :
    Inserts entry text (endLine u ++ (entry ++ v)) := by
  subst h
  unfold endLine
  split
  · exact ⟨u.length, [], .inl rfl, by simp⟩
  · exact ⟨u.length, ['\n'], .inr rfl, by simp⟩

/-- A dependency is put in as a line or as a table. -/
theorem addDependency_inserts (name path : String) (text : List Char) :
    Inserts (dependencyLine name path) text (addDependency name path text) ∨
      Inserts (dependencyTable name path) text (addDependency name path text) := by
  cases hcut : cutAt? "dependencies" (fullLines text) with
  | some c =>
    rw [addDependency_eq hcut]
    exact .inl (inserts_endLine (above_append_below hcut).symm)
  | none =>
    have htable : Inserts (dependencyTable name path) text
        (endLine text ++ (dependencyTable name path ++ [])) := inserts_endLine (List.append_nil text).symm
    rw [List.append_nil] at htable
    rw [addDependency_eq_of_none hcut]
    exact .inr htable

namespace Call
variable {call : Call} {s s' : Session}

/-- What a registration does to a text: a dependency is put in at one place, as a line or as a table, and a
member changes an array of members in an allowed way. -/
def Splices (allowed : String → ArrayText → List Char → Prop) (text text' : List Char) : Call → Prop
  | .member _ crate => ∃ front a back array, MembersArray text front a back ∧
      text' = front ++ (array ++ back) ∧ allowed crate a array
  | .dependency _ name target =>
      Inserts (dependencyLine name target) text text' ∨ Inserts (dependencyTable name target) text text'

/-- What a new member does to an array: one without values is replaced, and else an item with its commas
and some blanks is put in. -/
def Fills (member : String) (a : ArrayText) (array : List Char) : Prop :=
  (∀ c ∈ a.values ++ a.gap, isBlank c) ∧ array = '[' :: quoted member [']'] ∨
    Gains member a.commas a.whole array

theorem splices_of_edit (h : call.edit text = .ok text') : call.Splices Fills text text' := by
  cases call with
  | member base crate =>
    obtain ⟨p, hplace, rfl⟩ := addMember_eq_ok h
    exact ⟨_, p.array, p.below, _, membersArray_of_membersPlace? hplace, by simp,
      insertItem_gains crate (membersPlace?_split hplace).2.1⟩
  | dependency project name target =>
    cases h
    exact addDependency_inserts name target text

/-- The one manifest of a small run. -/
theorem read_withManifest {manifest : String} {named : Place} {bytes : Bytes} {raw : List Char}
    (hm : call.manifest = fileIn ⟨.relative, []⟩)
    (hl : (withManifest manifest).tree.locate ["w"] call.manifest = .ok named)
    (hf : (withManifest manifest).tree.get? named = some (.file bytes)) (hraw : Utf8.decode bytes = .ok raw) :
    named = ["w", "Cargo.toml"] ∧ raw = manifest.toList := by
  have hplace : (withManifest manifest).tree.locate ["w"] (fileIn ⟨.relative, []⟩) =
      .ok ["w", "Cargo.toml"] := rfl
  rw [hm] at hl
  cases hplace.symm.trans hl
  cases (show some (Content.file (Utf8.encode manifest.toList)) = some (.file bytes) from hf)
  cases (Utf8.decode_encode manifest.toList).symm.trans hraw
  exact ⟨rfl, rfl⟩

end Call

end WitCaller.Manifest
