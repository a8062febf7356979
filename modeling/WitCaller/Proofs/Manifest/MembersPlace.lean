import WitCaller.Manifest.Edit
import WitCaller.Proofs.Manifest.Sections
import WitCaller.Proofs.Toml.Items

/-!
A manifest cut at its array of members, and what a scan of the array says of its parts.
-/

namespace WitCaller.Manifest
open Toml Text

/-- A manifest cut at the array of members: the lines above it, its line up to the opening bracket,
the array, and the text below its closing bracket. -/
structure MembersPlace where
  above : List Char
  lead : List Char
  array : ArrayText
  below : List Char
  deriving DecidableEq

/-- Lines cut at the first one that starts the array of members. -/
def membersAt? : List (List Char) → Option (List Char × List Char × List Char)
  | [] => none
  | l :: ls =>
    match membersLine? l with
    | some (lead, after) => some ([], lead, after ++ ls.flatten)
    | none => (membersAt? ls).map fun x => (l ++ x.1, x.2)

/-- The place of a new member. -/
def membersPlace? (text : List Char) : Option MembersPlace :=
  (cutAt? "workspace" (fullLines text)).bind fun c =>
    (membersAt? c.lines).bind fun x =>
      match scanArray 0 x.2.2 with
      | .ok a => some ⟨c.before.flatten ++ x.1, x.2.1, a, a.rest ++ c.after.flatten⟩
      | .error _ => none

variable {c : Char} {b g r s t lead after text text' : List Char} {ls : List (List Char)}
  {member : String} {p : MembersPlace} {a : ArrayText} {depth : Nat}

theorem cutMembers?_eq : cutMembers? ls = (membersAt? ls).map fun x => (x.1 ++ x.2.1, x.2.2) := by
  induction ls with
  | nil => rfl
  | cons l ls ih =>
    rw [cutMembers?, membersAt?]
    cases membersLine? l with
    | some x => rfl
    | none =>
      simp only [ih]
      cases membersAt? ls <;> simp

theorem membersPlace?_eq_some (h : membersPlace? text = some p) : ∃ c x a,
    cutAt? "workspace" (fullLines text) = some c ∧ membersAt? c.lines = some x ∧
      scanArray 0 x.2.2 = .ok a ∧ p = ⟨c.before.flatten ++ x.1, x.2.1, a, a.rest ++ c.after.flatten⟩ := by
  obtain ⟨c, hc, h⟩ := Option.bind_eq_some_iff.1 h
  obtain ⟨x, hx, h⟩ := Option.bind_eq_some_iff.1 h
  split at h
  · next a ha =>
    cases h
    exact ⟨c, x, a, hc, hx, ha, rfl⟩
  · cases h

/-- A member is put into the array at its place, and all other text stays. -/
theorem addMember_eq_ok (h : addMember member text = .ok text') : ∃ p, membersPlace? text = some p ∧
    text' = p.above ++ (p.lead ++ (p.array.insertItem member ++ p.below)) := by
  unfold addMember at h
  unfold membersPlace?
  cases hc : cutAt? "workspace" (fullLines text) with
  | none =>
    rw [hc] at h
    cases h
  | some c =>
    rw [hc] at h
    simp only [cutMembers?_eq] at h
    cases hx : membersAt? c.lines with
    | none =>
      rw [hx] at h
      cases h
    | some x =>
      rw [hx] at h
      simp only [Option.map_some] at h
      cases ha : scanArray 0 x.2.2 with
      | error fault =>
        rw [ha] at h
        cases h
      | ok a =>
        rw [ha] at h
        cases h
        refine ⟨_, by rw [Option.bind_some, hx, Option.bind_some, ha], ?_⟩
        simp

/-- The steps of a scan that finds the end of an array. -/
inductive Scanned : Nat → List Char → ArrayText → Prop where
  | close (r : List Char) : Scanned 0 (']' :: r) ⟨[], [], r⟩
  | comment {depth : Nat} {s : List Char} {a : ArrayText} (h : Scanned depth (s.dropWhile (· ≠ '\n')) a) :
      Scanned depth ('#' :: s) (a.space ('#' :: s.takeWhile (· ≠ '\n')))
  | string {depth : Nat} {q : Char} {s x t : List Char} {a : ArrayText} (hq : q = '\x22' ∨ q = '\x27') (hx : splitString q s = some (x, t))
      (h : Scanned depth t a) : Scanned depth (q :: s) (a.token x)
  | inner {depth : Nat} {s : List Char} {a : ArrayText} (h : Scanned (depth + 1) s a) : Scanned depth ('[' :: s) (a.token ['['])
  | outer {depth : Nat} {s : List Char} {a : ArrayText} (h : Scanned depth s a) : Scanned (depth + 1) (']' :: s) (a.token [']'])
  | blank {depth : Nat} {c : Char} {s : List Char} {a : ArrayText} (hc : isBlank c) (h : Scanned depth s a) : Scanned depth (c :: s) (a.space [c])
  | other {depth : Nat} {c : Char} {s : List Char} {a : ArrayText} (hhash : c ≠ '#') (hq : ¬ (c = '\x22' ∨ c = '\x27')) (hopen : c ≠ '[')
      (hclose : c ≠ ']') (hc : isBlank c = false) (h : Scanned depth s a) :
      Scanned depth (c :: s) (a.token [c])

theorem Scanned.map {depth depth' : Nat} {f : ArrayText → ArrayText}
    (h : (scanArray depth t).map f = .ok a) (ih : ∀ a, scanArray depth t = .ok a → Scanned depth t a)
    (hf : ∀ a, Scanned depth t a → Scanned depth' s (f a)) : Scanned depth' s a := by
  cases ha : scanArray depth t with
  | error =>
    rw [ha] at h
    cases h
  | ok a' =>
    rw [ha] at h
    cases h
    exact hf a' (ih a' ha)

theorem scanned_of_scanArray (h : scanArray depth s = .ok a) : Scanned depth s a := by
  fun_induction scanArray depth s generalizing a with
  | case1 => cases h
  | case2 depth r ih => exact .map h (fun _ => ih) fun _ => .comment
  | case3 => cases h
  | case4 depth c r _ hq x t hx ih => exact .map h (fun _ => ih) fun _ => .string hq hx
  | case5 depth r _ _ ih => exact .map h (fun _ => ih) fun _ => .inner
  | case6 =>
    cases h
    exact .close _
  | case7 _ _ _ _ depth ih => exact .map h (fun _ => ih) fun _ => .outer
  | case8 depth c r _ _ _ _ hc ih => exact .map h (fun _ => ih) fun _ => .blank hc
  | case9 depth c r hhash hq hopen hclose hc ih =>
    exact .map h (fun _ => ih) fun _ => .other hhash hq hopen hclose (by simpa using hc)

/-- Nothing is lost when the text of an array is cut. -/
theorem Scanned.text_eq (h : Scanned depth s a) : a.text = s := by
  induction h with
  | close => rfl
  | comment _ ih => rw [ArrayText.text_space, ih, List.cons_append, List.takeWhile_append_dropWhile]
  | string _ hx _ ih => rw [ArrayText.text_token, ih, splitString_eq_append hx]
  | inner _ ih => rw [ArrayText.text_token, ih, List.singleton_append]
  | outer _ ih => rw [ArrayText.text_token, ih, List.singleton_append]
  | blank _ _ ih => rw [ArrayText.text_space, ih, List.singleton_append]
  | other _ _ _ _ _ _ ih => rw [ArrayText.text_token, ih, List.singleton_append]

/-- Blanks and comments, as a scan sees them. -/
inductive Gap : List Char → Prop where
  | nil : Gap []
  | blank {c : Char} {g : List Char} (hc : isBlank c) (hg : Gap g) : Gap (c :: g)
  | comment {r g : List Char} (hr : '\n' ∉ r) (hg : Gap ('\n' :: g)) : Gap ('#' :: (r ++ '\n' :: g))

theorem gap_of_blanks (h : ∀ c ∈ g, isBlank c) : Gap g := by
  induction g with
  | nil => exact .nil
  | cons c g ih =>
    exact .blank (h c List.mem_cons_self) (ih fun d hd => h d (List.mem_cons_of_mem c hd))

/-- What stands before the closing bracket, if the scan has found no value, begins with the line feed
that ends the comment before it. -/
theorem Scanned.lineFeed (h : Scanned depth (s.dropWhile (· ≠ '\n')) a) (hv : a.values = []) :
    ∃ g, a.gap = '\n' :: g := by
  have htext := h.text_eq
  have hhead := List.head?_dropWhile_not (· ≠ '\n') s
  cases hd : s.dropWhile (· ≠ '\n') with
  | nil =>
    rw [hd] at h
    cases h
  | cons c r =>
    rw [hd] at htext hhead
    have hc : c = '\n' := by simpa using hhead
    rw [ArrayText.text, hv, List.nil_append, hc] at htext
    cases hg : a.gap with
    | nil =>
      rw [hg] at htext
      cases htext
    | cons d g =>
      rw [hg] at htext
      exact ⟨g, by rw [(List.cons.inj htext).1]⟩

theorem Scanned.gap (h : Scanned depth s a) : Gap a.gap := by
  have hspace {w : List Char} {a : ArrayText} (h : a.values = [] → Gap (w ++ a.gap)) (ih : Gap a.gap) :
      Gap (a.space w).gap := by
    unfold ArrayText.space
    split
    · next hv => exact h hv
    · exact ih
  induction h with
  | close => exact .nil
  | @comment depth s a h ih =>
    refine hspace (fun hv => ?_) ih
    obtain ⟨g, hg⟩ := h.lineFeed hv
    rw [hg] at ih ⊢
    refine .comment (fun hm => ?_) ih
    simpa using List.all_eq_true.1 List.all_takeWhile '\n' hm
  | string _ _ _ ih => exact ih
  | inner _ ih => exact ih
  | outer _ ih => exact ih
  | blank hc _ ih => exact hspace (fun _ => .blank hc ih) ih
  | other _ _ _ _ _ _ ih => exact ih

end WitCaller.Manifest
