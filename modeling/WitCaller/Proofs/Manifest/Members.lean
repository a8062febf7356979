import Mathlib
import WitCaller.Proofs.Manifest.MembersLine

/-!
When a new member is put where it belongs. If the text above its array is complete and the scan finds
the items of the array, then it is so if and only if that text ends in the section of the workspace.
-/

namespace WitCaller

namespace Text
variable {l s : List Char} {c : Char}

theorem mem_of_mem_lines (hl : l ∈ lines s) (hc : c ∈ l) : c ∈ s := by
  obtain ⟨l', hl', rfl⟩ := List.mem_map.1 hl
  rw [← flatten_fullLines s]
  exact List.mem_flatten.2 ⟨l', hl', (List.takeWhile_sublist _).mem hc⟩

end Text

namespace Manifest
open Toml Text Reading Assoc
variable {c : Char} {text : List Char} {ls : List (List Char)} {x : List Char × List Char × List Char}
  {p : MembersPlace} {a : ArrayText} {member : String} {sts : List Statement} {old new sub : Table}
  {vs : List Value}

/-- A line of an array of members up to its opening bracket. -/
def IsMembersLead (lead : List Char) : Prop := ∃ b₁ b₂ b₃, lead = assignment b₁ b₂ b₃ ∧
  (∀ c ∈ b₁, isBlank c) ∧ (∀ c ∈ b₂, isBlank c) ∧ ∀ c ∈ b₃, isBlank c

theorem membersAt?_lines (h : membersAt? ls = some x) : ∃ above after below,
    ls = above ++ (x.2.1 ++ '[' :: after) :: below ∧ x.1 = above.flatten ∧ IsMembersLead x.2.1 ∧
    x.2.2 = after ++ below.flatten := by
  induction ls generalizing x with
  | nil => cases h
  | cons l ls ih =>
    rw [membersAt?] at h
    split at h
    · next lead after hl =>
      cases h
      obtain ⟨hline, hlead⟩ := membersLine?_eq_some hl
      exact ⟨[], after, ls, by simp [hline], rfl, hlead, rfl⟩
    · obtain ⟨x', hx', rfl⟩ := Option.map_eq_some_iff.1 h
      obtain ⟨above, after, below, rfl, habove, hlead, hafter⟩ := ih hx'
      exact ⟨l :: above, after, below, rfl, by simp [habove], hlead, hafter⟩

theorem membersAt?_eq_some (h : membersAt? ls = some x) :
    ls.flatten = x.1 ++ (x.2.1 ++ '[' :: x.2.2) ∧ IsMembersLead x.2.1 := by
  obtain ⟨above, after, below, rfl, habove, hlead, hafter⟩ := membersAt?_lines h
  exact ⟨by simp [habove, hafter], hlead⟩

/-- The parts of a manifest that is cut at its array of members. -/
theorem membersPlace?_split (h : membersPlace? text = some p) :
    text = p.above ++ (p.lead ++ '[' :: (p.array.values ++ (p.array.gap ++ ']' :: p.below))) ∧
      Gap p.array.gap ∧ ∃ b₁ b₂ b₃, p.lead = assignment b₁ b₂ b₃ ∧ (∀ c ∈ b₁, isBlank c) ∧
        (∀ c ∈ b₂, isBlank c) ∧ ∀ c ∈ b₃, isBlank c := by
  obtain ⟨c, x, a, hcut, hx, hscan, rfl⟩ := membersPlace?_eq_some h
  obtain ⟨hlines, hlead⟩ := membersAt?_eq_some hx
  have hs := scanned_of_scanArray hscan
  refine ⟨?_, hs.gap, hlead⟩
  have htext := congrArg List.flatten (lines_of_cutAt? hcut)
  rw [flatten_fullLines, List.flatten_append, List.flatten_append, hlines, ← hs.text_eq] at htext
  rw [← htext]
  simp [ArrayText.text]

/-- The lines above the array are complete statements, and the scan has found the items of the array. -/
def MembersPlace.Complete (p : MembersPlace) (sts : List Statement) : Prop :=
  LineEnd p.above ∧ readStatements p.above = some sts ∧
    ∃ vs, outcome (readItems (p.array.values ++ [']'])) = some (vs, [])

/-- The statements of the manifest before and after the new member is put in. -/
theorem readStatements_addMember {sts₁ sts₂ : List Statement} (hplace : membersPlace? text = some p)
    (hcomplete : p.Complete sts) (hm : Plain member.toList) (h : readStatements text = some sts₁)
    (h' : readStatements (p.above ++ (p.lead ++ (p.array.insertItem member ++ p.below))) = some sts₂) :
    ∃ vs post, sts₁ = sts ++ .pair ⟨["members"], .array vs⟩ :: post ∧
      sts₂ = sts ++ .pair ⟨["members"], .array (vs ++ [.text member])⟩ :: post := by
  obtain ⟨hend, habove, vs, hvs⟩ := hcomplete
  obtain ⟨htext, hgap, b₁, b₂, b₃, hlead, h₁, h₂, h₃⟩ := membersPlace?_split hplace
  obtain ⟨g, t, hi⟩ := exists_inserted member hgap
  have hquoted : quoted member (t ++ [']']) ++ p.below = quoted member (t ++ ']' :: p.below) := by
    simp [quoted]
  have hnew : p.array.insertItem member ++ p.below = '[' :: (p.array.values ++
      (p.array.comma ++ (g ++ quoted member (t ++ ']' :: p.below)))) := by
    rw [hi.text, ← hquoted]
    simp
  rw [htext, readStatements_append habove (.inl hend), hlead] at h
  rw [readStatements_append habove (.inl hend), hlead, hnew] at h'
  obtain ⟨_, hrest, rfl⟩ := Option.map_eq_some_iff.1 h
  obtain ⟨_, hrest', rfl⟩ := Option.map_eq_some_iff.1 h'
  rcases readStatements_members h₁ h₂ h₃ with hnone | hread
  · rw [hnone] at hrest
    cases hrest
  rw [hread] at hrest hrest'
  obtain ⟨x, hx, hline⟩ := Option.bind_eq_some_iff.1 hrest
  obtain ⟨x', hx', hline'⟩ := Option.bind_eq_some_iff.1 hrest'
  obtain rfl := readItems_gap hgap hvs hx
  obtain rfl := hi.readItems hm hvs hx'
  obtain ⟨u, hu, hbelow⟩ := Option.bind_eq_some_iff.1 hline
  obtain ⟨u', hu', hbelow'⟩ := Option.bind_eq_some_iff.1 hline'
  cases hu.symm.trans hu'
  obtain ⟨post, hpost, rfl⟩ := Option.map_eq_some_iff.1 hbelow
  obtain ⟨post', hpost', rfl⟩ := Option.map_eq_some_iff.1 hbelow'
  cases hpost.symm.trans hpost'
  exact ⟨vs, post, rfl, rfl⟩

theorem updates_members_iff (hplace : membersPlace? text = some p) (hcomplete : p.Complete sts)
    (hm : Plain member.toList) (h : (readStatements text).bind build = some old)
    (h' : (readStatements (p.above ++ (p.lead ++ (p.array.insertItem member ++ p.below)))).bind build =
      some new)
    (hold : get? "workspace" old = some (.table sub)) (hvs : get? "members" sub = some (.array vs)) :
    Updates "workspace" "members" (.array (vs ++ [.text member])) old new ↔ EndsIn "workspace" sts := by
  obtain ⟨sts₁, hsts₁, hbuild₁⟩ := Option.bind_eq_some_iff.1 h
  obtain ⟨sts₂, hsts₂, hbuild₂⟩ := Option.bind_eq_some_iff.1 h'
  obtain ⟨vs', post, rfl, rfl⟩ := readStatements_addMember hplace hcomplete hm hsts₁ hsts₂
  constructor
  · exact endsIn_of_updates_array (by decide) hold hvs hbuild₁ hbuild₂
  · intro hends
    obtain ⟨hu, sub', hsub', hvs'⟩ := build_replace hends hbuild₁ hbuild₂
    cases hold.symm.trans hsub'
    cases hvs.symm.trans hvs'
    exact hu

theorem mem_indent (hc : c ∈ a.indent) : c ∈ a.inside ∨ c = ' ' := by
  unfold ArrayText.indent at hc
  split at hc
  · next line hline =>
    have hmem := List.mem_of_mem_drop (List.mem_of_find?_eq_some hline)
    exact .inl (mem_of_mem_lines hmem ((List.takeWhile_sublist _).mem hc))
  · exact .inr (by simpa using hc)

/-- The characters of an array with one more member are those of the array and the member, and those that
set them apart. -/
theorem forall_mem_insertItem {P : Char → Prop} (ha : ∀ c ∈ a.inside, P c) (hm : ∀ c ∈ member.toList, P c)
    (hmarks : ∀ c ∈ [',', ' ', '\n', '\x22', ']'], P c) : ∀ c ∈ a.insertItem member, P c := by
  obtain ⟨hcomma, hspace, hfeed, hquote, hclose, -⟩ : P ',' ∧ P ' ' ∧ P '\n' ∧ P '\x22' ∧ P ']' ∧ True := by
    simpa using hmarks
  obtain ⟨hopen, hvalues, hgap⟩ : P '[' ∧ (∀ c ∈ a.values, P c) ∧ ∀ c ∈ a.gap, P c := by
    simpa [ArrayText.inside, or_imp, forall_and] using ha
  have hcommas : ∀ c ∈ a.comma, P c := by
    rcases comma_cases a with hc | hc <;> simp [hc, hcomma]
  have hindent : ∀ c ∈ a.indent, P c := fun c hc => (mem_indent hc).elim (ha c) fun he => he ▸ hspace
  have hfront : ∀ c ∈ a.gap.takeWhile (· ≠ '\n'), P c := fun c hc => hgap c ((List.takeWhile_sublist _).mem hc)
  have hback : ∀ c ∈ (a.gap.dropWhile (· ≠ '\n')).drop 1, P c := fun c hc =>
    hgap c ((List.dropWhile_sublist _).mem (List.mem_of_mem_drop hc))
  have hend : ∀ c ∈ ",\n".toList, P c := by
    have he : ",\n".toList = [',', '\n'] := by decide
    simp [he, hcomma, hfeed]
  have hnil : ∀ c ∈ ([] : List Char), P c := List.forall_mem_nil _
  unfold ArrayText.insertItem
  simp only
  split <;> split <;> simp only [List.forall_mem_append, List.forall_mem_cons] <;> and_intros <;> assumption

theorem not_mem_insertItem (ha : '\r' ∉ a.inside) (hm : '\r' ∉ member.toList) :
    '\r' ∉ a.insertItem member := fun h =>
  forall_mem_insertItem (P := (· ≠ '\r')) (fun _ hc he => ha (he ▸ hc)) (fun _ hc he => hm (he ▸ hc))
    (by simp) _ h rfl

/-- What a run has done that added a member that needs no escapes: the texts before and after it, read as
statements. -/
theorem registerMember_reads {base : Path} {s s' : Session} (hm : Plain member.toList)
    (hk : s.ReportsAside (fileIn base)) (h : registerMember base member s = (.ok true, s')) :
    ∃ text old new sub vs p, s.textAt (fileIn base) = .ok text ∧ decode text = some old ∧
      Holds s' (fileIn base) new ∧ get? "workspace" old = some (.table sub) ∧
      get? "members" sub = some (.array vs) ∧ .text member ∉ vs ∧ membersPlace? text = some p ∧
      (readStatements text).bind build = some old ∧
      (readStatements (p.above ++ (p.lead ++ (p.array.insertItem member ++ p.below)))).bind build =
        some new := by
  obtain ⟨text, text', old, new, sub, vs, htext, hadd, hwritten, hold, hnew, hsub, hvs, hmissing⟩ :=
    registerMember_returns hk h
  obtain ⟨p, hplace, rfl⟩ := addMember_eq_ok hadd
  have hreturn : '\r' ∉ text := Session.not_mem_of_textAt htext
  have hreturn' : '\r' ∉ p.above ++ (p.lead ++ (p.array.insertItem member ++ p.below)) := by
    rw [(membersPlace?_split hplace).1] at hreturn
    simp only [List.mem_append, List.mem_cons, not_or] at hreturn ⊢
    obtain ⟨habove, hlead, -, hvalues, hgap, -, hbelow⟩ := hreturn
    refine ⟨habove, hlead, not_mem_insertItem ?_ (not_mem_plain hm), hbelow⟩
    simp [ArrayText.inside, hvalues, hgap]
  rw [unifyLineEnds_eq_self hreturn'] at hwritten
  exact ⟨text, old, new, sub, vs, p, htext, hold, ⟨_, hwritten, hnew⟩, hsub, hvs, hmissing, hplace,
    decode_eq hreturn ▸ hold, decode_eq hreturn' ▸ hnew⟩

/-- A run that adds a member appends it to the members of the workspace in the document, and nothing
else changes, if and only if its array is in the section of the workspace: provided that the lines
above the array are complete statements, and that the scan has found the items of the array. -/
theorem registerMember_updates_iff {base : Path} {s s' : Session} (hm : ∀ c ∈ member.toList, isBare c)
    (hk : s.ReportsAside (fileIn base)) (h : registerMember base member s = (.ok true, s')) :
    ∃ text old new sub vs p, s.textAt (fileIn base) = .ok text ∧ decode text = some old ∧
      Holds s' (fileIn base) new ∧ get? "workspace" old = some (.table sub) ∧
      get? "members" sub = some (.array vs) ∧ membersPlace? text = some p ∧
      ∀ sts, p.Complete sts → (Updates "workspace" "members" (.array (vs ++ [.text member])) old new ↔
        EndsIn "workspace" sts) := by
  obtain ⟨text, old, new, sub, vs, p, htext, hold, hnew, hsub, hvs, -, hplace, hread, hread'⟩ :=
    registerMember_reads (plain_of_bare hm) hk h
  refine ⟨text, old, new, sub, vs, p, htext, hold, hnew, hsub, hvs, hplace, fun sts hcomplete => ?_⟩
  exact updates_members_iff hplace hcomplete (plain_of_bare hm) hread hread' hsub hvs

/-- A bracket in a comment does not mislead the scan, and a line that hides the header of another
table does: there the member goes to that table. -/
theorem registerMember_updates_iff_hidden :
    let here : Path := ⟨.relative, []⟩
    let commented := "[workspace]\nmembers = [\n    \"app\", # ] \"\n]\n"
    let hidden := "[workspace]\n\"members\" = [\"app\"]\n[\"x]y\"]\nmembers = [\"b\"]\n"
    (∃ s' old new vs, registerMember here "calls" (withManifest commented) = (.ok true, s') ∧
      Holds (withManifest commented) (fileIn here) old ∧ Holds s' (fileIn here) new ∧
      Updates "workspace" "members" (.array (vs ++ [.text "calls"])) old new) ∧
    ∃ s' old new sub vs, registerMember here "calls" (withManifest hidden) = (.ok true, s') ∧
      Holds (withManifest hidden) (fileIn here) old ∧ Holds s' (fileIn here) new ∧
      get? "workspace" old = some (.table sub) ∧ get? "members" sub = some (.array vs) ∧
      ¬ Updates "workspace" "members" (.array (vs ++ [.text "calls"])) old new := by
  intro here commented hidden
  have returns (manifest : String)
      (h : (registerMember here "calls" (withManifest manifest)).1.toOption = some true) :
      ∃ s', registerMember here "calls" (withManifest manifest) = (.ok true, s') :=
    ⟨_, Steps.apply_of_toOption h⟩
  have hname : ∀ c ∈ "calls".toList, isBare c := List.all_eq_true.1 (by decide)
  have haside (manifest : String) : (withManifest manifest).ReportsAside (fileIn here) := by
    rintro k ⟨⟩
  constructor
  · obtain ⟨s', h⟩ := returns commented (by decide +kernel)
    obtain ⟨text, old, new, sub, vs, p, htext, hold, hnew, -, -, hplace, hiff⟩ :=
      registerMember_updates_iff hname (haside _) h
    have hread : ((withManifest commented).textAt (fileIn here)).toOption = some commented.toList := by
      decide +kernel
    rw [htext] at hread
    cases hread
    have hcut : membersPlace? commented.toList = some ⟨"[workspace]\n".toList, "members = ".toList,
        ⟨"\n    \"app\",".toList, " # ] \"\n".toList, "\n".toList⟩, "\n".toList⟩ := by decide +kernel
    cases hplace.symm.trans hcut
    have hsts : readStatements "[workspace]\n".toList = some [.table ["workspace"]] := by cbv
    have hitems : outcome (readItems ("\n    ".toList ++ quoted "app" [',', ']'])) =
        some ([.text "app"], []) := by
      rw [readItems_eq_rest, restItems_item rfl (by decide), ← quoted,
        readItem_quoted (by decide) (by decide), restItems_comma rfl, readItems_eq_rest, restItems_eq_end rfl]
      rfl
    exact ⟨s', old, new, vs, h, ⟨_, htext, hold⟩, hnew,
      (hiff _ ⟨.inr rfl, hsts, _, hitems⟩).2 ⟨[], [], rfl⟩⟩
  · obtain ⟨s', h⟩ := returns hidden (by decide +kernel)
    obtain ⟨text, old, new, sub, vs, p, htext, hold, hnew, hsub, hvs, hplace, hiff⟩ :=
      registerMember_updates_iff hname (haside _) h
    have hread : ((withManifest hidden).textAt (fileIn here)).toOption = some hidden.toList := by
      decide +kernel
    rw [htext] at hread
    cases hread
    have hcut : membersPlace? hidden.toList = some
        ⟨"[workspace]\n\"members\" = [\"app\"]\n[\"x]y\"]\n".toList, "members = ".toList,
          ⟨"\"b\"".toList, [], "\n".toList⟩, "\n".toList⟩ := by decide +kernel
    cases hplace.symm.trans hcut
    have hsts : readStatements "[workspace]\n\"members\" = [\"app\"]\n[\"x]y\"]\n".toList =
        some [.table ["workspace"], .pair ⟨["members"], .array [.text "app"]⟩, .table ["x]y"]] := by cbv
    have hitems : outcome (readItems (quoted "b" [']'])) = some ([.text "b"], []) := by
      rw [readItems_eq_rest, restItems_item rfl (by decide), ← quoted,
        readItem_quoted (by decide) (by decide), restItems_eq_end rfl]
      rfl
    refine ⟨s', old, new, sub, vs, h, ⟨_, htext, hold⟩, hnew, hsub, hvs, fun hu => ?_⟩
    have hends : EndsIn "workspace" ([_, _] ++ [.table ["x]y"]]) := (hiff _ ⟨.inr rfl, hsts, _, hitems⟩).1 hu
    exact not_endsIn_concat (by decide) hends

end Manifest

end WitCaller
