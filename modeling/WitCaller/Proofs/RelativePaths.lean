import Mathlib
import WitCaller.Proofs.LineShapes
import WitCaller.Proofs.Places

/-!
The way from one directory to another. Read from its text, the relative path leads from the directory
to the target; and no shorter text says a way from there to the same place.
-/

namespace WitCaller

namespace Text
variable {sep : Char} {s part : List Char}

theorem not_mem_of_mem_splitOn (hp : part ∈ splitOn sep s) : sep ∉ part := by
  induction s generalizing part with
  | nil =>
    obtain rfl := List.mem_singleton.1 hp
    exact List.not_mem_nil
  | cons c s ih =>
    rw [splitOn] at hp
    split at hp
    · rcases List.mem_cons.1 hp with rfl | hp
      · exact List.not_mem_nil
      · exact ih hp
    · next hc =>
      obtain ⟨q, qs, hqs⟩ := List.exists_cons_of_ne_nil (splitOn_ne_nil sep s)
      rw [hqs] at hp ih
      rcases List.mem_cons.1 hp with rfl | hp
      · exact List.not_mem_cons_of_ne_of_not_mem (Ne.symm hc) (ih List.mem_cons_self)
      · exact ih (List.mem_cons_of_mem _ hp)

/-- Every part but the last takes up one more place, for the separator. -/
theorem sum_length_splitOn (sep : Char) (s : List Char) :
    ((splitOn sep s).map (·.length + 1)).sum = s.length + 1 := by
  induction s with
  | nil => rfl
  | cons c s ih =>
    rw [splitOn]
    split
    · rw [List.map_cons, List.sum_cons, ih, List.length_nil, List.length_cons]
      omega
    · obtain ⟨q, qs, hqs⟩ := List.exists_cons_of_ne_nil (splitOn_ne_nil sep s)
      rw [hqs, List.map_cons, List.sum_cons] at ih
      rw [hqs, List.map_cons, List.sum_cons, List.length_cons, List.length_cons]
      omega

end Text

namespace Path
open Text
variable {cwd names parts done ts ss : List String} {name x : String} {s a b : List Char}
  {p target start : Path} {m : Nat}

/-- What stands between two slashes and says something. -/
def IsName (name : String) : Prop := name ≠ "" ∧ name ≠ "." ∧ '/' ∉ name.toList

/-- That the parts of a path are names, as they are in a path that is read from a text. -/
def Named (p : Path) : Prop := ∀ name ∈ p.parts, IsName name

theorem isName_of_mem_partsOf (h : name ∈ partsOf s) : IsName name := by
  obtain ⟨part, hpart, rfl⟩ := List.mem_map.1 h
  obtain ⟨hmem, hsays⟩ := List.mem_filter.1 hpart
  obtain ⟨hempty, hpoint⟩ := of_decide_eq_true hsays
  refine ⟨fun he => hempty ?_, fun he => hpoint ?_, ?_⟩
  · simpa using congrArg String.toList he
  · simpa using congrArg String.toList he
  · rw [String.toList_ofList]
    exact not_mem_of_mem_splitOn hmem

theorem named_ofString (x : String) : (ofString x).Named := fun _ => isName_of_mem_partsOf

theorem Named.div (hp : p.Named) (x : String) : (p / x).Named := by
  intro name hname
  change name ∈ (append p (ofString x)).parts at hname
  unfold append at hname
  split at hname
  · exact (List.mem_append.1 hname).elim (hp name) (named_ofString x name)
  · exact named_ofString x name hname

theorem foldl_advance_subset : parts.foldl advance done ⊆ done ++ parts := by
  induction parts generalizing done with
  | nil => exact List.subset_append_left done []
  | cons name rest ih =>
    intro other hother
    rcases List.mem_append.1 (ih hother) with hdone | hrest
    · unfold advance at hdone
      split at hdone
      · exact List.mem_append_left _ (List.dropLast_subset done hdone)
      · simp only [List.mem_append, List.mem_cons] at hdone ⊢
        tauto
    · exact List.mem_append_right _ (List.mem_cons_of_mem _ hrest)

theorem mem_of_mem_normalize (h : name ∈ normalize parts) : name ∈ parts :=
  foldl_advance_subset h

theorem Named.fullParts (hcwd : ∀ name ∈ cwd, IsName name) (hp : p.Named) :
    ∀ name ∈ p.fullParts cwd, IsName name := by
  intro name hname
  unfold Path.fullParts at hname
  split at hname
  · exact (List.mem_append.1 hname).elim (hcwd name) (hp name)
  · exact hp name hname

theorem Named.resolve (hcwd : ∀ name ∈ cwd, IsName name) (hp : p.Named) : (p.resolve cwd).Named :=
  fun name hname => hp.fullParts hcwd name (mem_of_mem_normalize hname)

theorem partsOf_append_slash (a b : List Char) : partsOf (a ++ '/' :: b) = partsOf a ++ partsOf b := by
  simp only [partsOf, splitOn_append_cons, List.filter_append, List.map_append]

theorem partsOf_name (hn : IsName name) : partsOf name.toList = [name] := by
  obtain ⟨hempty, hpoint, hslash⟩ := hn
  have hsays : name.toList ≠ [] ∧ name.toList ≠ ['.'] :=
    ⟨fun he => hempty (String.toList_inj.1 he), fun he => hpoint (String.toList_inj.1 he)⟩
  rw [partsOf, splitOn_of_notMem hslash, List.filter_cons, if_pos (decide_eq_true hsays),
    List.filter_nil, List.map_singleton, String.ofList_toList]

/-- Names with slashes between them are read as these names. -/
theorem partsOf_join (h : ∀ name ∈ names, IsName name) : partsOf (join "/" names).toList = names := by
  induction names using join.induct with
  | case1 => rfl
  | case2 name => exact partsOf_name (h name List.mem_cons_self)
  | case3 name other rest ih =>
    obtain ⟨hname, hrest⟩ := List.forall_mem_cons.1 h
    have htext : (join "/" (name :: other :: rest)).toList =
        name.toList ++ '/' :: (join "/" (other :: rest)).toList := by
      simp [join]
    rw [htext, partsOf_append_slash, partsOf_name hname, ih hrest]
    rfl

theorem anchorOf_eq_relative_iff : anchorOf s = .relative ↔ s.head? ≠ some '/' := by
  unfold anchorOf
  cases s with
  | nil => simp
  | cons c s =>
    rw [List.takeWhile_cons]
    by_cases hc : c = '/'
    · simp only [hc, decide_true, if_true, List.length_cons, List.head?_cons, ne_eq, not_true, iff_false]
      split
      · omega
      · exact nofun
      · exact nofun
    · simp [hc]

/-- The text of a relative path: its parts with slashes between them. -/
theorem toString_relative (hne : parts ≠ []) : toString (⟨.relative, parts⟩ : Path) = join "/" parts := by
  change Path.toString _ = _
  rw [Path.toString, if_neg fun h => hne h.2]
  exact String.empty_append

theorem head?_join (hn : name ≠ "") : (join "/" (name :: names)).toList.head? = name.toList.head? := by
  have hne : name.toList ≠ [] := fun he => hn (String.toList_inj.1 he)
  cases names with
  | nil => rfl
  | cons other rest =>
    rw [join, String.append_assoc, String.toList_append, List.head?_append_of_ne_nil _ hne]

/-- A relative path is read back from its text. -/
theorem ofString_toString (h : ∀ name ∈ parts, IsName name) :
    ofString (toString (⟨.relative, parts⟩ : Path)) = ⟨.relative, parts⟩ := by
  cases parts with
  | nil => rfl
  | cons name rest =>
    obtain ⟨hempty, -, hslash⟩ := h name List.mem_cons_self
    have hhead : (join "/" (name :: rest)).toList.head? ≠ some '/' := by
      rw [head?_join hempty]
      exact fun he => hslash (List.mem_of_mem_head? he)
    rw [toString_relative (List.cons_ne_nil name rest), ofString, partsOf_join h,
      anchorOf_eq_relative_iff.2 hhead]

theorem foldl_advance_back (rest : List String) :
    (List.replicate rest.length "..").foldl advance (done ++ rest) = done := by
  induction rest using List.reverseRecOn with
  | nil => exact List.append_nil done
  | append_singleton rest name ih =>
    rw [List.length_append, List.length_singleton, List.replicate_succ, List.foldl_cons, advance,
      if_pos rfl, ← List.append_assoc, List.dropLast_concat, ih]

/-- The steps from one place to another lead there. -/
theorem foldl_advance_stepsTo (h : ".." ∉ ts) :
    (stepsTo ts ss).foldl advance (done ++ ss) = done ++ ts := by
  induction ts, ss using stepsTo.induct generalizing done with
  | case1 ts t ss ih =>
    rw [stepsTo, if_pos rfl, List.append_cons, ih fun hm => h (List.mem_cons_of_mem t hm),
      ← List.append_cons]
  | case2 t ts s ss hne =>
    rw [stepsTo, if_neg hne, List.foldl_append, ← List.length_cons (a := s), foldl_advance_back,
      foldl_advance_of_plain h]
  | case3 ts ss hne =>
    rw [stepsTo.eq_2 ts ss hne, List.foldl_append, foldl_advance_back, foldl_advance_of_plain h]

theorem mem_of_mem_stepsTo (h : name ∈ stepsTo ts ss) : name = ".." ∨ name ∈ ts := by
  induction ts, ss using stepsTo.induct with
  | case1 ts t ss ih =>
    rw [stepsTo, if_pos rfl] at h
    exact (ih h).imp_right (List.mem_cons_of_mem t)
  | case2 t ts s ss hne =>
    rw [stepsTo, if_neg hne] at h
    exact (List.mem_append.1 h).imp_left List.eq_of_mem_replicate
  | case3 ts ss hne =>
    rw [stepsTo.eq_2 ts ss hne] at h
    exact (List.mem_append.1 h).imp_left List.eq_of_mem_replicate

theorem isName_parent : IsName ".." := by
  refine ⟨?_, ?_, ?_⟩ <;> decide

theorem named_relativeTo (hcwd : ∀ name ∈ cwd, IsName name) (ht : target.Named) :
    (relativeTo cwd target start).Named := by
  intro name hname
  rcases mem_of_mem_stepsTo hname with rfl | hname
  · exact isName_parent
  · exact ht.fullParts hcwd name (mem_of_mem_normalize hname)

/-- Where a text that says a relative path leads from a directory. -/
theorem resolve_div (hx : (ofString x).anchor = .relative) : (start / x).resolve cwd =
    absolute ((partsOf x.toList).foldl advance (normalize (start.fullParts cwd))) := by
  have hdiv : start / x = ⟨start.anchor, start.parts ++ partsOf x.toList⟩ := if_pos hx
  have hfull : (start / x).fullParts cwd = start.fullParts cwd ++ partsOf x.toList := by
    rw [hdiv, Path.fullParts, Path.fullParts]
    split
    · exact (List.append_assoc ..).symm
    · rfl
  rw [resolve, hfull, normalize_eq_foldl, List.foldl_append, ← normalize_eq_foldl]

/-- The text of the relative path leads from the directory to the target. -/
theorem resolve_div_relativeTo (hcwd : ∀ name ∈ cwd, IsName name) (ht : target.Named) :
    (start / toString (relativeTo cwd target start)).resolve cwd = target.resolve cwd := by
  have hread : ofString (toString (relativeTo cwd target start)) = relativeTo cwd target start :=
    ofString_toString (named_relativeTo hcwd ht)
  rw [resolve_div (by rw [hread]; rfl)]
  change absolute ((ofString _).parts.foldl advance ([] ++ _)) = absolute ([] ++ _)
  rw [hread]
  exact congrArg absolute (foldl_advance_stepsTo plain_normalize)

/-- The length of names as they are written, each with a slash after it. -/
def written (names : List String) : Nat := (names.map (·.length + 1)).sum

@[simp] theorem written_nil : written [] = 0 := rfl

@[simp] theorem written_cons : written (name :: names) = name.length + 1 + written names := List.sum_cons

@[simp] theorem written_append : written (names ++ parts) = written names + written parts := by
  simp [written]

@[simp] theorem written_parents (n : Nat) : written (List.replicate n "..") = 3 * n := by
  have hlength : "..".length + 1 = 3 := by decide
  rw [written, List.map_replicate, List.sum_replicate_nat, hlength, Nat.mul_comm]

theorem written_partsOf_le (s : List Char) : written (partsOf s) ≤ s.length + 1 := by
  have hparts : written (partsOf s) =
      (((splitOn '/' s).filter fun p => p ≠ [] ∧ p ≠ ['.']).map (·.length + 1)).sum := by
    simp [written, partsOf, Function.comp_def]
  rw [hparts, ← sum_length_splitOn '/' s]
  exact (List.filter_sublist.map _).sum_le_sum fun _ _ => Nat.zero_le _

theorem length_join (hne : names ≠ []) : (join "/" names).length + 1 = written names := by
  induction names using join.induct with
  | case1 => exact absurd rfl hne
  | case2 name => rfl
  | case3 name other rest ih =>
    rw [join, written_cons, ← ih (List.cons_ne_nil other rest), String.length_append,
      String.length_append]
    rfl

/-- Whatever steps lead from a place to another one: some of them lead back, in three characters each,
and others lead on. -/
theorem exists_reached (steps here : List String) : ∃ m onward, m ≤ here.length ∧
    steps.foldl advance here = here.take m ++ onward ∧
      3 * (here.length - m) + written onward ≤ written steps := by
  induction steps generalizing here with
  | nil => exact ⟨here.length, [], Nat.le_refl _, by simp, by simp⟩
  | cons name rest ih =>
    obtain ⟨m, onward, hm, hreached, hwritten⟩ := ih (advance here name)
    rw [List.foldl_cons, hreached, written_cons]
    unfold advance at hm hwritten ⊢
    split at hm
    · next hname =>
      rw [if_pos hname] at hwritten ⊢
      rw [List.length_dropLast] at hm hwritten
      have hlength : name.length = 2 := by rw [hname]; decide
      refine ⟨m, onward, by omega, ?_, by omega⟩
      rw [List.dropLast_eq_take, List.take_take, Nat.min_eq_left hm]
    · next hname =>
      rw [if_neg hname] at hwritten ⊢
      rw [List.length_append, List.length_singleton] at hm hwritten
      by_cases hlast : m ≤ here.length
      · exact ⟨m, onward, hlast, by rw [List.take_append_of_le_length hlast], by omega⟩
      · obtain rfl : m = here.length + 1 := by omega
        refine ⟨here.length, name :: onward, Nat.le_refl _, ?_, ?_⟩
        · rw [List.take_of_length_le (by simp), List.take_length]
          simp
        · rw [written_cons]
          omega

/-- The steps to a place are written as short as any that lead back and on. -/
theorem written_stepsTo_le {onward : List String} (h : ts = ss.take m ++ onward) :
    written (stepsTo ts ss) ≤ 3 * (ss.length - m) + written onward := by
  induction ts, ss using stepsTo.induct generalizing m onward with
  | case1 ts t ss ih =>
    rw [stepsTo, if_pos rfl]
    cases m with
    | zero =>
      obtain rfl : t :: ts = onward := h
      have := ih (m := 0) rfl
      simp only [List.length_cons, written_cons]
      omega
    | succ m =>
      have := ih (List.cons.inj h).2
      simp only [List.length_cons]
      omega
  | case2 t ts s ss hne =>
    rw [stepsTo, if_neg hne]
    cases m with
    | zero =>
      obtain rfl : t :: ts = onward := h
      simp
    | succ m => exact absurd (List.cons.inj h).1 hne
  | case3 ts ss hne =>
    rw [stepsTo.eq_2 ts ss hne, written_append, written_parents]
    cases ss with
    | nil =>
      obtain rfl : ts = onward := by simpa using h
      simp
    | cons s ss =>
      cases ts with
      | nil =>
        cases m with
        | zero => simp
        | succ m => cases h
      | cons t ts => exact absurd rfl (hne t ts s ss rfl)

/-- The steps to a place lead back at first, or are written no longer than the place itself. -/
theorem written_stepsTo_cases (ts ss : List String) :
    (stepsTo ts ss).head? = some ".." ∨ written (stepsTo ts ss) ≤ written ts := by
  induction ts, ss using stepsTo.induct with
  | case1 ts t ss ih =>
    rw [stepsTo, if_pos rfl, written_cons]
    exact ih.imp_right fun hle => hle.trans (Nat.le_add_left _ _)
  | case2 t ts s ss hne =>
    rw [stepsTo, if_neg hne]
    exact .inl rfl
  | case3 ts ss hne =>
    rw [stepsTo.eq_2 ts ss hne]
    cases ss with
    | nil => exact .inr (Nat.le_refl _)
    | cons s ss => exact .inl rfl

/-- No text that leads from the directory to the target is shorter than that of the relative path,
except for one that starts at the root where the relative path leads back. -/
theorem length_toString_relativeTo_le (hne : (relativeTo cwd target start).parts ≠ [])
    (hx : (start / x).resolve cwd = target.resolve cwd)
    (ha : (ofString x).anchor = .relative ∨ (relativeTo cwd target start).parts.head? ≠ some "..") :
    (toString (relativeTo cwd target start)).length ≤ x.length := by
  have htext : (toString (relativeTo cwd target start)).length + 1 =
      written (relativeTo cwd target start).parts := by
    rw [← length_join hne, ← toString_relative hne]
    rfl
  have hparts := written_partsOf_le x.toList
  rw [String.length_toList] at hparts
  by_cases hr : (ofString x).anchor = .relative
  · rw [resolve_div hr] at hx
    obtain ⟨m, onward, -, hreached, hle⟩ := exists_reached (partsOf x.toList) (normalize (start.fullParts cwd))
    have htarget := congrArg Path.parts hx
    have hshort := written_stepsTo_le (htarget.symm.trans hreached)
    change written (relativeTo cwd target start).parts ≤ _ at hshort
    omega
  · have hdiv : start / x = ofString x := if_neg hr
    have hfull : (ofString x).fullParts cwd = partsOf x.toList := if_neg hr
    rw [hdiv, resolve, hfull] at hx
    obtain ⟨m, onward, -, hreached, hle⟩ := exists_reached (partsOf x.toList) []
    rw [List.take_nil, List.nil_append] at hreached
    have htarget : onward = normalize (target.fullParts cwd) :=
      hreached.symm.trans (congrArg Path.parts hx)
    have hshort := (written_stepsTo_cases _ _).resolve_left (ha.resolve_left hr)
    change written (relativeTo cwd target start).parts ≤ _ at hshort
    rw [← htarget] at hshort
    omega

end Path

end WitCaller
