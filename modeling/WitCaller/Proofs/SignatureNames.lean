import WitCaller.Proofs.LineShapes
import WitCaller.Proofs.StubReading

/-!
Reading the name of a signature. A record name is split at the first marker in it, so it is read as the
two halves that it was put together from unless the first of them already ends like the marker.
-/

namespace WitCaller

namespace Identifier
open Text

variable {name : String} {c : Char}

theorem IsKebab.ne_empty (h : IsKebab name) : name ≠ "" := by
  rintro rfl
  revert h
  decide

theorem IsKebab.notMem (h : IsKebab name) (hc : c.isAlphanum = false) (hne : c ≠ '-') :
    c ∉ name.toList := fun hmem =>
  (h.isAlphanum hmem).elim (fun halnum => Bool.noConfusion (halnum.symm.trans hc)) hne

theorem IsKebab.unblank (h : IsKebab name) : name.toList.any isBlank = false := by
  refine List.any_eq_false.2 fun c hc hblank => ?_
  rcases h.isAlphanum hc with halnum | rfl
  · obtain ⟨hlow, hhigh⟩ := toNat_of_isAlphanum halnum
    simp only [isBlank, Bool.or_eq_true, Bool.and_eq_true, decide_eq_true_eq, beq_iff_eq] at hblank
    omega
  · exact absurd hblank (by decide)

/-- A name in kebab case does not end in a hyphen. -/
theorem IsKebab.not_hyphened (h : IsKebab name) (s : List Char) : name.toList ≠ s ++ ['-'] := by
  intro hs
  have hmem : [] ∈ splitOn '-' name.toList := by
    rw [hs, splitOn_append_cons]
    exact List.mem_append_right _ (List.mem_singleton_self _)
  exact (h [] hmem).1 rfl

/-- Two names in kebab case with a hyphen between them are one. -/
theorem IsKebab.hyphenated {first second joined : String} (h₁ : IsKebab first) (h₂ : IsKebab second)
    (hjoined : joined.toList = first.toList ++ '-' :: second.toList) : IsKebab joined := by
  intro w hw
  rw [hjoined, splitOn_append_cons] at hw
  exact (List.mem_append.1 hw).elim (h₁ w) (h₂ w)

end Identifier

namespace Signature
open Text
variable {record operation kind : String}

/-- The name of the record that declares an operation with a kind of call. -/
def recordName (operation kind : String) : String :=
  String.ofList (operation.toList ++ signatureMarker ++ kind.toList)

theorem isKebab_recordName (ho : Identifier.IsKebab operation) (hk : Identifier.IsKebab kind) :
    Identifier.IsKebab (recordName operation kind) := by
  have hword : Identifier.IsKebab "signature" := by decide
  have hmarked : Identifier.IsKebab (String.ofList (operation.toList ++ '-' :: "signature".toList)) :=
    ho.hyphenated hword String.toList_ofList
  have hmarker : signatureMarker = '-' :: "signature".toList ++ ['-'] := by decide
  refine hmarked.hyphenated hk ?_
  rw [recordName, String.toList_ofList, String.toList_ofList, hmarker]
  simp only [List.append_assoc, List.cons_append, List.nil_append]

/-- A name with the marker of signatures in it. -/
def IsMarked (name : String) : Prop := signatureMarker <:+: name.toList

instance (name : String) : Decidable (IsMarked name) :=
  inferInstanceAs (Decidable (signatureMarker <:+: name.toList))

/-- A name that ends in the marker of signatures but for its last hyphen. -/
def EndsMarked (name : String) : Prop := "-signature".toList <:+ name.toList

instance (name : String) : Decidable (EndsMarked name) :=
  inferInstanceAs (Decidable ("-signature".toList <:+ name.toList))

/-- Where a marker can begin in a name that is followed by one: in the name, or at its last word. -/
theorem marker_infix_iff {name : String} :
    signatureMarker <:+: name.toList ++ signatureMarker.dropLast ↔ IsMarked name ∨ EndsMarked name :=
  infix_enclosed_iff (w := "signature".toList) (c := '-') (by decide)

theorem cut_marker_iff : cut signatureMarker record.toList = some (operation.toList, kind.toList) ↔
    record = recordName operation kind ∧ ¬ IsMarked operation ∧ ¬ EndsMarked operation := by
  have hmarker : signatureMarker ≠ [] := by decide
  rw [cut_eq_some_iff hmarker, marker_infix_iff, not_or, recordName, ← String.toList_inj,
    String.toList_ofList]

/-- The halves of a name are the texts around the first marker. -/
theorem splitName_eq_ok_iff : splitName record = .ok (operation, kind) ↔
    record = recordName operation kind ∧ operation ≠ "" ∧ kind ≠ "" ∧
      ¬ IsMarked operation ∧ ¬ EndsMarked operation ∧ ¬ IsMarked kind := by
  have hsplit : splitName record = .ok (operation, kind) ↔
      cut signatureMarker record.toList = some (operation.toList, kind.toList) ∧
        operation ≠ "" ∧ kind ≠ "" ∧ ¬ IsMarked kind := by
    unfold splitName IsMarked
    cases cut signatureMarker record.toList with
    | none => simp
    | some halves =>
      obtain ⟨a, b⟩ := halves
      simp only [contains_iff, ite_eq_iff]
      constructor
      · rintro (⟨⟨ha, hb, hkind⟩, he⟩ | ⟨-, he⟩)
        · cases he
          simp [ha, hb, hkind]
        · cases he
      · rintro ⟨he, ho, hk, hkind⟩
        cases he
        exact .inl ⟨⟨by simpa using ho, by simpa using hk, hkind⟩, by simp⟩
  rw [hsplit, cut_marker_iff]
  tauto

/-- A record name that is not that of a signature, whatever is put after it: it starts with the marker, or
has it once more after the first one. -/
def IsSpoiled (name : String) : Prop :=
  ∃ first second, cut signatureMarker name.toList = some (first, second) ∧
    (first = [] ∨ contains signatureMarker second = true)

instance (name : String) : Decidable (IsSpoiled name) :=
  decidable_of_iff ((cut signatureMarker name.toList).any fun halves =>
      halves.1.isEmpty || contains signatureMarker halves.2) (by
    rcases hcut : cut signatureMarker name.toList with _ | ⟨first, second⟩ <;> simp [IsSpoiled, hcut])

theorem splitName_of_isSpoiled {name : String} (h : IsSpoiled name) : splitName name = .error ⟨name⟩ := by
  obtain ⟨first, second, hcut, hbad⟩ := h
  rw [Signature.splitName, hcut]
  exact if_neg fun ⟨hfirst, _, hsecond⟩ => hbad.elim hfirst hsecond

theorem IsSpoiled.append {name longer : String} (h : IsSpoiled name) (hp : name.toList <+: longer.toList) :
    IsSpoiled longer := by
  obtain ⟨first, second, hcut, hbad⟩ := h
  obtain ⟨t, ht⟩ := hp
  refine ⟨first, second ++ t, ht ▸ cut_append_right (by decide) hcut t, hbad.imp_right fun h => ?_⟩
  rw [contains_iff] at h ⊢
  exact h.trans (List.prefix_append second t).isInfix

/-- A name is not spoiled by what is put after it without a hyphen. -/
theorem isSpoiled_of_append {name longer : String} {t : List Char} (ht : '-' ∉ t)
    (heq : longer.toList = name.toList ++ t) (h : IsSpoiled longer) : IsSpoiled name := by
  obtain ⟨first, second, hcut, hbad⟩ := h
  rw [heq, cut_eq_some_iff (by decide)] at hcut
  obtain ⟨hsplit, hfirst⟩ := hcut
  have hmarker : signatureMarker = "-signature".toList ++ ['-'] := by decide
  have hmark : first ++ signatureMarker ++ second = first ++ "-signature".toList ++ '-' :: second := by
    rw [hmarker]
    simp
  obtain ⟨rest, hname, rfl⟩ := exists_of_append_mark (hsplit.trans hmark) ht
  refine ⟨first, rest, (cut_eq_some_iff (by decide)).2 ⟨?_, hfirst⟩, hbad.imp_right fun h => ?_⟩
  · rw [hname, hmarker]
    simp
  · rw [contains_iff] at h ⊢
    obtain ⟨x, y, hxy⟩ := h
    have hmark : rest ++ t = x ++ "-signature".toList ++ '-' :: y := by
      rw [← hxy, hmarker]
      simp
    obtain ⟨z, hz, -⟩ := exists_of_append_mark hmark ht
    exact ⟨x, z, by rw [hz, hmarker]; simp⟩

/-- What is put after a name and a separator becomes part of its second half. -/
theorem splitName_append {name longer : String} {first second t : List Char} {c : Char}
    (hcut : cut signatureMarker name.toList = some (first, second)) (hfirst : first ≠ [])
    (hsecond : ¬ signatureMarker <:+: second) (hc : c ∉ signatureMarker) (ht : ¬ signatureMarker <:+: t)
    (hlonger : longer.toList = name.toList ++ c :: t) :
    splitName longer = .ok (String.ofList first, String.ofList (second ++ c :: t)) := by
  have hkind : ¬ contains signatureMarker (second ++ c :: t) = true := by
    rw [contains_iff, infix_separated_iff hc]
    exact not_or.2 ⟨hsecond, ht⟩
  rw [splitName, hlonger, cut_append_right (by decide) hcut]
  exact if_pos ⟨hfirst, by simp, hkind⟩

/-- A name that has the marker and is not spoiled is cut into halves, the second of which may be empty. -/
theorem exists_cut {name : String} (hmarked : IsMarked name) (hsound : ¬ IsSpoiled name) :
    ∃ first second, cut signatureMarker name.toList = some (first, second) ∧ first ≠ [] ∧
      ¬ signatureMarker <:+: second := by
  obtain ⟨⟨first, second⟩, hcut⟩ := Option.isSome_iff_exists.1 (contains_iff.2 hmarked)
  exact ⟨first, second, hcut, fun he => hsound ⟨first, second, hcut, .inl he⟩,
    fun he => hsound ⟨first, second, hcut, .inr (contains_iff.2 he)⟩⟩

/-- The name of a record that is made from names in kebab case can be split unless it is spoiled. -/
theorem exists_splitName (ho : Identifier.IsKebab operation) (hk : Identifier.IsKebab kind)
    (hsound : ¬ IsSpoiled (recordName operation kind)) :
    ∃ first second, splitName (recordName operation kind) = .ok (first, second) := by
  have hmarked : IsMarked (recordName operation kind) :=
    ⟨operation.toList, kind.toList, by rw [recordName, String.toList_ofList]⟩
  obtain ⟨first, second, hcut, hfirst, hsecond⟩ := exists_cut hmarked hsound
  refine ⟨String.ofList first, String.ofList second, ?_⟩
  have hne : second ≠ [] := by
    -- Else the name would end in the hyphen of the marker.
    rintro rfl
    refine (isKebab_recordName ho hk).not_hyphened (first ++ "-signature".toList) ?_
    rw [cut_eq_append hcut, List.append_nil, List.append_assoc]
    rfl
  rw [splitName, hcut]
  exact if_pos ⟨hfirst, hne, by rwa [contains_iff]⟩

theorem IsSpoiled.isMarked {name : String} (h : IsSpoiled name) : IsMarked name := by
  obtain ⟨first, second, hcut, -⟩ := h
  exact ⟨first, second, (cut_eq_append hcut).symm⟩

/-- The halves of a record name as interfaces have them: in kebab case, and without the marker. -/
structure Halves (operation kind : String) : Prop where
  operation_kebab : Identifier.IsKebab operation
  kind_kebab : Identifier.IsKebab kind
  operation_unmarked : ¬ IsMarked operation
  kind_unmarked : ¬ IsMarked kind

/-- Names in kebab case are read back as the halves of the record name made from them exactly if the
first does not end like the marker, and of such names no two pairs have one record name. -/
theorem splitName_recordName_iff (h : Halves operation kind) :
    (splitName (recordName operation kind) = .ok (operation, kind) ↔ ¬ EndsMarked operation) ∧
      ∀ operation' kind', Halves operation' kind' → ¬ EndsMarked operation → ¬ EndsMarked operation' →
        recordName operation kind = recordName operation' kind' →
          operation = operation' ∧ kind = kind' := by
  have hread {o k : String} (h : Halves o k) :
      splitName (recordName o k) = .ok (o, k) ↔ ¬ EndsMarked o := by
    rw [splitName_eq_ok_iff]
    constructor
    · rintro ⟨-, -, -, -, hends, -⟩
      exact hends
    · intro hends
      exact ⟨rfl, h.operation_kebab.ne_empty, h.kind_kebab.ne_empty, h.operation_unmarked, hends,
        h.kind_unmarked⟩
  refine ⟨hread h, fun operation' kind' h' hends hends' hname => ?_⟩
  have hfirst := (hread h).2 hends
  rw [hname, (hread h').2 hends'] at hfirst
  obtain ⟨ho, hk⟩ := Prod.mk.inj (Except.ok.inj hfirst)
  exact ⟨ho.symm, hk.symm⟩

/-- A second half that starts like the marker does no harm. -/
theorem splitName_recordName_iff_nested :
    Halves "get-sign" "signature-http" ∧
      splitName (recordName "get-sign" "signature-http") = .ok ("get-sign", "signature-http") ∧
      ¬ EndsMarked "get-sign" := by
  have h : Halves "get-sign" "signature-http" := ⟨by decide, by decide, by decide, by decide⟩
  have hends : ¬ EndsMarked "get-sign" := by decide
  exact ⟨h, (splitName_recordName_iff h).1.2 hends, hends⟩

/-- Two pairs of halves can have one record name, and then it is read as the pair with the shorter
first half. -/
theorem splitName_recordName_overlap :
    Halves "a-signature" "b" ∧ Halves "a" "signature-b" ∧
      recordName "a-signature" "b" = recordName "a" "signature-b" ∧
      splitName (recordName "a-signature" "b") = .ok ("a", "signature-b") ∧
      ¬ ∀ operation kind, Halves operation kind →
        splitName (recordName operation kind) = .ok (operation, kind) := by
  have h : Halves "a-signature" "b" := ⟨by decide, by decide, by decide, by decide⟩
  have h' : Halves "a" "signature-b" := ⟨by decide, by decide, by decide, by decide⟩
  have hname : recordName "a-signature" "b" = recordName "a" "signature-b" := by decide
  have hread : splitName (recordName "a-signature" "b") = .ok ("a", "signature-b") := by
    rw [splitName_eq_ok_iff]
    decide
  refine ⟨h, h', hname, hread, fun hall => ?_⟩
  have hclaimed := hall _ _ h
  rw [hread] at hclaimed
  exact absurd (Prod.mk.inj (Except.ok.inj hclaimed)).1 (by decide)

end Signature

end WitCaller
