import WitCaller.Proofs.Concatenation
import WitCaller.Proofs.SignatureNames

/-!
What lines declare, line by line: the signatures and the types. A line outside of bodies adds a type, or
a signature with the body after it, or nothing; a line in a body adds a field to its signature.
-/

namespace WitCaller

namespace Interface
open Text
variable {d d₁ d₂ : TypeDeclaration} {record operation kind : String}
  {record₁ operation₁ kind₁ record₂ operation₂ kind₂ : String} {l l₁ l₂ : List Char}
  {ls before after : List (List Char)}

/-- The signatures and the types that lines declare. -/
def declared (ls : List (List Char)) : List Signature × List TypeDeclaration :=
  ((itemsOf ls).filterMap Item.signature?, (itemsOf ls).filterMap Item.type?)

/-- What an interface declares: its signatures and its types. -/
def declarations (i : Interface) : List Signature × List TypeDeclaration := (i.signatures, i.types)

theorem declarations_parse (path : Path) (text : String) :
    (parse path text).declarations = declared (trimmedLines text) := rfl

/-- The fields that lines add to an open body. -/
def fieldsOf (ls : List (List Char)) : List Field := (bodyOf ls).filterMap BodyLine.field?

/-- A heading that declares nothing by itself and opens no body. -/
def Heading.IsSilent (h : Heading) : Prop := h = .other ∨ ∃ e, h = .malformed e

theorem heading_record (h : startsWith "record " l = true) : heading l =
    if contains signatureMarker l then signatureHeading (declaredName "record" l)
    else .type ⟨declaredName "record" l, .record⟩ :=
  if_pos h

theorem heading_variant (h : startsWith "variant " l = true) :
    heading l = .type ⟨declaredName "variant" l, .variant⟩ := by
  have hrecord : ¬ startsWith "record " l = true := by
    obtain ⟨rest, rfl⟩ := List.isPrefixOf_iff_prefix.1 h
    exact Bool.false_ne_true
  rw [heading, if_neg hrecord, if_pos h]

theorem heading_other (hrecord : startsWith "record " l = false)
    (hvariant : startsWith "variant " l = false) : heading l = .other := by
  rw [heading, hrecord, hvariant]
  rfl

/-- A line whose name is that of a signature starts its body. -/
theorem heading_of_splitName (h : startsWith "record " l = true)
    (hsplit : Signature.splitName (declaredName "record" l) = .ok (operation, kind)) :
    heading l = .signature (declaredName "record" l) operation kind := by
  have hname : declaredName "record" l = Signature.recordName operation kind :=
    (Signature.splitName_eq_ok_iff.1 hsplit).1
  have hmarked : signatureMarker <:+: (declaredName "record" l).toList := by
    rw [hname, Signature.recordName, String.toList_ofList]
    exact List.infix_append _ _ _
  rw [heading_record h, if_pos (contains_iff.2 (hmarked.trans (infix_declaredName "record" l))),
    signatureHeading, hsplit]

/-- A record whose name is spoiled is skipped. -/
theorem heading_of_isSpoiled (h : startsWith "record " l = true)
    (hspoiled : Signature.IsSpoiled (declaredName "record" l)) : (heading l).IsSilent := by
  have hmarked : contains signatureMarker l = true :=
    contains_iff.2 (hspoiled.isMarked.trans (infix_declaredName "record" l))
  rw [heading_record h, if_pos hmarked, signatureHeading, Signature.splitName_of_isSpoiled hspoiled]
  exact .inr ⟨_, rfl⟩

theorem declared_cons_type (h : heading l = .type d) (ls : List (List Char)) :
    declared (l :: ls) = ((declared ls).1, d :: (declared ls).2) := by
  rw [declared, itemsOf, h]
  simp [declared, Item.signature?, Item.type?, List.filterMap_cons]

theorem declared_cons_signature (h : heading l = .signature record operation kind)
    (ls : List (List Char)) : declared (l :: ls) =
      (⟨operation, kind, fieldsOf ls⟩ :: (declared (afterBody ls)).1, (declared (afterBody ls)).2) := by
  rw [declared, itemsOf, h]
  simp [declared, fieldsOf, Item.signature?, Item.type?, List.filterMap_cons]

theorem declared_cons_silent (h : (heading l).IsSilent) (ls : List (List Char)) :
    declared (l :: ls) = declared ls := by
  rw [declared, itemsOf]
  rcases h with h | ⟨e, h⟩
  · rw [h]
    rfl
  · rw [h]
    simp [declared, Item.signature?, Item.type?, List.filterMap_cons]

/-- After lines that end outside of bodies, further lines declare what they declare alone. -/
theorem declared_append_outside (h : endsInside before = false) (ls : List (List Char)) :
    declared (before ++ ls) =
      ((declared before).1 ++ (declared ls).1, (declared before).2 ++ (declared ls).2) := by
  rw [declared, itemsOf_append_outside h, List.filterMap_append, List.filterMap_append]
  rfl

/-- After lines that end inside a body, further lines add fields to the last signature up to the line
that closes the body. -/
theorem declared_append_inside (h : endsInside before = true) :
    ∃ signatures types operation kind fields, ∀ ls, declared (before ++ ls) =
      (signatures ++ ⟨operation, kind, fields ++ fieldsOf ls⟩ :: (declared (afterBody ls)).1,
        types ++ (declared (afterBody ls)).2) := by
  obtain ⟨earlier, record, operation, kind, body, -, happend⟩ := itemsOf_append_inside h
  refine ⟨earlier.filterMap Item.signature?, earlier.filterMap Item.type?, operation, kind,
    body.filterMap BodyLine.field?, fun ls => ?_⟩
  rw [declared, happend]
  simp [declared, fieldsOf, Item.signature?, Item.type?, List.filterMap_cons]

/-- Lines that declare nothing can stand before others. -/
theorem declared_append_of_silent (h : ∀ l ∈ before, (heading l).IsSilent) (ls : List (List Char)) :
    declared (before ++ ls) = declared ls := by
  induction before with
  | nil => rfl
  | cons l before ih =>
    obtain ⟨hl, hbefore⟩ := List.forall_mem_cons.1 h
    rw [List.cons_append, declared_cons_silent hl, ih hbefore]

theorem fieldsOf_cons (h : closes l = false) (hspeaks : isIdle l = false) :
    fieldsOf (l :: ls) = (bodyLine l).field?.toList ++ fieldsOf ls := by
  rw [fieldsOf, bodyOf_cons h, hspeaks, List.filterMap_append, ← fieldsOf]
  cases hf : (bodyLine l).field? <;> simp [hf]

theorem declared_ne_of_types (hbefore : endsInside before = false) (h₁ : heading l₁ = .type d₁)
    (h₂ : heading l₂ = .type d₂) (hne : d₁ ≠ d₂) :
    declared (before ++ l₁ :: after) ≠ declared (before ++ l₂ :: after) := by
  rw [declared_append_outside hbefore, declared_append_outside hbefore, declared_cons_type h₁,
    declared_cons_type h₂]
  intro heq
  exact hne (List.cons.inj (List.append_cancel_left (Prod.mk.inj heq).2)).1

theorem declared_ne_of_signatures (hbefore : endsInside before = false)
    (h₁ : heading l₁ = .signature record₁ operation₁ kind₁)
    (h₂ : heading l₂ = .signature record₂ operation₂ kind₂) (hne : kind₁ ≠ kind₂) :
    declared (before ++ l₁ :: after) ≠ declared (before ++ l₂ :: after) := by
  rw [declared_append_outside hbefore, declared_append_outside hbefore, declared_cons_signature h₁,
    declared_cons_signature h₂]
  intro heq
  have hfirst := (List.cons.inj (List.append_cancel_left (Prod.mk.inj heq).1)).1
  exact hne (Signature.mk.inj hfirst).2.1

end Interface

end WitCaller
