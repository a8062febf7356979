import Mathlib
import WitCaller.Proofs.LibraryReading
import WitCaller.Proofs.Occurrences

/-!
When a library needs the hash map. The text of a Rust type has `HashMap<` in it exactly if the type
has a node of that name with arguments, which is the image of a node `map` and of no other.
-/

namespace WitCaller

namespace Text
variable {m : List Char} {ss : List String}

theorem infix_join_iff (hm : m ≠ []) (hcomma : ',' ∉ m) (hblank : ' ' ∉ m) :
    m <:+: (join ", " ss).toList ↔ ∃ s ∈ ss, m <:+: s.toList := by
  induction ss with
  | nil => simpa [join] using hm
  | cons s ss ih =>
    cases ss with
    | nil => simp [join]
    | cons t ss =>
      have hsep : ", ".toList = [',', ' '] := by decide
      have hright {r : List Char} : m <:+: ' ' :: r ↔ m <:+: r := by
        have h := infix_separated_iff (a := []) (b := r) hblank
        rwa [List.nil_append, List.infix_nil, or_iff_right hm] at h
      rw [join, String.toList_append, String.toList_append, hsep, List.append_assoc, List.cons_append,
        List.cons_append, List.nil_append, infix_separated_iff hcomma, hright, ih,
        List.exists_mem_cons_iff _ s]

end Text

namespace TypeExpr
open Text
variable {t : TypeExpr} {w : List Char} {name : String} {args items : List TypeExpr} {strict : Bool}

/-- Whether a type has a node with arguments and a name that ends in `w`. -/
def Shows (w : List Char) (t : TypeExpr) : Prop := ∃ n ∈ nodes t, n.2 ≠ 0 ∧ w <:+ n.1.toList

/-- Whether a type has a node of this name. -/
def Mentions (name : String) (t : TypeExpr) : Prop := ∃ n ∈ nodes t, n.1 = name

theorem exists_mem_nodesAll {p : String × Nat → Prop} :
    (∃ n ∈ nodesAll items, p n) ↔ ∃ t ∈ items, ∃ n ∈ nodes t, p n := by
  induction items with
  | nil => simp [nodesAll]
  | cons t ts ih =>
    rw [List.exists_mem_cons_iff, ← ih, nodesAll]
    simp only [List.mem_append, or_and_right, exists_or]

theorem shows_named :
    Shows w (.named name args) ↔ args ≠ [] ∧ w <:+ name.toList ∨ ∃ a ∈ args, Shows w a := by
  unfold Shows
  rw [nodes, List.exists_mem_cons_iff, exists_mem_nodesAll]
  simp only [ne_eq, List.length_eq_zero_iff]

theorem shows_tuple : Shows w (.tuple items) ↔ ∃ a ∈ items, Shows w a := by
  unfold Shows
  rw [nodes, exists_mem_nodesAll]

theorem mentions_named {word : String} :
    Mentions word (.named name args) ↔ name = word ∨ ∃ a ∈ args, Mentions word a := by
  unfold Mentions
  rw [nodes, List.exists_mem_cons_iff, exists_mem_nodesAll]

theorem mentions_tuple {word : String} :
    Mentions word (.tuple items) ↔ ∃ a ∈ items, Mentions word a := by
  unfold Mentions
  rw [nodes, exists_mem_nodesAll]

/-- A name and the mark after it hold no other character that can stand between names. -/
theorem not_mem_of_isName {c : Char} (hw : TypeToken.IsName w) (hc : TypeToken.isNameChar c = false)
    (hne : c ≠ '<') : c ∉ w ++ ['<'] := by
  intro h
  rcases List.mem_append.1 h with h | h
  · rw [hw.2 c h] at hc
    cases hc
  · exact hne (List.mem_singleton.1 h)

theorem infix_items_iff {ss : List String} (hw : TypeToken.IsName w) :
    w ++ ['<'] <:+: (join ", " ss).toList ↔ ∃ s ∈ ss, w ++ ['<'] <:+: s.toList :=
  infix_join_iff (by simp) (not_mem_of_isName hw (by decide) (by decide))
    (not_mem_of_isName hw (by decide) (by decide))

/-- What stands between two separators, of which the second may have others after it. -/
theorem infix_between_iff {c d : Char} {s r : List Char} (hw : TypeToken.IsName w)
    (hc : TypeToken.isNameChar c = false ∧ c ≠ '<') (hd : TypeToken.isNameChar d = false ∧ d ≠ '<')
    (hr : '<' ∉ r) : w ++ ['<'] <:+: c :: (s ++ d :: r) ↔ w ++ ['<'] <:+: s := by
  have hne : w ++ ['<'] ≠ [] := by simp
  have hnot : ¬ w ++ ['<'] <:+: r := fun h => hr (h.subset (by simp))
  have hsplit := infix_separated_iff (a := []) (b := s ++ d :: r) (not_mem_of_isName hw hc.1 hc.2)
  rwa [List.nil_append, List.infix_nil, or_iff_right hne,
    infix_separated_iff (not_mem_of_isName hw hd.1 hd.2), or_iff_left hnot] at hsplit

theorem infix_parenthesized_iff {ss : List String} (hw : TypeToken.IsName w) :
    w ++ ['<'] <:+: (parenthesized ss).toList ↔ ∃ s ∈ ss, w ++ ['<'] <:+: s.toList := by
  have hleft : "(".toList = ['('] := by decide
  have hright : ")".toList = [')'] := by decide
  have hsingle : ",)".toList = [',', ')'] := by decide
  unfold parenthesized
  split
  · next item =>
    simp only [String.toList_append, hleft, hsingle, List.cons_append, List.nil_append]
    rw [infix_between_iff hw (by decide) (by decide) (by decide)]
    simp
  · simp only [String.toList_append, hleft, hright, List.cons_append, List.nil_append]
    rw [infix_between_iff hw (by decide) (by decide) (by decide), infix_items_iff hw]

/-- The text of a type has a name before an opening mark exactly if the type shows it. -/
theorem infix_render_iff (h : Spelled t) (hw : TypeToken.IsName w) :
    w ++ ['<'] <:+: t.render.toList ↔ Shows w t := by
  have hless {n : List Char} (hn : TypeToken.IsName n) : '<' ∉ n := by
    intro hmem
    have := hn.2 _ hmem
    revert this
    decide
  induction h with
  | nameless =>
    rw [shows_named]
    simp [render]
  | @named name args hn _ ih =>
    have hargs : (∃ s ∈ args.map render, w ++ ['<'] <:+: s.toList) ↔ ∃ a ∈ args, Shows w a := by
      simp only [List.mem_map, exists_exists_and_eq_and]
      exact exists_congr fun a => and_congr_right (ih a)
    cases args with
    | nil =>
      have hnot : ¬ w ++ ['<'] <:+: name.toList := fun h => hless hn (h.subset (by simp))
      rw [shows_named, render]
      simp [hnot]
    | cons a args =>
      have hopen : "<".toList = ['<'] := by decide
      have hclose : ">".toList = ['>'] := by decide
      have hend : w ++ ['<'] <:+: (join ", " ((a :: args).map render)).toList ++ ['>'] ↔
          w ++ ['<'] <:+: (join ", " ((a :: args).map render)).toList := by
        rw [infix_separated_iff (not_mem_of_isName hw (by decide) (by decide)), List.infix_nil]
        simp
      rw [shows_named, render, renderAll_eq_map]
      simp only [String.toList_append, hopen, hclose, List.append_assoc, List.cons_append,
        List.nil_append]
      -- The first opening mark is that of this node: before it stands its name, after it its arguments.
      rw [infix_marked_iff hw.1 (hless hw) (hless hn), hend, infix_items_iff hw, hargs]
      simp
  | tuple _ ih =>
    rw [shows_tuple, render, renderAll_eq_map, infix_parenthesized_iff hw]
    simp only [List.mem_map, exists_exists_and_eq_and]
    exact exists_congr fun a => and_congr_right (ih a)

/-- The name of the hash map in Rust. -/
def hashMapName : List Char := "HashMap".toList

theorem shows_of_other (h : ¬ hashMapName <:+ name.toList) :
    Shows hashMapName (.named name args) ↔ ∃ a ∈ args, Shows hashMapName a := by
  rw [shows_named, or_iff_right fun hshow => h hshow.2]

theorem not_shows_leaf : ¬ Shows hashMapName (leaf name) := by
  unfold leaf
  split
  · rw [unit, shows_tuple]
    simp
  · rw [shows_named]
    simp

/-- Of the images of names only that of `map` shows the hash map by itself. -/
theorem shows_image (h : Admits strict name args.length) :
    Shows hashMapName (image name args) ↔ name = "map" ∨ ∃ a ∈ args, Shows hashMapName a := by
  have hunit : ¬ Shows hashMapName unit := by
    rw [unit, shows_tuple]
    simp
  have hvec : ¬ hashMapName <:+ "Vec".toList := by decide
  have hoption : ¬ hashMapName <:+ "Option".toList := by decide
  have hresult : ¬ hashMapName <:+ "Result".toList := by decide
  have hmap {as : List TypeExpr} (hne : as ≠ []) : Shows hashMapName (.named "HashMap" as) := by
    rw [shows_named]
    exact .inl ⟨hne, List.suffix_refl _⟩
  unfold image
  split
  · simp [shows_of_other hvec]
  · simp [shows_of_other hoption]
  · simp [shows_of_other hresult, hunit]
  · simp [shows_of_other hresult, hunit]
  · simp [shows_of_other hresult]
  · simp [hmap]
  · simp [hmap]
  · simp [shows_tuple]
  · next _ _ _ _ _ _ hmap₁ hmap₂ =>
    -- What no other case allows is a name without arguments, and it is not `map`.
    have hne : name ≠ "map" := by
      rintro rfl
      have hcount : args.length = 2 ∨ args.length = 1 ∧ strict = false := by simpa [Admits] using h
      rcases hcount with hcount | ⟨hcount, -⟩
      · obtain ⟨k, v, rfl⟩ := List.length_eq_two.1 hcount
        exact hmap₂ k v rfl rfl
      · obtain ⟨v, rfl⟩ := List.length_eq_one_iff.1 hcount
        exact hmap₁ v rfl rfl
    have hargs : args = [] := by
      rcases args with _ | ⟨a, _ | ⟨b, args⟩⟩
      · rfl
      all_goals simp_all [Admits]
    rw [hargs]
    simp [not_shows_leaf, hne]

mutual

/-- A type that obeys the rules has a Rust type with the hash map in it if and only if it has a map. -/
theorem shows_translate {t : TypeExpr} (h : Obeys strict t) :
    Shows hashMapName t.translate ↔ Mentions "map" t := by
  match t with
  | .named name args =>
    obtain ⟨hname, hargs⟩ := obeys_named.1 h
    have hlength : (translateAll args).length = args.length := by
      rw [translateAll_eq_map, List.length_map]
    rw [translate, shows_image (hlength ▸ hname), mentions_named, shows_translateAll hargs]
  | .tuple items =>
    rw [translate, shows_tuple, mentions_tuple, shows_translateAll h]

theorem shows_translateAll {ts : List TypeExpr} (h : ObeyAll strict ts) :
    (∃ t ∈ translateAll ts, Shows hashMapName t) ↔ ∃ t ∈ ts, Mentions "map" t := by
  match ts with
  | [] => simp [translateAll]
  | t :: ts =>
    obtain ⟨ht, hts⟩ := obeyAll_cons.1 h
    rw [translateAll, List.exists_mem_cons_iff, List.exists_mem_cons_iff, shows_translate ht,
      shows_translateAll hts]

end

/-- What is found for an interface type needs the hash map if and only if the type has a map. -/
theorem contains_rustText_iff {witType r : String} (h : (rustText strict witType).collect.1 = .ok r) :
    contains "HashMap<".toList r.toList = true ↔ ∃ t, parse .wit witType = .ok t ∧ Mentions "map" t := by
  obtain ⟨t, ht, hobeys, rfl⟩ := rustText_eq_ok_iff.1 h
  have hname : "HashMap<".toList = hashMapName ++ ['<'] := by decide
  have hspelled : Spelled t.translate := spelled_translate (isName_of_parse ht)
  rw [contains_iff, hname, infix_render_iff hspelled (by decide), shows_translate hobeys]
  constructor
  · intro hm
    exact ⟨t, ht, hm⟩
  · rintro ⟨u, hu, hm⟩
    cases ht.symm.trans hu
    exact hm

end TypeExpr

namespace Signature
open TypeExpr Text
variable {st : StubSettings} {s : Signature} {stub : Stub}

/-- Whether a field has a type with a map in it. -/
def HoldsMap (f : Field) : Prop := ∃ t, parse .wit f.type = .ok t ∧ Mentions "map" t

/-- Whether the type of a parameter or of the result of a signature has a map in it. The first field
that says where a call goes is neither. -/
def UsesMap (s : Signature) : Prop := ∃ f ∈ s.fields.eraseP isTarget, HoldsMap f

theorem contains_result_iff {strict : Bool} {r : String} (h : (s.result strict).collect.1 = .ok r) :
    contains "HashMap<".toList r.toList = true ↔ ∃ f, s.returning? = some f ∧ HoldsMap f := by
  unfold result at h
  cases hf : s.returning? with
  | some f =>
    rw [hf] at h
    rw [contains_rustText_iff h]
    simp [HoldsMap]
  | none =>
    rw [hf] at h
    cases h
    have hnot : contains "HashMap<".toList "()".toList = false := by decide
    rw [hnot]
    simp

/-- The stub of a signature needs the hash map if and only if the signature uses maps. -/
theorem usesHashMap_stub_iff (h : (s.stub st).collect.1 = .ok stub) :
    stub.plan.usesHashMap = true ↔ s.UsesMap := by
  obtain ⟨hp, -⟩ := collect_stub_eq_ok_iff.1 h
  have hparams : (∃ f ∈ s.params, HoldsMap f) ↔
      ∃ q ∈ stub.plan.params, contains "HashMap<".toList q.type.toList = true :=
    exists_mem_iff_of_forall₂ hp.params fun f q hq => (contains_rustText_iff hq.2).symm
  have hfields : s.UsesMap ↔
      (∃ f ∈ s.params, HoldsMap f) ∨ ∃ f, s.returning? = some f ∧ HoldsMap f := by
    simp only [UsesMap, mem_eraseP_isTarget, or_and_right, exists_or]
  rw [hfields, hparams, ← contains_result_iff hp.result, StubPlan.usesHashMap, StubPlan.types,
    List.any_append, Bool.or_eq_true, List.any_map, List.any_eq_true]
  simp

end Signature

namespace Library
open Text
variable {st : StubSettings} {i : Interface} {is : List Interface} {lib : Library}
  {witPath world : String} {imports : List String}

theorem needHashMap_iff {stubs : List Stub} (h : i.stubs? st = some stubs) :
    needHashMap stubs = true ↔ ∃ s ∈ i.signatures, s.UsesMap := by
  rw [needHashMap, List.any_eq_true]
  have hmade := Interface.stubs_eq_ok_iff.1 (Interface.stubs_of_stubs? h)
  exact (exists_mem_iff_of_forall₂ hmade fun s stub hs => (Signature.usesHashMap_stub_iff hs).symm).symm

theorem usesHashMap_gather_iff : (gather st is {}).usesHashMap = true ↔
    ∃ i ∈ is, (i.stubs? st).isSome ∧ ∃ s ∈ i.signatures, s.UsesMap := by
  rw [usesHashMap_gather, Bool.false_or, List.any_eq_true]
  constructor
  · rintro ⟨stubs, hstubs, hneed⟩
    obtain ⟨i, hi, hmade⟩ := List.mem_filterMap.1 hstubs
    exact ⟨i, hi, by rw [hmade]; rfl, (needHashMap_iff hmade).1 hneed⟩
  · rintro ⟨i, hi, hsome, hsignatures⟩
    obtain ⟨stubs, hmade⟩ := Option.isSome_iff_exists.1 hsome
    exact ⟨stubs, List.mem_filterMap.2 ⟨i, hi, hmade⟩, (needHashMap_iff hmade).2 hsignatures⟩

theorem hashMapLine_eq_cons :
    hashMapLine.toList = 'u' :: "se std::collections::HashMap;".toList := by decide

/-- The lines after the head, apart from that of the hash map: none, or an empty one first. -/
theorem part_after_head (imported : List String) (ms : List (String × String)) :
    importSection imported ++ ms.flatMap moduleLines = [] ∨
      ∃ ls, importSection imported ++ ms.flatMap moduleLines = [] :: ls := by
  unfold importSection
  split
  · cases ms with
    | nil => exact .inl rfl
    | cons m ms => exact .inr ⟨_, rfl⟩
  · exact .inr ⟨_, rfl⟩

/-- The line that brings in the hash map follows the head of a library that needs it, and of no
other. -/
theorem hashMapLine_prefix_iff : (head witPath world ++ hashMapLine ++ "\n").toList <+:
    (lib.render none witPath world imports).toList ↔ lib.usesHashMap = true := by
  have hfeed : "\n".toList = ['\n'] := by decide
  rw [toList_render, shownLines, frontLines, List.append_assoc, List.append_assoc, unlines_append,
    ← toList_head, String.toList_append, String.toList_append, hfeed, List.append_assoc,
    List.prefix_append_right_inj]
  cases lib.usesHashMap with
  | true =>
    rw [if_pos rfl, List.singleton_append, unlines_cons, ← List.singleton_append, ← List.append_assoc]
    simp
  | false =>
    rw [if_neg Bool.false_ne_true, List.nil_append, hashMapLine_eq_cons]
    rcases part_after_head (importedModules imports) lib.modules with h | ⟨ls, h⟩
    · simp [h]
    · simp [h]

/-- Whether a line is the note before a module. -/
def notesModule (line : List Char) : Bool := moduleNote.toList.isPrefixOf line

/-- A line that is neither the note before a module nor that of the hash map. -/
def Aside (line : List Char) : Prop := notesModule line = false ∧ line ≠ hashMapLine.toList

instance (line : List Char) : Decidable (Aside line) := inferInstanceAs (Decidable (_ ∧ _))

theorem aside_headLines : ∀ l ∈ (headLines witPath world).map String.toList, Aside l := by
  have hindented {l : List Char} : Aside (' ' :: l) := by
    refine ⟨rfl, ?_⟩
    rw [hashMapLine_eq_cons]
    simp
  have hpath : Aside ("    path: \"" ++ witPath ++ "\",").toList := by
    rw [toList_between]
    exact hindented
  have hworld : Aside ("    world: \"" ++ world ++ "\",").toList := by
    rw [toList_between]
    exact hindented
  exact forall_headLines (by decide) hpath hworld

theorem aside_importSection {imported : List String} : ∀ l ∈ importSection imported, Aside l := by
  refine forall_importSection (by decide) (by decide) fun name _ => ?_
  unfold importing
  rw [toList_between]
  refine ⟨rfl, fun h => ?_⟩
  rw [hashMapLine_eq_cons] at h
  cases h

/-- Before the note of its first module a library has the lines of its front. -/
theorem lines_before_modules (hpath : Unbroken witPath.toList) (hworld : Unbroken world.toList)
    (himports : ∀ i ∈ imports, Unbroken i.toList) : ∃ gap, (gap = [] ∨ gap = [[]]) ∧
      (lines (lib.render none witPath world imports).toList).takeWhile (!notesModule ·) =
        frontLines witPath world (importedModules imports) lib.usesHashMap ++ gap := by
  have hfront : ∀ l ∈ frontLines witPath world (importedModules imports) lib.usesHashMap,
      (!notesModule l) = true := by
    unfold frontLines
    rw [List.forall_mem_append, List.forall_mem_append]
    refine ⟨⟨fun l hl => ?_, forall_hashMapLine (by decide)⟩, fun l hl => ?_⟩
    · rw [(aside_headLines l hl).1, Bool.not_false]
    · rw [(aside_importSection l hl).1, Bool.not_false]
  have hunbroken : ∀ l ∈ frontLines witPath world (importedModules imports) lib.usesHashMap, Unbroken l :=
    unbroken_frontLines hpath hworld (unbroken_importedModules himports)
  have hlines := lines_unlines_append hunbroken (unlines (lib.modules.flatMap moduleLines))
  rw [toList_render, shownLines, unlines_append, hlines, List.takeWhile_append_of_pos hfront]
  cases hmodules : lib.modules with
  | nil => exact ⟨[], .inl rfl, rfl⟩
  | cons m ms =>
    refine ⟨[[]], .inr rfl, ?_⟩
    -- The note of the module is the second line that is left, whatever the name of the module is.
    obtain ⟨l, ls, hnote⟩ := lines_append_of_unbroken (a := moduleNote.toList) (by decide)
      (by decide) ((m.1.toList ++ " interface".toList) ++ '\n' ::
        unlines ((openingLine m.1).toList :: (innerLines m.2 ++ [['\x7d']]) ++ ms.flatMap moduleLines))
    have hrest : unlines ((m :: ms).flatMap moduleLines) = [] ++ '\n' :: (moduleNote.toList ++
        ((m.1.toList ++ " interface".toList) ++ '\n' ::
          unlines ((openingLine m.1).toList :: (innerLines m.2 ++ [['\x7d']]) ++ ms.flatMap moduleLines))) := by
      rw [List.flatMap_cons, moduleLines, String.toList_append, String.toList_append]
      simp only [List.cons_append, unlines_cons, List.nil_append, List.append_assoc]
    rw [hrest, lines_line unbroken_nil, hnote]
    have hnotes : notesModule (moduleNote.toList ++ l) = true := by
      rw [notesModule, List.isPrefixOf_iff_prefix]
      exact List.prefix_append _ _
    rw [List.takeWhile_cons_of_pos (by decide), List.takeWhile_cons_of_neg (by simp [hnotes])]

/-- A library needs the hash map if and only if some interface that was added with its stubs has a
signature with a map in the type of a parameter or of its result, and then its text brings the hash
map in right after the head. If the texts of the head and of the imports stand on one line each, the
line is found before the first module in this case and in no other. -/
theorem usesHashMap_iff_usesMap (st : StubSettings) (is : List Interface) :
    ((gather st is {}).usesHashMap = true ↔ ∃ before i after, is = before ++ i :: after ∧
      ((gather st before {}).add st i).outcome = .ok true ∧ ∃ s ∈ i.signatures, s.UsesMap) ∧
    ∀ witPath world imports,
      ((head witPath world ++ hashMapLine ++ "\n").toList <+:
        ((gather st is {}).render none witPath world imports).toList ↔
          (gather st is {}).usesHashMap = true) ∧
      (Unbroken witPath.toList → Unbroken world.toList → (∀ i ∈ imports, Unbroken i.toList) →
        (hashMapLine.toList ∈ (lines ((gather st is {}).render none witPath world imports).toList).takeWhile
          (!notesModule ·) ↔ (gather st is {}).usesHashMap = true)) := by
  refine ⟨?_, fun witPath world imports => ⟨hashMapLine_prefix_iff, fun hpath hworld himports => ?_⟩⟩
  · rw [usesHashMap_gather_iff]
    simp only [outcome_add, outcomeOf_eq_true_iff]
    constructor
    · rintro ⟨i, hi, hmade, huses⟩
      obtain ⟨before, after, his⟩ := List.append_of_mem hi
      exact ⟨before, i, after, his, hmade, huses⟩
    · rintro ⟨before, i, after, rfl, hmade, huses⟩
      exact ⟨i, by simp, hmade, huses⟩
  · obtain ⟨gap, hgap, hlines⟩ : ∃ gap, (gap = [] ∨ gap = [[]]) ∧
        (lines ((gather st is {}).render none witPath world imports).toList).takeWhile (!notesModule ·) =
          frontLines witPath world (importedModules imports) (gather st is {}).usesHashMap ++ gap :=
      lines_before_modules hpath hworld himports
    have hnone : hashMapLine.toList ∉ gap := by
      rcases hgap with rfl | rfl
      · exact List.not_mem_nil
      · decide
    have hhead : hashMapLine.toList ∉ (headLines witPath world).map String.toList := fun h =>
      (aside_headLines _ h).2 rfl
    have himport : hashMapLine.toList ∉ importSection (importedModules imports) := fun h =>
      (aside_importSection _ h).2 rfl
    rw [hlines, frontLines]
    simp only [List.mem_append, hnone, hhead, himport, or_false, false_or]
    cases (gather st is {}).usesHashMap <;> simp

/-- An interface with maps in its types whose stubs cannot be made, and one whose stubs can. -/
theorem usesHashMap_iff_usesMap_failed :
    let failed := Interface.parse (.absolute ["w", "api", "a.wit"])
      "record put-signature-remote \x7b\n  pairs: map<string, u8>,\n  user: user<u8>\n\x7d"
    let made := Interface.parse (.absolute ["w", "api", "b.wit"])
      "record get-signature-remote \x7b\n  target: address,\n  returning: list<map<string, u8>>\n\x7d"
    (gather {} [failed] {}).usesHashMap = false ∧ (gather {} [failed, made] {}).usesHashMap = true ∧
      hashMapLine.toList ∈ (lines ((gather {} [failed, made] {}).render none "target/wit" "demo"
        ["w:api/a", "w:api/b"]).toList).takeWhile (!notesModule ·) := by
  intro failed made
  obtain ⟨hflag, hrender⟩ := usesHashMap_iff_usesMap {} [failed, made]
  have hmade : ((gather {} [failed] {}).add {} made).outcome = .ok true := by
    rw [outcome_add, outcomeOf_eq_true_iff]
    decide +kernel
  have huses : ∃ s ∈ made.signatures, s.UsesMap := by
    refine ⟨⟨"get", "remote", [⟨"target", "address"⟩, ⟨"returning", "list<map<string, u8>>"⟩]⟩,
      by decide +kernel, ⟨"returning", "list<map<string, u8>>"⟩, by decide, ?_⟩
    exact ⟨.named "list" [.named "map" [.named "string" [], .named "u8" []]], by cbv, ("map", 2),
      by decide, rfl⟩
  have hset : (gather {} [failed, made] {}).usesHashMap = true :=
    hflag.2 ⟨[failed], made, [], rfl, hmade, huses⟩
  obtain ⟨-, hlines⟩ := hrender "target/wit" "demo" ["w:api/a", "w:api/b"]
  exact ⟨by decide +kernel, hset, (hlines (by decide) (by decide) (by decide)).2 hset⟩

end Library

end WitCaller
