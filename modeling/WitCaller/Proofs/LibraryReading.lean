import Mathlib
import WitCaller.Interface.Parser
import WitCaller.Proofs.Blanks
import WitCaller.Proofs.LibraryLines
import WitCaller.Proofs.StubText
import WitCaller.World

/-!
Reading a library back from its lines. Modules are the only blocks at the left margin, and all lines
in them are moved right, so their names and bodies are found again, as are the names of the modules
that are brought in.
-/

namespace WitCaller

namespace Interface
open Text
variable {path : Path} {text keyword : String} {line : List Char} {ls : List (List Char)}
  {s : Signature} {f : Field}

theorem unbroken_declaredName (h : Unbroken line) : Unbroken (declaredName keyword line).toList := by
  have hbrace (s : List Char) : dropBrace s ⊆ s := by
    unfold dropBrace
    split
    · exact List.dropLast_subset s
    · exact List.Subset.refl s
  rw [declaredName, String.toList_ofList]
  exact h.subset fun c hc => List.drop_subset _ _ (trim_subset (hbrace _ (trim_subset hc)))

theorem unbroken_of_heading {record operation kind : String} (h : Unbroken line)
    (hl : heading line = .signature record operation kind) :
    Unbroken operation.toList ∧ Unbroken kind.toList := by
  have hname : Unbroken (declaredName "record" line).toList := unbroken_declaredName h
  -- Only a line that starts a record whose name can be split is a heading of a signature.
  have hsplit : Signature.splitName (declaredName "record" line) = .ok (operation, kind) := by
    unfold heading signatureHeading at hl
    split at hl
    · split at hl
      · split at hl
        · next he =>
          cases hl
          exact he
        · cases hl
      · cases hl
    · split at hl <;> cases hl
  unfold Signature.splitName at hsplit
  split at hsplit
  · next a b hcut =>
    split at hsplit
    · cases hsplit
      rw [cut_eq_append hcut, unbroken_append, unbroken_append] at hname
      rw [String.toList_ofList, String.toList_ofList]
      exact ⟨hname.1.1, hname.2⟩
    · cases hsplit
  · cases hsplit

theorem unbroken_of_bodyLine (h : Unbroken line) (hl : (bodyLine line).field? = some f) :
    Unbroken f.name.toList := by
  unfold bodyLine at hl
  split at hl
  · next name type hparts =>
    cases hl
    have hname : name ∈ splitOn ':' line := hparts ▸ List.mem_cons_self
    rw [String.toList_ofList]
    exact h.subset fun c hc => Identifier.mem_of_mem_splitOn hname (trim_subset hc)
  · cases hl

theorem unbroken_of_mem_bodyOf (h : ∀ l ∈ ls, Unbroken l)
    (hf : f ∈ (bodyOf ls).filterMap BodyLine.field?) : Unbroken f.name.toList := by
  obtain ⟨b, hb, hf⟩ := List.mem_filterMap.1 hf
  obtain ⟨line, hline, rfl⟩ := List.mem_map.1 hb
  have hmem : line ∈ ls := List.takeWhile_subset _ (List.mem_of_mem_filter hline)
  exact unbroken_of_bodyLine (h line hmem) hf

/-- The names of what lines declare stand on one line each. -/
theorem oneLined_of_mem_itemsOf (h : ∀ l ∈ ls, Unbroken l)
    (hs : s ∈ (itemsOf ls).filterMap Item.signature?) : s.OneLined := by
  fun_induction itemsOf ls with
  | case1 => cases hs
  | case2 l rest d _ ih => exact ih (List.forall_mem_cons.1 h).2 hs
  | case3 l rest record operation kind hl ih =>
    -- The fields of a signature are read from lines that the next declarations are not read from.
    obtain ⟨hline, hrest⟩ := List.forall_mem_cons.1 h
    obtain ⟨hoperation, hkind⟩ := unbroken_of_heading hline hl
    rcases List.mem_cons.1 hs with rfl | hs
    · exact ⟨hoperation, hkind, fun f => unbroken_of_mem_bodyOf hrest⟩
    · refine ih (fun l hl => hrest l ?_) hs
      exact ((List.drop_suffix 1 _).trans (List.dropWhile_suffix _)).subset hl
  | case4 l rest e _ ih => exact ih (List.forall_mem_cons.1 h).2 hs
  | case5 l rest _ ih => exact ih (List.forall_mem_cons.1 h).2 hs

theorem oneLined_of_mem_parse (h : s ∈ (parse path text).signatures) : s.OneLined := by
  have hlines : ∀ l ∈ trimmedLines text, Unbroken l := by
    intro l hl
    obtain ⟨line, hline, rfl⟩ := List.mem_map.1 hl
    exact (unbroken_of_mem_lines hline).subset trim_subset
  exact oneLined_of_mem_itemsOf hlines h

end Interface

namespace Library
open Text Assoc
variable {st : StubSettings} {lib : Library} {is : List Interface} {name body : String}
  {m : String × String} {ms : List (String × String)} {line : List Char} {ls ks : List (List Char)}
  {imports : List String}

/-- The name in a line that starts a module. -/
def openedModule? (line : List Char) : Option (List Char) :=
  (line.dropPrefix? "pub mod ".toList).bind (·.dropSuffix? " \x7b".toList)

/-- Whether a line ends a module. -/
def endsModule (line : List Char) : Bool := line == ['\x7d']

/-- A line of a module without the four blanks before it; an empty line has none. -/
def outdented? (line : List Char) : Option (List Char) :=
  if line = [] then some [] else line.dropPrefix? "    ".toList

/-- The body in the lines of a module, which come after two that all modules have. -/
def readBody? (ls : List (List Char)) : Option String := do
  let inner ← ls.dropPrefix? ["    use crate::*;".toList, []]
  let body ← inner.mapM outdented?
  return join "\n" (body.map String.ofList)

/-- The names and bodies of all modules. -/
def readModules? (ls : List (List Char)) : Option (List (String × String)) :=
  match ls with
  | [] => some []
  | l :: ls =>
    match openedModule? l with
    | none => readModules? ls
    | some name => do
      let body ← readBody? (ls.takeWhile (!endsModule ·))
      let rest ← readModules? (ls.dropWhile (!endsModule ·))
      return (String.ofList name, body) :: rest
termination_by ls.length
decreasing_by
  · exact Nat.lt_succ_self _
  · exact Nat.lt_succ_of_le (List.dropWhile_sublist _).length_le

/-- The names that are read off lines, line by line. -/
def namesIn (name? : List Char → Option (List Char)) (ls : List (List Char)) : List String :=
  (ls.filterMap name?).map String.ofList

theorem namesIn_append {name? : List Char → Option (List Char)} :
    namesIn name? (ls ++ ks) = namesIn name? ls ++ namesIn name? ks := by
  rw [namesIn, List.filterMap_append, List.map_append, namesIn, namesIn]

theorem namesIn_eq_nil {name? : List Char → Option (List Char)} (h : ∀ l ∈ ls, name? l = none) :
    namesIn name? ls = [] := by
  rw [namesIn, List.filterMap_eq_nil_iff.2 h, List.map_nil]

/-- One name is read off each of the lines that are made from names. -/
theorem namesIn_map {name? : List Char → Option (List Char)} {f : String → List Char} {names : List String}
    (h : ∀ n ∈ names, name? (f n) = some n.toList) : namesIn name? (names.map f) = names := by
  induction names with
  | nil => rfl
  | cons n names ih =>
    obtain ⟨hn, hnames⟩ := List.forall_mem_cons.1 h
    rw [namesIn, List.map_cons, List.filterMap_cons_some hn, List.map_cons, String.ofList_toList]
    exact congrArg (n :: ·) (ih hnames)

/-- The module in a line that brings in the types of one. -/
def importedModule? (line : List Char) : Option (List Char) :=
  (line.dropPrefix? "pub use crate::hyperware::process::".toList).bind (·.dropSuffix? "::*;".toList)

/-- The modules that lines bring in. -/
def readImports (ls : List (List Char)) : List String := (ls.filterMap importedModule?).map String.ofList

theorem openedModule?_openingLine : openedModule? (openingLine name).toList = some name.toList := by
  unfold openingLine openedModule?
  rw [toList_between, dropPrefix?_append]
  exact dropSuffix?_append

theorem importedModule?_importing : importedModule? (importing name).toList = some name.toList := by
  unfold importing importedModule?
  rw [toList_between, dropPrefix?_append]
  exact dropSuffix?_append

/-- A line that is empty or starts with four blanks. -/
def Indented (line : List Char) : Prop := line = [] ∨ ∃ l, line = "    ".toList ++ l

/-- A line that neither starts a module nor brings one in. -/
def Plain (line : List Char) : Prop := openedModule? line = none ∧ importedModule? line = none

instance (line : List Char) : Decidable (Plain line) := inferInstanceAs (Decidable (_ ∧ _))

theorem Indented.plain (h : Indented line) : Plain line := by
  rcases h with rfl | ⟨l, rfl⟩
  · exact ⟨rfl, rfl⟩
  · exact ⟨rfl, rfl⟩

theorem Indented.endsModule (h : Indented line) : endsModule line = false := by
  rcases h with rfl | ⟨l, rfl⟩
  · rfl
  · rfl

theorem indented_indentLine : Indented (indentLine line) := by
  unfold indentLine
  split
  · exact .inl rfl
  · exact .inr ⟨line, rfl⟩

theorem indented_innerLines : ∀ l ∈ innerLines body, Indented l := by
  unfold innerLines indentedLines
  have huse : "    use crate::*;".toList = "    ".toList ++ "use crate::*;".toList := by decide
  rw [List.forall_mem_cons, List.forall_mem_cons]
  refine ⟨.inr ⟨_, huse⟩, .inl rfl, ?_⟩
  split
  · exact List.forall_mem_nil _
  · rw [List.forall_mem_cons]
    exact ⟨.inr ⟨_, rfl⟩, List.forall_mem_map.2 fun l _ => indented_indentLine⟩

theorem outdented?_indentLine : outdented? (indentLine line) = some line := by
  unfold indentLine
  split
  · next h => rw [h, outdented?, if_pos rfl]
  · rw [outdented?, if_neg (by simp)]
    exact dropPrefix?_append

theorem mapM_outdented? : (indentedLines body).mapM outdented? = some (lines (body.toList ++ ['\n'])) := by
  have hrest (ls : List (List Char)) : (ls.map indentLine).mapM outdented? = some ls := by
    induction ls with
    | nil => rfl
    | cons l ls ih =>
      rw [List.map_cons, List.mapM_cons, outdented?_indentLine, ih]
      rfl
  unfold indentedLines
  split
  · next h => exact congrArg some h.symm
  · next l ls h =>
    -- The first line has its blanks even if nothing else is in it, unlike the lines after it.
    have hfirst : outdented? ("    ".toList ++ l) = some l := by
      rw [outdented?, if_neg (by simp)]
      exact dropPrefix?_append
    rw [List.mapM_cons, hfirst, hrest, h]
    rfl

theorem join_lines (h : OnlyFeeds body.toList) :
    join "\n" ((lines (body.toList ++ ['\n'])).map String.ofList) = body := by
  apply String.toList_injective
  have htext := join_append_feed (lines_append_feed_ne_nil (s := body.toList))
  rw [unlines_lines h] at htext
  exact List.append_cancel_right htext

theorem readBody?_innerLines (h : OnlyFeeds body.toList) : readBody? (innerLines body) = some body := by
  have hinner : (innerLines body).dropPrefix? ["    use crate::*;".toList, []] =
      some (indentedLines body) :=
    List.dropPrefix?_append_of_beq _ (beq_self_eq_true ["    use crate::*;".toList, []])
  rw [readBody?, hinner, Option.bind_eq_bind, Option.bind_some, mapM_outdented?, Option.bind_some,
    join_lines h]
  rfl

theorem plain_moduleNote : Plain (moduleNote ++ name ++ " interface").toList := by
  unfold moduleNote
  rw [toList_between]
  exact ⟨rfl, rfl⟩

theorem readModules?_skip (h : ∀ l ∈ ls, openedModule? l = none) :
    readModules? (ls ++ ks) = readModules? ks := by
  induction ls with
  | nil => rfl
  | cons l ls ih =>
    obtain ⟨hl, hls⟩ := List.forall_mem_cons.1 h
    rw [List.cons_append, readModules?, hl]
    exact ih hls

/-- The lines of a module are read as that module. -/
theorem readModules?_moduleLines (h : OnlyFeeds m.2.toList) :
    readModules? (moduleLines m ++ ks) = (readModules? ks).map (m :: ·) := by
  have hinner : ∀ l ∈ innerLines m.2, (!endsModule l) = true := fun l hl => by
    rw [(indented_innerLines l hl).endsModule, Bool.not_false]
  have hbefore : ∀ l ∈ [[], (moduleNote ++ m.1 ++ " interface").toList], openedModule? l = none := by
    simp only [List.forall_mem_cons]
    exact ⟨rfl, plain_moduleNote.1, List.forall_mem_nil _⟩
  have hlines : moduleLines m ++ ks = [[], (moduleNote ++ m.1 ++ " interface").toList] ++
      (openingLine m.1).toList :: (innerLines m.2 ++ ['\x7d'] :: ks) := by
    simp [moduleLines]
  have hend : readModules? (['\x7d'] :: ks) = readModules? ks := by
    rw [readModules?]
    rfl
  -- No line within the module ends it, so its lines are all that stand before the one that does.
  rw [hlines, readModules?_skip hbefore, readModules?, openedModule?_openingLine]
  simp only [List.takeWhile_append_of_pos hinner, List.dropWhile_append_of_pos hinner]
  rw [List.takeWhile_cons_of_neg (by simp [endsModule]), List.append_nil,
    List.dropWhile_cons_of_neg (by simp [endsModule]), readBody?_innerLines h, hend,
    String.ofList_toList]
  cases readModules? ks <;> rfl

theorem readModules?_modules (h : ∀ m ∈ ms, OnlyFeeds m.2.toList) :
    readModules? (ms.flatMap moduleLines) = some ms := by
  induction ms with
  | nil => rw [List.flatMap_nil, readModules?]
  | cons m ms ih =>
    obtain ⟨hm, hms⟩ := List.forall_mem_cons.1 h
    rw [List.flatMap_cons, readModules?_moduleLines hm, ih hms]
    rfl

theorem mem_distinct {x : String} {xs : List String} : x ∈ distinct xs ↔ x ∈ xs := by
  induction xs with
  | nil => rfl
  | cons y ys ih =>
    rw [distinct, List.mem_cons, List.mem_cons, List.mem_filter, ih]
    by_cases hx : x = y <;> simp [hx]

/-- What is kept of a list stands in the order of first occurrences. -/
theorem distinct_pairwise (xs : List String) (p : String → Bool) :
    (distinct (xs.filter p)).Pairwise fun a b => xs.idxOf a < xs.idxOf b := by
  induction xs with
  | nil => exact List.Pairwise.nil
  | cons x xs ih =>
    -- An item before all others moves their places by one, which keeps their order.
    have hshift {a b : String} (ha : a ≠ x) (hb : b ≠ x) (h : xs.idxOf a < xs.idxOf b) :
        (x :: xs).idxOf a < (x :: xs).idxOf b := by
      rw [List.idxOf_cons_ne _ (Ne.symm ha), List.idxOf_cons_ne _ (Ne.symm hb)]
      exact Nat.succ_lt_succ h
    cases hp : p x with
    | true =>
      rw [List.filter_cons_of_pos hp, distinct, List.pairwise_cons]
      constructor
      · intro b hb
        have hne : b ≠ x := by simpa using (List.mem_filter.1 hb).2
        rw [List.idxOf_cons_self, List.idxOf_cons_ne _ (Ne.symm hne)]
        exact Nat.succ_pos _
      · refine (ih.sublist List.filter_sublist).imp_of_mem fun ha hb h => hshift ?_ ?_ h
        · simpa using (List.mem_filter.1 ha).2
        · simpa using (List.mem_filter.1 hb).2
    | false =>
      have hne {a : String} (ha : a ∈ distinct (xs.filter p)) : a ≠ x := by
        rintro rfl
        rw [mem_distinct, List.mem_filter, hp] at ha
        exact absurd ha.2 Bool.false_ne_true
      rw [List.filter_cons_of_neg (by simp [hp])]
      exact ih.imp_of_mem fun ha hb h => hshift (hne ha) (hne hb) h

theorem unbroken_importedModules (h : ∀ i ∈ imports, Unbroken i.toList) :
    ∀ m ∈ importedModules imports, Unbroken m.toList := by
  intro m hm
  obtain ⟨i, hi, rfl⟩ := List.mem_map.1 (List.mem_of_mem_filter (mem_distinct.1 hm))
  have hpart : Unbroken (trim (beforeFirst '@' (afterLast '/' i.toList))) := by
    refine (h i hi).subset fun c hc => ?_
    have hlast : c ∈ afterLast '/' i.toList := List.takeWhile_subset _ (trim_subset hc)
    exact List.mem_reverse.1 (List.takeWhile_subset _ (List.mem_reverse.1 hlast))
  refine Identifier.unbroken_snake ?_
  rwa [String.toList_ofList]

section
variable {witPath world : String} {imported : List String} {usesHashMap : Bool}

theorem unbroken_headLines (hpath : Unbroken witPath.toList) (hworld : Unbroken world.toList) :
    ∀ l ∈ (headLines witPath world).map String.toList, Unbroken l :=
  forall_headLines (by decide) (unbroken_between (by decide) hpath (by decide))
    (unbroken_between (by decide) hworld (by decide))

theorem unbroken_importSection (h : ∀ m ∈ imported, Unbroken m.toList) :
    ∀ l ∈ importSection imported, Unbroken l :=
  forall_importSection unbroken_nil (by decide) fun m hm =>
    unbroken_between (by decide) (h m hm) (by decide)

theorem unbroken_frontLines (hpath : Unbroken witPath.toList) (hworld : Unbroken world.toList)
    (himported : ∀ m ∈ imported, Unbroken m.toList) :
    ∀ l ∈ frontLines witPath world imported usesHashMap, Unbroken l := by
  unfold frontLines
  rw [List.forall_mem_append, List.forall_mem_append]
  exact ⟨⟨unbroken_headLines hpath hworld, forall_hashMapLine (by decide)⟩,
    unbroken_importSection himported⟩

theorem unbroken_moduleLines (h : Unbroken m.1.toList) : ∀ l ∈ moduleLines m, Unbroken l := by
  have hindented : ∀ l ∈ indentedLines m.2, Unbroken l := by
    have hindent {l : List Char} (h : Unbroken l) : Unbroken ("    ".toList ++ l) :=
      unbroken_append.2 ⟨by decide, h⟩
    unfold indentedLines
    split
    · exact List.forall_mem_nil _
    · next l ls hlines =>
      have hbody : ∀ l ∈ lines (m.2.toList ++ ['\n']), Unbroken l := fun l => unbroken_of_mem_lines
      rw [hlines, List.forall_mem_cons] at hbody
      rw [List.forall_mem_cons]
      refine ⟨hindent hbody.1, List.forall_mem_map.2 fun k hk => ?_⟩
      unfold indentLine
      split
      · exact unbroken_nil
      · exact hindent (hbody.2 k hk)
  have hnote : Unbroken (moduleNote ++ m.1 ++ " interface").toList :=
    unbroken_between (by decide) h (by decide)
  have hopening : Unbroken (openingLine m.1).toList := unbroken_between (by decide) h (by decide)
  unfold moduleLines innerLines
  simp only [List.cons_append, List.forall_mem_cons, List.forall_mem_append]
  exact ⟨unbroken_nil, hnote, hopening, by decide, unbroken_nil, hindented, by decide,
    List.forall_mem_nil _⟩

/-- The lines of a library are read back from its text. -/
theorem lines_render (hpath : Unbroken witPath.toList) (hworld : Unbroken world.toList)
    (himports : ∀ i ∈ imports, Unbroken i.toList) (hmodules : ∀ m ∈ lib.modules, Unbroken m.1.toList) :
    lines (lib.render none witPath world imports).toList =
      shownLines witPath world (importedModules imports) lib := by
  have hshown : ∀ l ∈ shownLines witPath world (importedModules imports) lib, Unbroken l := by
    unfold shownLines
    rw [List.forall_mem_append]
    refine ⟨unbroken_frontLines hpath hworld (unbroken_importedModules himports), fun l hl => ?_⟩
    obtain ⟨m, hm, hl⟩ := List.mem_flatMap.1 hl
    exact unbroken_moduleLines (hmodules m hm) l hl
  have hlines := lines_unlines_append hshown []
  rw [List.append_nil] at hlines
  rw [toList_render, hlines]
  exact List.append_nil _

theorem plain_headLines : ∀ l ∈ (headLines witPath world).map String.toList, Plain l := by
  have hpath : Plain ("    path: \"" ++ witPath ++ "\",").toList := by
    rw [toList_between]
    exact ⟨rfl, rfl⟩
  have hworld : Plain ("    world: \"" ++ world ++ "\",").toList := by
    rw [toList_between]
    exact ⟨rfl, rfl⟩
  exact forall_headLines (by decide) hpath hworld

theorem plain_hashMapLine : ∀ l ∈ (if usesHashMap then [hashMapLine.toList] else []), Plain l :=
  forall_hashMapLine (by decide)

theorem openedModule?_frontLines :
    ∀ l ∈ frontLines witPath world imported usesHashMap, openedModule? l = none := by
  have himports : ∀ l ∈ importSection imported, openedModule? l = none := by
    refine forall_importSection rfl (by decide) fun m _ => ?_
    unfold importing
    rw [toList_between]
    rfl
  unfold frontLines
  rw [List.forall_mem_append, List.forall_mem_append]
  exact ⟨⟨fun l hl => (plain_headLines l hl).1, fun l hl => (plain_hashMapLine l hl).1⟩, himports⟩

theorem readImports_append : readImports (ls ++ ks) = readImports ls ++ readImports ks := namesIn_append

theorem readImports_eq_nil (h : ∀ l ∈ ls, importedModule? l = none) : readImports ls = [] := namesIn_eq_nil h

/-- From the lines for what a library imports the names of this are read, where the lines before say
none. -/
theorem namesIn_importSection {name? : List Char → Option (List Char)}
    (hstart : namesIn name? [[], "// Import types from each interface".toList] = [])
    (himporting : ∀ m ∈ imported, name? (importing m).toList = some m.toList) :
    namesIn name? (importSection imported) = imported := by
  have hnames : namesIn name? (imported.map fun m => (importing m).toList) = imported :=
    namesIn_map himporting
  unfold importSection
  split
  · next h => rw [h]; rfl
  · have hsplit : namesIn name? ([[], "// Import types from each interface".toList] ++
        imported.map fun m => (importing m).toList) = _ := namesIn_append
    rw [hstart, hnames, List.nil_append] at hsplit
    exact hsplit

theorem readImports_importSection : readImports (importSection imported) = imported :=
  namesIn_importSection (by decide) fun _ _ => importedModule?_importing

theorem importedModule?_moduleLines : ∀ l ∈ moduleLines m, importedModule? l = none := by
  have hopening : importedModule? (openingLine m.1).toList = none := by
    unfold openingLine
    rw [toList_between]
    rfl
  have hinner : ∀ l ∈ innerLines m.2, importedModule? l = none := fun l hl =>
    (indented_innerLines l hl).plain.2
  unfold moduleLines
  simp only [List.forall_mem_cons, List.forall_mem_append]
  exact ⟨rfl, plain_moduleNote.2, hopening, hinner, rfl, List.forall_mem_nil _⟩

/-- What lines of a library bring in is what it imports. -/
theorem readImports_shownLines : readImports (shownLines witPath world imported lib) = imported := by
  have hhead : readImports ((headLines witPath world).map String.toList) = [] :=
    readImports_eq_nil fun l hl => (plain_headLines l hl).2
  have hhash : readImports (if lib.usesHashMap then [hashMapLine.toList] else []) = [] :=
    readImports_eq_nil fun l hl => (plain_hashMapLine l hl).2
  have hmodules : readImports (lib.modules.flatMap moduleLines) = [] := by
    refine readImports_eq_nil fun l hl => ?_
    obtain ⟨m, -, hl⟩ := List.mem_flatMap.1 hl
    exact importedModule?_moduleLines l hl
  unfold shownLines frontLines
  rw [readImports_append, readImports_append, readImports_append, hhead, hhash, hmodules,
    readImports_importSection, List.nil_append, List.nil_append, List.append_nil]

end

theorem exists_of_mem_modules (h : m ∈ (gather st is {}).modules) :
    ∃ i ∈ is, ∃ stubs, i.stubs st = .ok stubs ∧ m = (Identifier.snake i.name, moduleBody stubs) := by
  rw [modules_gather] at h
  rcases mem_of_mem_insertAll h with h | h
  · cases h
  · obtain ⟨i, hi, hm⟩ := List.mem_filterMap.1 h
    obtain ⟨stubs, hstubs, rfl⟩ := Option.map_eq_some_iff.1 hm
    exact ⟨i, hi, stubs, Interface.stubs_of_stubs? hstubs, rfl⟩

/-- The only line breaks of a body are line feeds. -/
theorem onlyFeeds_moduleBody {i : Interface} {stubs : List Stub} (ht : st.templates = {})
    (hi : ∀ s ∈ i.signatures, s.OneLined) (h : i.stubs st = .ok stubs) :
    OnlyFeeds (moduleBody stubs).toList := by
  have hsep : OnlyFeeds "\n\n".toList := by simp [OnlyFeeds]
  rw [moduleBody]
  refine onlyFeeds_join hsep (List.forall_mem_map.2 fun stub hstub => ?_)
  obtain ⟨s, hs, hmade⟩ := exists_of_mem_right (Interface.stubs_eq_ok_iff.1 h) hstub
  exact (hi s hs).onlyFeeds_stub ht hmade

/-- A library of files whose names stand on one line each is read back from its text. The blocks of
its modules have the names and bodies that it holds, in order, and the lines that bring in types name
the modules of the imports of its world, each once and in the order of first occurrence. -/
theorem render_readBack (timeout : Int) (strict : Bool) (sources : List (Path × String))
    (witPath : String) (world : World) (hstems : ∀ s ∈ sources, Unbroken s.1.stem.toList)
    (hpath : Unbroken witPath.toList) (hworld : Unbroken world.name.toList)
    (himports : ∀ i ∈ world.imports, Unbroken i.toList) :
    let lib := gather { timeout, strict } (sources.map fun s => Interface.parse s.1 s.2) {}
    let shown := lines (lib.render none witPath world.name world.imports).toList
    let names := world.imports.map Identifier.moduleName
    readModules? shown = some lib.modules ∧
      readImports shown = importedModules world.imports ∧
      (∀ m, m ∈ readImports shown ↔ m ≠ "" ∧ m ∈ names) ∧
      (readImports shown).Pairwise fun a b => names.idxOf a < names.idxOf b := by
  intro lib shown names
  have hmodules : ∀ m ∈ lib.modules, Unbroken m.1.toList ∧ OnlyFeeds m.2.toList := by
    intro m hm
    obtain ⟨i, hi, stubs, hstubs, rfl⟩ := exists_of_mem_modules hm
    obtain ⟨source, hsource, rfl⟩ := List.mem_map.1 hi
    exact ⟨Identifier.unbroken_snake (hstems source hsource),
      onlyFeeds_moduleBody rfl (fun s => Interface.oneLined_of_mem_parse) hstubs⟩
  have hshown : shown = shownLines witPath world.name (importedModules world.imports) lib :=
    lines_render hpath hworld himports fun m hm => (hmodules m hm).1
  have hread : readImports shown = importedModules world.imports := by
    rw [hshown]
    exact readImports_shownLines
  refine ⟨?_, hread, fun m => ?_, ?_⟩
  · rw [hshown, shownLines, readModules?_skip openedModule?_frontLines]
    exact readModules?_modules fun m hm => (hmodules m hm).2
  · rw [hread, importedModules, mem_distinct, List.mem_filter, and_comm]
    simp [names]
  · rw [hread]
    exact distinct_pairwise names _

theorem render_readBack_kv :
    let source := "record get-signature-remote \x7b\n  key: list<u8>,\n  returning: string\n\x7d"
    let world : World := ⟨"demo", ["a:b/k-v@0.1.0", "sync", "c:d/k-v", "/"]⟩
    let lib := gather {} [Interface.parse (.absolute ["w", "api", "k-v.wit"]) source] {}
    let shown := lines (lib.render none "target/wit" world.name world.imports).toList
    (readModules? shown).map (·.map Prod.fst) = some ["k_v"] ∧
      readImports shown = ["k_v", "sync"] := by
  intro source world lib shown
  obtain ⟨hmodules, himports, -⟩ : readModules? shown = some lib.modules ∧
      readImports shown = importedModules world.imports ∧ _ :=
    render_readBack 30 false [(.absolute ["w", "api", "k-v.wit"], source)] "target/wit" world
      (by decide) (by decide) (by decide) (by decide)
  have hnames : lib.modules.map Prod.fst = ["k_v"] := by decide +kernel
  constructor
  · rw [hmodules]
    exact congrArg some hnames
  · rw [himports]
    decide +kernel

end Library

end WitCaller
