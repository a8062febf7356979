import Mathlib
import WitCaller.Proofs.Lines
import WitCaller.Rust.Library

/-!
The lines of a library with the built-in template: those of its head, those that bring in what it
imports, and those of each module, with an empty line before each part and none at the end.
-/

namespace WitCaller

namespace Library
open Text
variable {lib : Library} {witPath world name body : String} {imports imported : List String}
  {m : String × String} {ms : List (String × String)}

/-- The lines before what a library imports. -/
def headLines (witPath world : String) : List String := [
  "wit_bindgen::generate!(\x7b",
  "    path: \"" ++ witPath ++ "\",",
  "    world: \"" ++ world ++ "\",",
  "    generate_unused_types: true,",
  "    additional_derives: [serde::Deserialize, serde::Serialize, " ++ "process_macros::SerdeJsonInto],",
  "\x7d);",
  "",
  "/// Generated caller utilities for RPC function stubs",
  "",
  "pub use hyperware_app_common::SendResult;",
  "pub use hyperware_app_common::send;",
  "use hyperware_process_lib::Address;",
  "use serde_json::json;"]

/-- The line that brings in the hash map. -/
def hashMapLine : String := "use std::collections::HashMap;"

/-- The line that brings in the types of a module, without its end. -/
def importing (name : String) : String := "pub use crate::hyperware::process::" ++ name ++ "::*;"

/-- The lines for what a library imports. -/
def importSection (imported : List String) : List (List Char) :=
  if imported = [] then []
  else [] :: "// Import types from each interface".toList :: imported.map fun m => (importing m).toList

/-- The line that starts a module. -/
def openingLine (name : String) : String := "pub mod " ++ name ++ " \x7b"

/-- The start of the line before a module. -/
def moduleNote : String := "/// Generated RPC stubs for the "

/-- The lines of a body that is moved right. -/
def indentedLines (body : String) : List (List Char) :=
  match lines (body.toList ++ ['\n']) with
  | [] => []
  | l :: ls => ("    ".toList ++ l) :: ls.map indentLine

/-- The lines of a module after the one that starts it, without the one that ends it. -/
def innerLines (body : String) : List (List Char) :=
  "    use crate::*;".toList :: [] :: indentedLines body

/-- The lines of a module, after an empty one. -/
def moduleLines (m : String × String) : List (List Char) :=
  [] :: (moduleNote ++ m.1 ++ " interface").toList :: (openingLine m.1).toList ::
    (innerLines m.2 ++ [['\x7d']])

/-- The lines of a library before its first module. -/
def frontLines (witPath world : String) (imported : List String) (usesHashMap : Bool) :
    List (List Char) :=
  (headLines witPath world).map String.toList ++ (if usesHashMap then [hashMapLine.toList] else []) ++
    importSection imported

/-- The lines of a library. -/
def shownLines (witPath world : String) (imported : List String) (lib : Library) : List (List Char) :=
  frontLines witPath world imported lib.usesHashMap ++ lib.modules.flatMap moduleLines

/-- What holds of the head for empty texts and of its two lines with texts holds of the head. -/
theorem forall_headLines {P : List Char → Prop}
    (hempty : ∀ l ∈ (headLines "" "").map String.toList, P l)
    (hpath : P ("    path: \"" ++ witPath ++ "\",").toList)
    (hworld : P ("    world: \"" ++ world ++ "\",").toList) :
    ∀ l ∈ (headLines witPath world).map String.toList, P l := by
  unfold headLines at hempty ⊢
  simp only [List.map_cons, List.forall_mem_cons] at hempty ⊢
  obtain ⟨hopen, -, -, hrest⟩ := hempty
  exact ⟨hopen, hpath, hworld, hrest⟩

theorem forall_hashMapLine {P : List Char → Prop} {usesHashMap : Bool} (h : P hashMapLine.toList) :
    ∀ l ∈ (if usesHashMap then [hashMapLine.toList] else []), P l := by
  cases usesHashMap with
  | true => exact List.forall_mem_singleton.2 h
  | false => exact List.forall_mem_nil _

theorem forall_importSection {P : List Char → Prop} {imported : List String} (hgap : P [])
    (hnote : P "// Import types from each interface".toList)
    (himporting : ∀ m ∈ imported, P (importing m).toList) : ∀ l ∈ importSection imported, P l := by
  unfold importSection
  split
  · exact List.forall_mem_nil _
  · rw [List.forall_mem_cons, List.forall_mem_cons]
    exact ⟨hgap, hnote, List.forall_mem_map.2 himporting⟩

theorem toList_head :
    (head witPath world).toList = unlines ((headLines witPath world).map String.toList) := by
  -- Each text of the template is a line, or the end of one, with the line feeds after it.
  have hopen : "wit_bindgen::generate!(\x7b\n".toList = "wit_bindgen::generate!(\x7b".toList ++ ['\n'] := by
    decide
  have hcomma : "\",\n".toList = "\",".toList ++ ['\n'] := by decide
  have hunused : "    generate_unused_types: true,\n".toList =
      "    generate_unused_types: true,".toList ++ ['\n'] := by decide
  have hderives : "process_macros::SerdeJsonInto],\n".toList =
      "process_macros::SerdeJsonInto],".toList ++ ['\n'] := by decide
  have hclose : "\x7d);\n\n".toList = "\x7d);".toList ++ ['\n', '\n'] := by decide
  have hnote : "/// Generated caller utilities for RPC function stubs\n\n".toList =
      "/// Generated caller utilities for RPC function stubs".toList ++ ['\n', '\n'] := by decide
  have hresult : "pub use hyperware_app_common::SendResult;\n".toList =
      "pub use hyperware_app_common::SendResult;".toList ++ ['\n'] := by decide
  have hsend : "pub use hyperware_app_common::send;\n".toList =
      "pub use hyperware_app_common::send;".toList ++ ['\n'] := by decide
  have haddress : "use hyperware_process_lib::Address;\n".toList =
      "use hyperware_process_lib::Address;".toList ++ ['\n'] := by decide
  have hjson : "use serde_json::json;\n".toList = "use serde_json::json;".toList ++ ['\n'] := by
    decide
  have hempty : "".toList = [] := by decide
  unfold head headLines
  simp only [List.map_cons, List.map_nil, unlines_cons, unlines_nil, String.toList_append]
  simp only [hopen, hcomma, hunused, hderives, hclose, hnote, hresult, hsend, haddress, hjson, hempty]
  simp only [List.append_assoc, List.cons_append, List.nil_append]

theorem toList_importLine : (importLine name).toList = (importing name).toList ++ ['\n'] := by
  have hend : "::*;\n".toList = "::*;".toList ++ ['\n'] := by decide
  unfold importLine importing
  rw [String.toList_append, hend, ← List.append_assoc, ← String.toList_append]

/-- What is imported starts a part of its own. -/
theorem toList_importLines :
    '\n' :: (importLines imported).toList = unlines (importSection imported) ++ ['\n'] := by
  have hnote : "// Import types from each interface\n".toList =
      "// Import types from each interface".toList ++ ['\n'] := by decide
  have hfeed : "\n".toList = ['\n'] := by decide
  have hlines (ms : List String) : (String.join (ms.map importLine)).toList =
      unlines (ms.map fun m => (importing m).toList) := by
    induction ms with
    | nil => decide
    | cons m ms ih =>
      rw [String.toList_join] at ih ⊢
      rw [List.map_cons, List.flatMap_cons, ih, toList_importLine, List.map_cons, unlines_cons,
        List.append_assoc, List.singleton_append]
  unfold importLines importSection
  split
  · rfl
  · rw [String.toList_append, String.toList_append, hlines, hnote, hfeed, unlines_cons, unlines_cons]
    simp only [List.append_assoc, List.cons_append, List.nil_append]

theorem lines_append_feed_ne_nil {s : List Char} : lines (s ++ ['\n']) ≠ [] := by
  intro h
  have := lines_eq_nil h
  simp at this

theorem toList_indented : (indented body).toList ++ ['\n'] = unlines (indentedLines body) := by
  unfold indented indentedLines
  cases h : lines (body.toList ++ ['\n']) with
  | nil => exact absurd h lines_append_feed_ne_nil
  | cons l ls =>
    exact join_append_feed (List.cons_ne_nil ("    ".toList ++ l) (ls.map indentLine))

/-- A module starts a part of its own. -/
theorem toList_moduleText :
    '\n' :: (moduleText m.1 m.2).toList = unlines (moduleLines m) ++ ['\n'] := by
  have hnote : " interface\n".toList = " interface".toList ++ ['\n'] := by decide
  have hopen : " \x7b\n".toList = " \x7b".toList ++ ['\n'] := by decide
  have huse : "    use crate::*;\n\n".toList = "    use crate::*;".toList ++ ['\n', '\n'] := by
    decide
  have hfeed : "\n".toList = ['\n'] := by decide
  have hend : "\x7d\n\n".toList = ['\x7d', '\n', '\n'] := by decide
  have hbody (rest : List Char) :
      (indented m.2).toList ++ '\n' :: rest = unlines (indentedLines m.2) ++ rest := by
    rw [← toList_indented, List.append_assoc, List.singleton_append]
  unfold moduleText moduleLines innerLines openingLine moduleNote
  simp only [List.cons_append, unlines_cons, unlines_append, unlines_nil, String.toList_append]
  simp only [hnote, hopen, huse, hfeed, hend]
  simp only [List.append_assoc, List.cons_append, List.nil_append, hbody]

theorem toList_moduleTexts :
    '\n' :: (String.join (ms.map fun m => moduleText m.1 m.2)).toList =
      unlines (ms.flatMap moduleLines) ++ ['\n'] := by
  induction ms with
  | nil => decide
  | cons m ms ih =>
    rw [String.toList_join] at ih ⊢
    rw [List.map_cons, List.flatMap_cons, List.flatMap_cons, ← List.cons_append, toList_moduleText,
      unlines_append, List.append_assoc, List.append_assoc, List.singleton_append, ih]

theorem toList_fullText : (lib.fullText witPath world imported).toList =
    unlines (shownLines witPath world imported lib) ++ ['\n'] := by
  have hhash : (if lib.usesHashMap then "use std::collections::HashMap;\n" else "").toList =
      unlines (if lib.usesHashMap then [hashMapLine.toList] else []) := by
    cases lib.usesHashMap with
    | true => decide
    | false => decide
  have hfeed : "\n".toList = ['\n'] := by decide
  have hparts : '\n' :: ((importLines imported).toList ++
      (String.join (lib.modules.map fun m => moduleText m.1 m.2)).toList) =
        unlines (importSection imported) ++ (unlines (lib.modules.flatMap moduleLines) ++ ['\n']) := by
    rw [← List.cons_append, toList_importLines, List.append_assoc, List.singleton_append,
      toList_moduleTexts]
  unfold fullText shownLines frontLines
  simp only [String.toList_append, unlines_append, toList_head, hhash, hfeed, List.append_assoc,
    List.singleton_append]
  rw [← hparts, List.cons_append]

/-- That the last of some lines does not end in a blank. -/
def EndsSolid (ls : List (List Char)) : Prop := ∃ l c, isBlank c = false ∧ ls.getLast? = some (l ++ [c])

theorem EndsSolid.append {ls ks : List (List Char)} (h : EndsSolid ks) : EndsSolid (ls ++ ks) := by
  obtain ⟨l, c, hc, hlast⟩ := h
  exact ⟨l, c, hc, by rw [List.getLast?_append, hlast, Option.some_or]⟩

theorem endsSolid_shownLines : EndsSolid (shownLines witPath world imported lib) := by
  have hhead : EndsSolid ((headLines witPath world).map String.toList) :=
    ⟨"use serde_json::json".toList, ';', by decide, by
      rw [List.getLast?_map]
      exact congrArg some (by decide : "use serde_json::json;".toList = _)⟩
  have hhash : EndsSolid [hashMapLine.toList] :=
    ⟨"use std::collections::HashMap".toList, ';', by decide,
      congrArg some (by decide : hashMapLine.toList = _)⟩
  have himport (imported : List String) (name : String) :
      EndsSolid ((imported ++ [name]).map fun m => (importing m).toList) := by
    have hend : "::*;".toList = "::*".toList ++ [';'] := by decide
    refine ⟨("pub use crate::hyperware::process::" ++ name ++ "::*").toList, ';', by decide, ?_⟩
    rw [List.map_append, List.map_singleton, List.getLast?_append, List.getLast?_singleton,
      Option.some_or]
    unfold importing
    rw [String.toList_append, hend, ← List.append_assoc, ← String.toList_append]
  have hmodule (m : String × String) : EndsSolid (moduleLines m) := by
    have hend : EndsSolid [['\x7d']] := ⟨[], '\x7d', by decide, rfl⟩
    change EndsSolid (([] :: _ :: _ :: innerLines m.2) ++ [['\x7d']])
    exact hend.append
  have hfront : EndsSolid (frontLines witPath world imported lib.usesHashMap) := by
    unfold frontLines importSection
    -- The last line is that of the last import, of the hash map or of the head.
    rcases List.eq_nil_or_concat imported with rfl | ⟨before, last, rfl⟩
    · rw [if_pos rfl, List.append_nil]
      cases lib.usesHashMap with
      | true => exact hhash.append
      | false => exact (List.append_nil _).symm ▸ hhead
    · have hne : before.concat last ≠ [] := by simp
      rw [if_neg hne, List.concat_eq_append]
      have hnote : EndsSolid ([[], "// Import types from each interface".toList] ++
          (before ++ [last]).map fun m => (importing m).toList) := (himport before last).append
      exact hnote.append
  unfold shownLines
  rcases List.eq_nil_or_concat lib.modules with hnone | ⟨before, last, hlast⟩
  · rwa [hnone, List.flatMap_nil, List.append_nil]
  · rw [hlast, List.concat_eq_append, List.flatMap_append, List.flatMap_singleton]
    exact (hmodule last).append.append

/-- The text of a library is that of its lines. -/
theorem toList_render : (lib.render none witPath world imports).toList =
    unlines (shownLines witPath world (importedModules imports) lib) := by
  obtain ⟨l, c, hc, hlast⟩ : EndsSolid (shownLines witPath world (importedModules imports) lib) :=
    endsSolid_shownLines
  obtain ⟨before, hshown⟩ := List.getLast?_eq_some_iff.1 hlast
  -- Of the blanks at the end all are dropped and one line feed is put back, so no line is lost.
  have htrim (s : List Char) : trimRight (s ++ c :: ['\n', '\n']) = s ++ [c] := by
    have hfeed : isBlank '\n' = true := by decide
    simp [trimRight, hfeed, hc]
  have hfeed : "\n".toList = ['\n'] := by decide
  have hfull : (lib.fullText witPath world (importedModules imports)).toList =
      unlines before ++ l ++ c :: ['\n', '\n'] := by
    rw [toList_fullText, hshown, unlines_append, unlines_cons, unlines_nil]
    simp only [List.append_assoc, List.cons_append, List.nil_append]
  rw [render, closed, String.toList_append, String.toList_ofList, hfull, htrim, hfeed, hshown,
    unlines_append, unlines_cons, unlines_nil]
  simp only [List.append_assoc, List.cons_append, List.nil_append]

end Library

end WitCaller
