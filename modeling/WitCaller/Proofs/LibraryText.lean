import WitCaller.Proofs.Blanks
import WitCaller.Rust.Library

/-!
The text of a library with the built-in template: it starts with the name of its world, and shows the
block of each module.
-/

namespace WitCaller

namespace Library
open Text
variable {lib : Library} {witPath world name body : String} {imports : List String}
  {modules : List (String × String)}

/-- Nothing before a character that is no blank is trimmed away. -/
theorem prefix_closed {text : String} {y : Char} (hy : isBlank y = false) {xs zs : List Char}
    (h : text.toList = xs ++ y :: zs) : xs ++ [y] <+: (closed text).toList := by
  rw [closed, String.toList_append, String.toList_ofList, h, trimRight_append_cons hy]
  exact ⟨trimRight zs ++ _, by rw [List.append_assoc, List.append_assoc]; rfl⟩

/-- The start of a library, up to the name of its world. -/
def opening (witPath : String) : String :=
  "wit_bindgen::generate!(\x7b\n" ++ "    path: \"" ++ witPath ++ "\",\n" ++ "    world: \""

theorem opening_fullText {imported : List String} : ∃ zs, (lib.fullText witPath world imported).toList =
    ((opening witPath).toList ++ world.toList) ++ '"' :: zs := by
  have hline : "\",\n".toList = ['"', ',', '\n'] := by decide
  unfold fullText head opening
  simp only [String.toList_append, List.append_assoc, hline]
  exact ⟨_, rfl⟩

/-- A library names its world. -/
theorem opening_prefix_render : (opening witPath).toList ++ (world.toList ++ ['"']) <+:
    (lib.render none witPath world imports).toList := by
  obtain ⟨zs, hzs⟩ : ∃ zs, (lib.fullText witPath world (importedModules imports)).toList =
      ((opening witPath).toList ++ world.toList) ++ '"' :: zs := opening_fullText
  rw [← List.append_assoc]
  exact prefix_closed (by decide) hzs

theorem render_ne_of_world {lib' : Library} {world' : String} {imports' : List String}
    (h : ¬ world.toList ++ ['"'] <+: world'.toList ++ ['"'])
    (h' : ¬ world'.toList ++ ['"'] <+: world.toList ++ ['"']) :
    lib.render none witPath world imports ≠ lib'.render none witPath world' imports' := by
  intro he
  have hp : _ <+: (lib.render none witPath world imports).toList := opening_prefix_render
  have hp' : _ <+: (lib'.render none witPath world' imports').toList := opening_prefix_render
  rw [he] at hp
  -- Both names start the same text after the opening, so one of them starts the other.
  rcases List.prefix_or_prefix_of_prefix hp hp' with hpre | hpre
  · exact h ((List.prefix_append_right_inj _).1 hpre)
  · exact h' ((List.prefix_append_right_inj _).1 hpre)

/-- A library with the built-in template is not the one that an empty template gives. -/
theorem render_ne_of_empty {lib' : Library} {witPath' world' : String} {imports' : List String} :
    lib.render none witPath world imports ≠ lib'.render (some [.text ""]) witPath' world' imports' := by
  intro he
  have hempty : lib'.render (some [.text ""]) witPath' world' imports' = "\n" := by
    have hfill (values : List (String × String)) : Template.fill values [.text ""] = "" := rfl
    rw [render, hfill]
    decide
  have hp : _ <+: (lib.render none witPath world imports).toList := opening_prefix_render
  rw [he, hempty] at hp
  -- The opening alone is longer than that.
  have hlen := hp.length_le
  unfold opening at hlen
  simp at hlen

/-- The block of a module. -/
def moduleBlock (m : String × String) : String :=
  "/// Generated RPC stubs for the " ++ m.1 ++ " interface\n" ++ "pub mod " ++ m.1 ++ " \x7b\n" ++
  "    use crate::*;\n\n" ++ indented m.2 ++ "\n\x7d"

theorem moduleText_eq {m : String × String} :
    (moduleText m.1 m.2).toList = (moduleBlock m).toList ++ ['\n', '\n'] := by
  have hend : "\x7d\n\n".toList = ['\x7d', '\n', '\n'] := by decide
  have hlast : "\n\x7d".toList = "\n".toList ++ ['\x7d'] := by decide
  unfold moduleText moduleBlock
  simp only [String.toList_append, List.append_assoc, hend, hlast]
  rfl

/-- A library shows the block of each module. -/
theorem block_infix_render {m : String × String} (hm : m ∈ lib.modules) :
    (moduleBlock m).toList <:+: (lib.render none witPath world imports).toList := by
  obtain ⟨before, after, hmodules⟩ := List.append_of_mem hm
  obtain ⟨front, hblock⟩ : ∃ front, (moduleBlock m).toList = front ++ ['\x7d'] := by
    have hlast : "\n\x7d".toList = "\n".toList ++ ['\x7d'] := by decide
    unfold moduleBlock
    simp only [String.toList_append, hlast]
    exact ⟨_, (List.append_assoc ..).symm⟩
  obtain ⟨start, hstart⟩ : ∃ start : String, lib.fullText witPath world (importedModules imports) =
      start ++ String.join (lib.modules.map fun m => moduleText m.1 m.2) := ⟨_, rfl⟩
  let text (modules : List (String × String)) : List Char :=
    (modules.map fun m => moduleText m.1 m.2).flatMap String.toList
  have hfull : (lib.fullText witPath world (importedModules imports)).toList =
      ((start.toList ++ text before) ++ front) ++ '\x7d' :: ('\n' :: '\n' :: text after) := by
    rw [hstart, String.toList_append, String.toList_join, hmodules, List.map_append, List.map_cons,
      List.flatMap_append, List.flatMap_cons, moduleText_eq, hblock]
    simp only [text, List.append_assoc, List.cons_append, List.nil_append]
  have hshown : _ <+: (lib.render none witPath world imports).toList := prefix_closed (by decide) hfull
  rw [List.append_assoc, ← hblock] at hshown
  exact (List.suffix_append _ _).isInfix.trans hshown.isInfix

end Library

end WitCaller
