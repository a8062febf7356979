import WitCaller.Proofs.Manifest.MembersText
import WitCaller.Proofs.Manifest.StringEnds

/-!
Strings within a line, as the scan of an array and as the reader of a document take them. They end at
the same quote.
-/

namespace WitCaller.Manifest
open Toml Reading
variable {q : Char} {p r s t x : List Char} {v item : String}

/-- What the readers of the two kinds of strings within a line have in common. -/
structure LineReader (q : Char) (read : List Char → Option (List Char × List Char)) : Prop where
  quote : q = '\x22' ∨ q = '\x27'
  close : ∀ r, read (q :: r) = some ([], r)
  takes : ∀ {s x t}, read s = some (x, t) → Takes Inline read (fun _ => True) x s t
  inLine : ∀ {s x t}, read s = some (x, t) → ReadInLine q s x t
  opened : ∀ r, ¬ [q, q] <+: r → outcome (readText (q :: r)) = read r

theorem lineReader_basic : LineReader '\x22' fun s => outcome (basicTail s) where
  quote := .inl rfl
  close _ := outcome_basicTail_quote
  takes := basicTail_takes
  inLine h := (lineRead_basicTail.1 h).readInLine
  opened _ := outcome_readText_basic

theorem lineReader_literal : LineReader '\x27' fun s => outcome (literalTail s) where
  quote := .inr rfl
  close _ := outcome_literalTail_quote
  takes := literalTail_takes
  inLine h := (lineRead_literalTail.1 h).readInLine
  opened _ := outcome_readText_literal

namespace LineReader
variable {read : List Char → Option (List Char × List Char)}

theorem inline (hr : LineReader q read) (hs : read s = some (x, [])) : Inline s := by
  obtain ⟨p, hp, hinline, -⟩ := hr.takes hs
  rwa [hp, List.append_nil]

theorem append (hr : LineReader q read) (hs : read s = some (x, [])) (t : List Char) :
    read (s ++ t) = some (x, t) := by
  obtain ⟨p, hp, -, hread⟩ := hr.takes hs
  rw [List.append_nil] at hp
  rw [hp]
  exact hread t trivial

/-- Three quotes in a row would need one after the string. -/
theorem not_tripled (hr : LineReader q read) (hs : read s = some (x, [])) (ht : Unquoted t) :
    ¬ [q, q] <+: s ++ t := by
  rintro ⟨r, hqr⟩
  obtain ⟨c, s, rfl⟩ := List.exists_cons_of_ne_nil (hr.inline hs).1
  obtain ⟨rfl, hqr⟩ := List.cons.inj hqr
  rw [hr.close] at hs
  cases hs
  have hhead : t.head? = some q := congrArg List.head? (List.cons.inj hqr).2.symm
  rcases hr.quote with rfl | rfl
  · exact ht.1 hhead
  · exact ht.2 hhead

theorem exists_body (hr : LineReader q read) (hs : read s = some (x, [])) :
    ∃ p, s = p ++ [q] ∧ LineBody q p := by
  obtain ⟨p, rfl, hp, -⟩ := hr.inLine hs
  exact ⟨p, rfl, hp⟩

theorem splitString (hr : LineReader q read) (hs : read s = some (x, [])) (ht : Unquoted t) :
    Manifest.splitString q (s ++ t) = some (q :: s, t) := by
  obtain ⟨p, rfl, hp⟩ := hr.exists_body hs
  have hquote : t.head? ≠ some q := by
    rcases hr.quote with rfl | rfl
    · exact ht.1
    · exact ht.2
  obtain ⟨r, front, hr, hfront, hsplit⟩ := splitString_literal (.line hr.quote hp) hquote
  obtain rfl := (List.cons.inj hr).2
  rw [hsplit, hfront]
  simp

theorem readValue (hr : LineReader q read) (hs : read s = some (x, [])) (ht : Unquoted t) :
    outcome (readValue (q :: (s ++ t))) = some (.text (String.ofList x), t) := by
  rw [outcome_readValue_text hr.quote, hr.opened _ (hr.not_tripled hs ht), hr.append hs]
  rfl

end LineReader

/-- A string within a line, as it stands in a document, and what it says. -/
inductive LineString : String → List Char → Prop where
  | basic {s x : List Char} (h : outcome (basicTail s) = some (x, [])) :
      LineString (String.ofList x) ('\x22' :: s)
  | literal {s x : List Char} (h : outcome (literalTail s) = some (x, [])) :
      LineString (String.ofList x) ('\x27' :: s)

theorem LineString.reader (h : LineString v p) : ∃ q read s x, LineReader q read ∧
    read s = some (x, []) ∧ v = String.ofList x ∧ p = q :: s := by
  cases h with
  | basic h => exact ⟨_, _, _, _, lineReader_basic, h, rfl, rfl⟩
  | literal h => exact ⟨_, _, _, _, lineReader_literal, h, rfl, rfl⟩

theorem lineString_quoted (hitem : Plain item.toList) : LineString item (quoted item []) := by
  have h := LineString.basic (outcome_basicTail_plain (t := []) hitem)
  rwa [String.ofList_toList] at h

/-- A string ends in the quote that it begins with, and stays within its line. -/
theorem LineString.ends (h : LineString v p) : ∃ q, (q = '\x22' ∨ q = '\x27') ∧ p.head? = some q ∧
    p.getLast? = some q ∧ '\n' ∉ p := by
  obtain ⟨q, read, s, x, hr, hs, -, rfl⟩ := h.reader
  have hline := (hr.inline hs).2
  obtain ⟨p, rfl, -⟩ := hr.exists_body hs
  refine ⟨q, hr.quote, rfl, by simp [List.getLast?_cons], ?_⟩
  rw [List.mem_cons, not_or]
  refine ⟨?_, hline⟩
  rintro rfl
  exact absurd hr.quote (by decide)

theorem LineString.ne_nil (h : LineString v p) : p ≠ [] := by
  rintro rfl
  obtain ⟨q, -, hhead, -⟩ := h.ends
  cases hhead

theorem LineString.readValue (h : LineString v p) (ht : Unquoted t) :
    outcome (readValue (p ++ t)) = some (.text v, t) := by
  obtain ⟨q, read, s, x, hr, hs, rfl, rfl⟩ := h.reader
  exact hr.readValue hs ht

theorem LineString.scan (h : LineString v p) (ht : Unquoted t) :
    scanArray 0 (p ++ t) = (scanArray 0 t).map (ArrayText.token p) := by
  obtain ⟨q, read, s, x, hr, hs, -, rfl⟩ := h.reader
  exact scanArray_string hr.quote (hr.splitString hs ht)

end WitCaller.Manifest
