import WitCaller.Manifest.Update
import WitCaller.Proofs.Toml.Plain
import WitCaller.Proofs.Toml.Updates

/-!
The text of a dependency, and the document that a manifest holds with it.
-/

namespace WitCaller.Manifest
open Toml Reading
variable {name path : String} {s t z : List Char} {sts : List Statement}

theorem lineEnd_endLine : LineEnd (endLine s) := by
  unfold endLine
  split
  · next h => exact h
  · exact .inr List.getLast?_concat

theorem endLine_of_lineEnd (h : LineEnd s) : endLine s = s := if_pos h

theorem mem_of_endLine {c : Char} (hc : c ≠ '\n') (h : c ∈ endLine s) : c ∈ s := by
  unfold endLine at h
  split at h
  · exact h
  · rcases List.mem_append.1 h with h | h
    · exact h
    · exact absurd (List.mem_singleton.1 h) hc

/-- Complete statements stay complete when their last line is ended. -/
theorem readStatements_endLine (h : readStatements s = some sts) :
    readStatements (endLine s ++ z) = (readStatements z).map (sts ++ ·) := by
  unfold endLine
  split
  · next hs => exact readStatements_append h (.inl hs)
  · rw [List.append_assoc, List.singleton_append, readStatements_append h (.inr ⟨z, rfl⟩),
      readStatements_lineFeed]

/-- The value of a dependency on a path. -/
def pathValue (path : String) : Value := .table [("path", .text path)]

theorem outcome_readValue_path (hp : Plain path.toList) :
    outcome (readValue ("\x7b path = \"".toList ++ path.toList ++ "\" \x7d\n".toList ++ z)) =
      some (pathValue path, '\n' :: z) := by
  have hvalue : outcome (readValue ('\x22' :: (path.toList ++ '\x22' :: ' ' :: '\x7d' :: '\n' :: z))) =
      some (.text path, ' ' :: '\x7d' :: '\n' :: z) := by
    rw [outcome_readValue_plain hp (by simp), String.ofList_toList]
  have hkey : outcome (readKey ("path".toList ++ ' ' :: '=' :: ' ' :: '\x22' ::
      (path.toList ++ '\x22' :: ' ' :: '\x7d' :: '\n' :: z))) = some (["path"], _) :=
    outcome_readKey_bare (List.all_eq_true.1 (by decide)) (by decide) (by rintro c r ⟨⟩; decide) (by rintro r ⟨⟩)
  have hpair : outcome (readPair ("path".toList ++ ' ' :: '=' :: ' ' :: '\x22' ::
      (path.toList ++ '\x22' :: ' ' :: '\x7d' :: '\n' :: z))) =
        some (⟨["path"], .text path⟩, '\x7d' :: '\n' :: z) := by
    rw [outcome_readPair, hkey, Option.bind_some]
    show (outcome (readValue ('\x22' :: _))).map _ = _
    rw [hvalue]
    rfl
  have hpairs : outcome (readPairs true ("path".toList ++ ' ' :: '=' :: ' ' :: '\x22' ::
      (path.toList ++ '\x22' :: ' ' :: '\x7d' :: '\n' :: z))) =
        some ([⟨["path"], .text path⟩], '\n' :: z) := by
    rw [outcome_readPairs (fun _ => by simp), hpair]
    rfl
  have he : "\x7b path = \"".toList ++ path.toList ++ "\" \x7d\n".toList ++ z =
      '\x7b' :: ' ' :: ("path".toList ++ ' ' :: '=' :: ' ' :: '\x22' ::
        (path.toList ++ '\x22' :: ' ' :: '\x7d' :: '\n' :: z)) := by simp
  rw [he, outcome_readValue_table]
  show (outcome (readPairs true ("path".toList ++ _))).bind _ = _
  rw [hpairs]
  rfl

theorem dependencyLine_eq : dependencyLine name path =
    name.toList ++ ' ' :: '=' :: ' ' :: ("\x7b path = \"".toList ++ path.toList ++ "\" \x7d\n".toList) := by
  simp [dependencyLine]

theorem not_mem_bare (hn : ∀ c ∈ name.toList, isBare c) : '\r' ∉ name.toList := fun h => by
  cases hn '\r' h

theorem not_mem_plain (hp : Plain path.toList) : '\r' ∉ path.toList := fun h => by
  cases (hp '\r' h).2.2

theorem not_mem_dependencyLine (hn : ∀ c ∈ name.toList, isBare c) (hp : Plain path.toList) :
    '\r' ∉ dependencyLine name path := by
  simp [dependencyLine_eq, not_mem_bare hn, not_mem_plain hp]

/-- The line of a dependency is a pair. -/
theorem readStatements_dependencyLine (hn : ∀ c ∈ name.toList, isBare c) (hne : name.toList ≠ [])
    (hp : Plain path.toList) : readStatements (dependencyLine name path ++ z) =
      (readStatements z).map (.pair ⟨[name], pathValue path⟩ :: ·) := by
  have hs : skipSpace ("\x7b path = \"".toList ++ path.toList ++ "\" \x7d\n".toList ++ z) =
      "\x7b path = \"".toList ++ path.toList ++ "\" \x7d\n".toList ++ z := rfl
  rw [dependencyLine_eq, List.append_assoc]
  show readStatements (name.toList ++ ' ' :: '=' :: ' ' :: (_ ++ z)) = _
  rw [readStatements_pair hn hne (outcome_readValue_path hp) hs, String.ofList_toList]

theorem outcome_readKey_none {c : Char} {r : List Char} (hb : isBare c = false)
    (hq : c ≠ '\x22' ∧ c ≠ '\x27') : outcome (readKey (c :: r)) = none := by
  have hshort : outcome (readShortText (c :: r)) = none := by
    rw [readShortText.eq_3]
    · rfl
    · rintro _ ⟨⟩
      exact hq.1 rfl
    · rintro _ ⟨⟩
      exact hq.2 rfl
  rw [outcome_readKey, outcome_readKeyPart, rawPart?, if_neg (by rw [hb]; decide), hshort]
  rfl

theorem readStatements_equals {r : List Char} : readStatements (' ' :: '=' :: r) = none := by
  rw [readStatements_eq]
  show (some ('=' :: _)).bind _ = _
  rw [Option.bind_some, if_neg (by simp), outcome_readStatement_pair (by simp), outcome_readPair,
    outcome_readKey_none (by decide) (by decide)]
  rfl

/-- Without a name the line of a dependency is no statement. -/
theorem readStatements_dependencyLine_nil (hn : name.toList = []) :
    readStatements (dependencyLine name path ++ z) = none := by
  rw [dependencyLine_eq, hn]
  exact readStatements_equals

/-- A line that begins with a bare name and an equals sign is a pair with that name. -/
theorem pair_of_readStatements {r : List Char} (hn : ∀ c ∈ name.toList, isBare c)
    (h : readStatements (name.toList ++ ' ' :: '=' :: r) = some sts) :
    ∃ v post, sts = .pair ⟨[name], v⟩ :: post := by
  by_cases hne : name.toList = []
  · rw [hne, List.nil_append, readStatements_equals] at h
    cases h
  have hkey : outcome (readKey (name.toList ++ ' ' :: '=' :: r)) = some ([name], '=' :: r) := by
    have hread : outcome (readKey (name.toList ++ ' ' :: '=' :: r)) =
        some ([String.ofList name.toList], '=' :: r) :=
      outcome_readKey_bare hn hne (by rintro c r ⟨⟩; decide) (by rintro r ⟨⟩)
    rw [hread, String.ofList_toList]
  obtain ⟨c, k, hk⟩ := List.exists_cons_of_ne_nil hne
  obtain ⟨hgap, hhash, hbracket⟩ := not_gap_of_isBare (hn c (hk ▸ List.mem_cons_self))
  rw [hk, List.cons_append] at h hkey
  rw [readStatements_eq, skipGaps_stop hgap hhash, Option.bind_some, if_neg (by simp)] at h
  obtain ⟨⟨st, t⟩, hst, h⟩ := Option.bind_eq_some_iff.1 h
  obtain ⟨_, -, h⟩ := Option.bind_eq_some_iff.1 h
  obtain ⟨post, -, rfl⟩ := Option.map_eq_some_iff.1 h
  rw [outcome_readStatement_pair (by simpa using hbracket)] at hst
  obtain ⟨x, hx, rfl⟩ := onValue_eq_some.1 hst
  rw [outcome_readPair, hkey, Option.bind_some] at hx
  obtain ⟨v, -, he⟩ := Option.map_eq_some_iff.1 hx
  cases he
  exact ⟨_, post, rfl⟩

theorem dependencyTable_eq : dependencyTable name path =
    '\n' :: '[' :: ("dependencies".toList ++ '.' :: (name.toList ++ ']' :: '\n' ::
      ("path".toList ++ ' ' :: '=' :: ' ' :: ('\x22' :: (path.toList ++ '\x22' :: '\n' :: []))))) := by
  simp [dependencyTable]

theorem not_mem_dependencyTable (hn : ∀ c ∈ name.toList, isBare c) (hp : Plain path.toList) :
    '\r' ∉ dependencyTable name path := by
  simp [dependencyTable_eq, not_mem_bare hn, not_mem_plain hp]

theorem outcome_readKey_dependencies : outcome (readKey ("dependencies".toList ++ '.' :: s)) =
    onValue ("dependencies" :: ·) (outcome (readKey (skipSpace s))) := by
  have hpart : outcome (readKeyPart ("dependencies".toList ++ '.' :: s)) =
      some ("dependencies", '.' :: s) :=
    outcome_readKeyPart_bare (List.all_eq_true.1 (by decide)) (by decide) (by rintro c r ⟨⟩; decide)
  rw [outcome_readKey, hpart]
  rfl

theorem readStatements_pathLine (hp : Plain path.toList) :
    readStatements ("path".toList ++ ' ' :: '=' :: ' ' :: ('\x22' :: (path.toList ++ '\x22' :: '\n' :: []))) =
      some [.pair ⟨["path"], .text path⟩] := by
  have hvalue : outcome (readValue ('\x22' :: (path.toList ++ '\x22' :: '\n' :: []))) =
      some (.text path, ['\n']) := by
    rw [outcome_readValue_plain hp (by simp), String.ofList_toList]
  rw [readStatements_pair (List.all_eq_true.1 (by decide)) (by decide) hvalue rfl, readStatements_eq]
  rfl

theorem readStatements_dependencyHeader {r : List Char} (hn : ∀ c ∈ name.toList, isBare c)
    (hne : name.toList ≠ []) : readStatements
      ('\n' :: '[' :: ("dependencies".toList ++ '.' :: (name.toList ++ ']' :: '\n' :: r))) =
        (readStatements r).map (.table ["dependencies", name] :: ·) := by
  have hname : outcome (readKey (skipSpace (name.toList ++ ']' :: '\n' :: r))) =
      some ([name], ']' :: '\n' :: r) := by
    have hkey : outcome (readKey (name.toList ++ ']' :: '\n' :: r)) =
        some ([String.ofList name.toList], ']' :: '\n' :: r) :=
      outcome_readKey_bare hn hne (by rintro c r ⟨⟩; decide) (by rintro r ⟨⟩)
    have hskip : skipSpace (name.toList ++ ']' :: '\n' :: r) = name.toList ++ ']' :: '\n' :: r := by
      obtain ⟨c, k, hk⟩ := List.exists_cons_of_ne_nil hne
      have hc : isSpace c = false := by
        rw [← Bool.not_eq_true]
        exact fun hs => (not_gap_of_isBare (hn c (hk ▸ List.mem_cons_self))).1 (.inl hs)
      rw [hk]
      exact skipSpace_cons hc
    rw [hskip, hkey, String.ofList_toList]
  have hheader : outcome (readStatement
      ('[' :: ("dependencies".toList ++ '.' :: (name.toList ++ ']' :: '\n' :: r)))) =
        some (.table ["dependencies", name], '\n' :: r) := by
    rw [outcome_readStatement_table (by simp), outcome_readHeaderKey]
    show onValue _ ((outcome (readKey ("dependencies".toList ++ _))).bind _) = _
    rw [outcome_readKey_dependencies, hname]
    rfl
  rw [readStatements_lineFeed, readStatements_line (by decide) (by decide) hheader]

/-- The table of a dependency is a header and a pair. -/
theorem readStatements_dependencyTable (hn : ∀ c ∈ name.toList, isBare c) (hne : name.toList ≠ [])
    (hp : Plain path.toList) : readStatements (dependencyTable name path) =
      some [.table ["dependencies", name], .pair ⟨["path"], .text path⟩] := by
  rw [dependencyTable_eq, readStatements_dependencyHeader hn hne, readStatements_pathLine hp]
  rfl

theorem readStatements_dependencyHeader_nil {r : List Char} :
    readStatements ('\n' :: '[' :: ("dependencies".toList ++ '.' :: ']' :: r)) = none := by
  have hkey : outcome (readKey (skipSpace (']' :: r))) = none :=
    outcome_readKey_none (by decide) (by decide)
  have hheader :
      outcome (readStatement ('[' :: ("dependencies".toList ++ '.' :: ']' :: r))) = none := by
    rw [outcome_readStatement_table (by simp), outcome_readHeaderKey]
    show onValue _ ((outcome (readKey ("dependencies".toList ++ _))).bind _) = _
    rw [outcome_readKey_dependencies, hkey]
    rfl
  rw [readStatements_lineFeed, readStatements_eq, skipGaps_stop (by decide) (by decide),
    Option.bind_some, if_neg (by simp), hheader]
  rfl

/-- Without a name the table of a dependency is no statement. -/
theorem readStatements_dependencyTable_nil (hn : name.toList = []) :
    readStatements (dependencyTable name path) = none := by
  rw [dependencyTable_eq, hn]
  exact readStatements_dependencyHeader_nil

end WitCaller.Manifest
