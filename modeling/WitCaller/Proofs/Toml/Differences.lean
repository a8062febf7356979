import WitCaller.Proofs.Toml.Cuts
import WitCaller.Proofs.Toml.Updates

/-!
Two texts with the same lines at the front. Where these are complete statements, both texts have
them; where they are not, the lines end within a string of a value, and the values differ in it.
-/

namespace WitCaller.Toml
open Reading
variable {α : Type} {a : α} {u w w' s t t' r : List Char} {v v' : Value} {vs vs' : List Value}
  {ps ps' : List Pair} {x x' : Pair} {c : Char}

/-- Texts that continue a string in different ways, the second of which continues no array. -/
structure Parted (w w' : List Char) : Prop where
  tails : ∀ {read}, LongTail read → ∀ {x t x' t'}, read w = some (x, t) → read w' = some (x', t') → x ≠ x'
  item : ∀ {c r}, skipGaps false w' = some (c :: r) →
    c ≠ ',' ∧ c ≠ ']' ∧ outcome (readItem (c :: r)) = none

/-- Values with different texts at the same place. -/
def Value.Differ (v v' : Value) : Prop :=
  ∃ p x x', v.at? p = some (.text x) ∧ v'.at? p = some (.text x') ∧ x ≠ x'

/-- Lists with items at the same place that differ. -/
def DifferItems (vs vs' : List Value) : Prop :=
  ∃ (i : Nat) (v v' : Value), vs[i]? = some v ∧ vs'[i]? = some v' ∧ v.Differ v'

def DifferPair (x x' : Pair) : Prop := x.key = x'.key ∧ x.value.Differ x'.value

/-- Lists of pairs that are the same up to a pair with another value. -/
def DifferPairs (ps ps' : List Pair) : Prop :=
  ∃ before x x' post post', ps = before ++ x :: post ∧ ps' = before ++ x' :: post' ∧ DifferPair x x'

theorem DifferItems.array (h : DifferItems vs vs') : (Value.array vs).Differ (.array vs') := by
  obtain ⟨i, v, v', hi, hi', p, x, x', hx, hx', hne⟩ := h
  refine ⟨.item i :: p, x, x', ?_, ?_, hne⟩
  · rw [Value.at?, hi, Option.bind_some, hx]
  · rw [Value.at?, hi', Option.bind_some, hx']

theorem DifferItems.cons (h : DifferItems vs vs') : DifferItems (v :: vs) (v :: vs') := by
  obtain ⟨i, y, y', hi, hi', hd⟩ := h
  exact ⟨i + 1, y, y', hi, hi', hd⟩

theorem DifferItems.head (h : v.Differ v') : DifferItems (v :: vs) (v' :: vs') :=
  ⟨0, v, v', rfl, rfl, h⟩

theorem DifferPairs.cons (h : DifferPairs ps ps') : DifferPairs (x :: ps) (x :: ps') := by
  obtain ⟨before, y, y', post, post', rfl, rfl, hd⟩ := h
  exact ⟨x :: before, y, y', post, post', rfl, rfl, hd⟩

theorem DifferPairs.head (h : DifferPair x x') : DifferPairs (x :: ps) (x' :: ps') :=
  ⟨[], x, x', ps, ps', rfl, rfl, h⟩

theorem Inside.eq_of_some {read : List Char → Option (α × List Char)} {a' : α}
    (h : Inside read u a) (hr : read (u ++ w) = some (a', t)) :
    a' = a ∧ ∃ r, r ≠ [] ∧ LineEnd r ∧ t = r ++ w ∧ ∀ z, read (u ++ z) = some (a, r ++ z) := by
  obtain ⟨r, hne, hl, hz⟩ := h
  cases (hz w).symm.trans hr
  exact ⟨rfl, r, hne, hl, rfl, hz⟩

/-- What has stopped a value before the end of a line stops it whatever follows the line. -/
theorem Stop.of_lineEnd {z : List Char} (h : Stop (r ++ w)) (hr : LineEnd r) (hne : r ≠ []) :
    Stop (r ++ z) := by
  obtain ⟨c, r, rfl⟩ := List.exists_cons_of_ne_nil hne
  rintro _ _ ⟨⟩
  obtain ⟨hgo, hq⟩ := h c (r ++ w) rfl
  refine ⟨?_, hq⟩
  by_cases hc : c = '\n'
  · subst hc
    rfl
  · obtain ⟨d, r, rfl⟩ := List.exists_cons_of_ne_nil (hr.tail hc).2
    exact hgo

theorem skipSpace_lineEnd (hu : LineEnd u) (hne : u ≠ []) :
    (∀ z, skipSpace (u ++ z) = skipSpace u ++ z) ∧ skipSpace u ≠ [] ∧ LineEnd (skipSpace u) := by
  obtain ⟨p, hp, hs⟩ := skipSpace_split u
  have hne' : skipSpace u ≠ [] := by
    intro hnil
    rw [hnil, List.append_nil] at hs
    exact not_lineFeed_of_isSpace hp (hs ▸ hu.mem hne)
  refine ⟨fun z => ?_, hne', (hs ▸ hu).of_append⟩
  obtain ⟨c, r, hr⟩ := List.exists_cons_of_ne_nil hne'
  rw [hr] at hs ⊢
  rw [hs, List.append_assoc, skipSpace_append hp]
  exact skipSpace_cons (head_of_skipSpace hr)

theorem differ_readText {y y' : List Char} (hw : Parted w w') (hu : LineEnd u) (hne : u ≠ [])
    (h : outcome (readText (u ++ w)) = some (y, t)) (h' : outcome (readText (u ++ w')) = some (y', t')) :
    Inside (fun s => outcome (readText s)) u y ∨ y ≠ y' := by
  rcases readText_cut hu hne with ⟨x, hx⟩ | hn | ⟨g, read, hread, hz⟩
  · obtain ⟨rfl, -⟩ := hx.eq_of_some h
    exact .inl hx
  · exact absurd ((hn w).symm.trans h) (by simp)
  · right
    obtain ⟨z, hz₁, rfl⟩ := onValue_eq_some.1 ((hz w).symm.trans h)
    obtain ⟨z', hz₂, rfl⟩ := onValue_eq_some.1 ((hz w').symm.trans h')
    exact fun he => hw.tails hread hz₁ hz₂ (List.append_cancel_left he)

theorem Inside.map {β : Type} {read : List Char → Option (α × List Char)}
    {read' : List Char → Option (β × List Char)} {f : α → β} {p : List Char} (h : Inside read u a)
    (hread : ∀ z, read' (p ++ (u ++ z)) = onValue f (read (u ++ z))) : Inside read' (p ++ u) (f a) := by
  obtain ⟨r, hne, hl, hz⟩ := h
  refine ⟨r, hne, hl, fun z => ?_⟩
  rw [List.append_assoc, hread, hz]
  rfl

open Assoc Entries

theorem Value.Differ.mono {v₁ v₁' : Value} (h : v.Differ v') (hv : v.TextsIn v₁)
    (hv' : v'.TextsIn v₁') : v₁.Differ v₁' := by
  obtain ⟨p, x, x', hx, hx', hne⟩ := h
  exact ⟨p, x, x', hv p x hx, hv' p x' hx', hne⟩

theorem at?_table {t : Table} {k : String} {p : List Step} (h : get? k t = some v) :
    (Value.table t).at? (.key k :: p) = v.at? p := by
  rw [Value.at?, h, Option.bind_some]

/-- A dotted key leads to its value. -/
theorem at?_put {n : Nat} {ks : List String} {es o : Entries} (h : put n v ks es = some o)
    (p : List Step) : (Value.table (finishAll o)).at? (ks.map .key ++ p) = v.at? p := by
  induction ks generalizing es o with
  | nil => cases h
  | cons k ks ih =>
    cases ks with
    | nil =>
      obtain ⟨-, rfl⟩ := Construction.put_eq_some h
      refine at?_table ?_
      rw [get?_finishAll, get?_insert_self]
      rfl
    | cons k' ks =>
      have hsub : ∃ es₁ sub, put n v (k' :: ks) es₁ = some sub ∧ o = Assoc.insert k (.table (some n) sub) es := by
        simp only [put] at h
        split at h
        · obtain ⟨sub, hs, h⟩ := Option.bind_eq_some_iff.1 h
          cases h
          exact ⟨_, sub, hs, rfl⟩
        · split at h
          · obtain ⟨sub, hs, h⟩ := Option.bind_eq_some_iff.1 h
            cases h
            exact ⟨_, sub, hs, rfl⟩
          · cases h
        · cases h
      obtain ⟨es₁, sub, hs, rfl⟩ := hsub
      have hk : get? k (finishAll (Assoc.insert k (.table (some n) sub) es)) =
          some (.table (finishAll sub)) := by
        rw [get?_finishAll, get?_insert_self]
        rfl
      exact (at?_table hk).trans (ih hs)

theorem differ_put {n : Nat} {es o o' : Entries} (hd : DifferPair x x')
    (h : put n x.value x.key es = some o) (h' : put n x'.value x'.key es = some o') :
    (Value.table (finishAll o)).Differ (.table (finishAll o')) := by
  obtain ⟨hk, p, y, y', hy, hy', hne⟩ := hd
  refine ⟨x.key.map .key ++ p, y, y', ?_, ?_, hne⟩
  · rw [at?_put h, hy]
  · rw [hk, at?_put h', hy']

theorem textsIn_foldlM {β : Type} {f : Entries → β → Option Entries}
    (hf : ∀ b, Chain fun es => f es b) {l : List β} {es o : Entries} (h : l.foldlM f es = some o) :
    (Value.table (finishAll es)).TextsIn (.table (finishAll o)) := by
  induction l generalizing es with
  | nil =>
    cases h
    exact .refl
  | cons b l ih =>
    rw [List.foldlM_cons] at h
    obtain ⟨es₁, h₁, h⟩ := Option.bind_eq_some_iff.1 h
    exact ((hf b).textsIn h₁).trans (ih h)

theorem textsIn_run {sts : List Statement} {c d : Construction}
    (h : sts.foldlM Construction.add c = some d) :
    (Value.table (finishAll c.root)).TextsIn (.table (finishAll d.root)) := by
  induction sts generalizing c with
  | nil =>
    cases h
    exact .refl
  | cons st sts ih =>
    obtain ⟨c₁, h₁, h⟩ := foldlM_cons_eq_some h
    rw [Construction.add_eq] at h₁
    obtain ⟨o, ho, rfl⟩ := Option.map_eq_some_iff.1 h₁
    exact ((Construction.chain_change _ _ _).textsIn ho).trans (ih h)

theorem DifferPairs.inlineTable {e e' : Table} (hd : DifferPairs ps ps')
    (h : inlineTable ps = some e) (h' : inlineTable ps' = some e') :
    (Value.table e).Differ (.table e') := by
  obtain ⟨before, x, x', post, post', rfl, rfl, hx⟩ := hd
  obtain ⟨o, ho, rfl⟩ := Option.map_eq_some_iff.1 h
  obtain ⟨o', ho', rfl⟩ := Option.map_eq_some_iff.1 h'
  rw [List.foldlM_append] at ho ho'
  obtain ⟨es, hes, ho⟩ := Option.bind_eq_some_iff.1 ho
  obtain ⟨_, hes', ho'⟩ := Option.bind_eq_some_iff.1 ho'
  cases hes.symm.trans hes'
  rw [List.foldlM_cons] at ho ho'
  obtain ⟨o₁, h₁, ho⟩ := Option.bind_eq_some_iff.1 ho
  obtain ⟨o₁', h₁', ho'⟩ := Option.bind_eq_some_iff.1 ho'
  have hchain (p : Pair) : Chain fun es => put 0 p.value p.key es := chain_put _ _ _
  exact (differ_put hx h₁ h₁').mono (textsIn_foldlM hchain ho) (textsIn_foldlM hchain ho')

mutual

theorem differ_readValue {u t t' : List Char} {v v' : Value} (hw : Parted w w') (hu : LineEnd u)
    (hne : u ≠ []) (hs : Stop t) (h : outcome (readValue (u ++ w)) = some (v, t))
    (h' : outcome (readValue (u ++ w')) = some (v', t')) :
    Inside (fun s => outcome (readValue s)) u v ∨ v.Differ v' := by
  rcases huc : u with _ | ⟨c, r⟩
  · exact absurd huc hne
  have hlt : r.length < u.length := by
    rw [huc]
    exact Nat.lt_succ_self _
  rw [huc] at h h' hu
  simp only [List.cons_append] at h h'
  by_cases hq : c = '\x22' ∨ c = '\x27'
  · rw [outcome_readValue_text hq] at h h'
    obtain ⟨y, hy, rfl⟩ := onValue_eq_some.1 h
    obtain ⟨y', hy', rfl⟩ := onValue_eq_some.1 h'
    rcases differ_readText hw hu (by simp) hy hy' with hi | hd
    · obtain ⟨r', hne', hl, hz⟩ := hi
      refine .inl ⟨r', hne', hl, fun z => ?_⟩
      show outcome (readValue (c :: (r ++ z))) = _
      rw [outcome_readValue_text hq]
      exact onValue_eq_some.2 ⟨y, hz z, rfl⟩
    · exact .inr ⟨[], _, _, rfl, rfl, fun he => hd (String.ofList_injective he)⟩
  by_cases ha : c = '['
  · subst ha
    rw [outcome_readValue_array] at h h'
    obtain ⟨vs, hvs, rfl⟩ := onValue_eq_some.1 h
    obtain ⟨vs', hvs', rfl⟩ := onValue_eq_some.1 h'
    obtain ⟨hr, hrne⟩ := hu.tail (by decide)
    rcases differ_readItems hw hr hvs hvs' with hi | hd
    · exact .inl (hi.map (p := ['[']) fun z => outcome_readValue_array)
    · exact .inr hd.array
  by_cases hb : c = '\x7b'
  · subst hb
    obtain ⟨hr, hrne⟩ := hu.tail (by decide)
    obtain ⟨hskip, hne', hl'⟩ := skipSpace_lineEnd hr hrne
    rw [outcome_readValue_table, hskip] at h h'
    obtain ⟨⟨ps, t₁⟩, hps, h⟩ := Option.bind_eq_some_iff.1 h
    obtain ⟨e, he, h⟩ := Option.map_eq_some_iff.1 h
    obtain ⟨⟨ps', t₁'⟩, hps', h'⟩ := Option.bind_eq_some_iff.1 h'
    obtain ⟨e', he', h'⟩ := Option.map_eq_some_iff.1 h'
    cases h
    cases h'
    rcases differ_readPairs hw hl' hne' hps hps' with hi | hd
    · obtain ⟨r', hne₁, hl₁, hz⟩ := hi
      refine .inl ⟨r', hne₁, hl₁, fun z => ?_⟩
      have hread : outcome (readPairs true (skipSpace r ++ z)) = _ := hz z
      show outcome (readValue ('\x7b' :: (r ++ z))) = _
      rw [outcome_readValue_table, hskip, hread, Option.bind_some, he]
      rfl
    · exact .inr (hd.inlineTable he he')
  · left
    have ho : ¬ Opens c := fun ho => ho.elim hq fun ho => ho.elim ha hb
    rw [outcome_readValue_scalar ho] at h
    obtain ⟨p, hp, hinline, hread⟩ := readScalar_takes h
    obtain ⟨r', hr', hne', hl, rfl⟩ := hu.of_front (by simp) hp hinline.2
    refine ⟨r', hne', hl, fun z => ?_⟩
    have hz : outcome (readScalar (p ++ (r' ++ z))) = _ := hread _ (hs.of_lineEnd hl hne')
    rw [← List.append_assoc, ← hr'] at hz
    exact (outcome_readValue_scalar ho).trans hz
termination_by 3 * u.length
decreasing_by
  · exact rank_lt 2 0 hlt (by decide)
  · exact rank_lt 1 0 (Nat.lt_of_le_of_lt (length_skipSpace_le _) hlt) (by decide)

theorem differ_readItems {u t t' : List Char} {vs vs' : List Value} (hw : Parted w w')
    (hu : LineEnd u) (h : outcome (readItems (u ++ w)) = some (vs, t))
    (h' : outcome (readItems (u ++ w')) = some (vs', t')) :
    Inside (fun s => outcome (readItems s)) u vs ∨ DifferItems vs vs' := by
  obtain ⟨c, r, hgap, hcase⟩ := readItems_eq_some.1 h
  obtain ⟨c', r', hgap', hcase'⟩ := readItems_eq_some.1 h'
  rcases skipGaps_lineEnd hu with hg | ⟨g, c, v, hug, hg, hz⟩ | hn
  · -- No item is in the lines, and the second text has none after them.
    rw [hg] at hgap'
    obtain ⟨-, hc, hitem⟩ := hw.item hgap'
    rcases hcase' with ⟨hc', -⟩ | ⟨-, hitem'⟩
    · exact absurd hc' hc
    · rw [hitem] at hitem'
      cases hitem'
  · cases (hz w).symm.trans hgap
    cases (hz w').symm.trans hgap'
    have hv : LineEnd (c :: v) := (hug ▸ hu).of_append
    rcases hcase with ⟨rfl, rfl, rfl⟩ | ⟨hc, hitem⟩
    · obtain ⟨hl, hne⟩ := hv.tail (by decide)
      exact .inl ⟨v, hne, hl, fun z => readItems_eq_some.2 ⟨_, _, hz z, .inl ⟨rfl, rfl, rfl⟩⟩⟩
    · have hitem' := (hcase'.resolve_left fun h => hc h.1).2
      have hle : (c :: v).length ≤ u.length := by
        rw [hug, List.length_append]
        omega
      rcases differ_readItem hw hv (by simp) hitem hitem' with ⟨r, hne, hl, hr⟩ | hd
      · exact .inl ⟨r, hne, hl, fun z => readItems_eq_some.2 ⟨_, _, hz z, .inr ⟨hc, hr z⟩⟩⟩
      · exact .inr hd
  · rw [hn] at hgap
    cases hgap
termination_by 3 * u.length + 2
decreasing_by exact rank_le 1 hle

theorem differ_readItem {u t t' : List Char} {vs vs' : List Value} (hw : Parted w w')
    (hu : LineEnd u) (hne : u ≠ []) (h : outcome (readItem (u ++ w)) = some (vs, t))
    (h' : outcome (readItem (u ++ w')) = some (vs', t')) :
    Inside (fun s => outcome (readItem s)) u vs ∨ DifferItems vs vs' := by
  obtain ⟨v, vs₁, t₁, rfl, hv, hafter⟩ := readItem_eq_some.1 h
  obtain ⟨v', vs₁', t₁', rfl, hv', hafter'⟩ := readItem_eq_some.1 h'
  rcases differ_readValue hw hu hne hafter.stop hv hv' with hi | hd
  · obtain ⟨-, r, -, hl, rfl, hz⟩ := hi.eq_of_some hv
    cases hv'.symm.trans (hz w')
    have hlt : r.length < u.length := by simpa using length_lt_of_outcome hv
    rcases differ_afterItem hw hl hafter hafter' with ⟨r₂, hne₂, hl₂, hz₂⟩ | hd
    · exact .inl ⟨r₂, hne₂, hl₂, fun z => readItem_eq_some.2 ⟨_, vs₁, _, rfl, hz z, hz₂ z⟩⟩
    · exact .inr hd.cons
  · exact .inr (.head hd)
termination_by 3 * u.length + 1
decreasing_by
  · exact Nat.lt_succ_self _
  · exact rank_lt 0 1 hlt (by decide)

theorem differ_afterItem {u t t' : List Char} {vs vs' : List Value} (hw : Parted w w')
    (hu : LineEnd u) (h : AfterItem (u ++ w) vs t) (h' : AfterItem (u ++ w') vs' t') :
    (∃ r, r ≠ [] ∧ LineEnd r ∧ ∀ z, AfterItem (u ++ z) vs (r ++ z)) ∨ DifferItems vs vs' := by
  rcases skipGaps_lineEnd hu with hg | ⟨g, c, v, hug, -, hz⟩ | hn
  · cases h' with
    | comma hgap => exact absurd rfl (hw.item ((hg w').symm.trans hgap)).1
    | close hgap => exact absurd rfl (hw.item ((hg w').symm.trans hgap)).2.1
  · have hv : LineEnd (c :: v) := (hug ▸ hu).of_append
    cases h with
    | comma hgap hvs =>
      cases (hz w).symm.trans hgap
      cases h' with
      | comma hgap' hvs' =>
        cases (hz w').symm.trans hgap'
        have hlt : v.length < u.length := by
          rw [hug, List.length_append, List.length_cons]
          omega
        rcases differ_readItems hw (hv.tail (by decide)).1 hvs hvs' with ⟨r, hne, hl, hr⟩ | hd
        · exact .inl ⟨r, hne, hl, fun z => .comma (hz z) (hr z)⟩
        · exact .inr hd
      | close hgap' => cases (hz w').symm.trans hgap'
    | close hgap =>
      cases (hz w).symm.trans hgap
      obtain ⟨hl, hne⟩ := hv.tail (by decide)
      exact .inl ⟨v, hne, hl, fun z => .close (hz z)⟩
  · cases h with
    | comma hgap => cases (hn w).symm.trans hgap
    | close hgap => cases (hn w).symm.trans hgap
termination_by 3 * u.length
decreasing_by exact rank_lt 2 0 hlt (by decide)

theorem differ_readPairs {first : Bool} {u t t' : List Char} {ps ps' : List Pair} (hw : Parted w w')
    (hu : LineEnd u) (hne : u ≠ []) (h : outcome (readPairs first (u ++ w)) = some (ps, t))
    (h' : outcome (readPairs first (u ++ w')) = some (ps', t')) :
    Inside (fun s => outcome (readPairs first s)) u ps ∨ DifferPairs ps ps' := by
  have hhead (z : List Char) : (u ++ z).head? = u.head? := by
    obtain ⟨c, r, rfl⟩ := List.exists_cons_of_ne_nil hne
    rfl
  rcases readPairs_eq_some.1 h with ⟨rfl, hs, rfl⟩ | ⟨hopen, x, ps₁, t₁, rfl, hx, hafter⟩
  · obtain ⟨c, r, rfl⟩ := List.exists_cons_of_ne_nil hne
    cases (List.cons.inj hs).1
    obtain ⟨hl, hrne⟩ := hu.tail (by decide)
    exact .inl ⟨r, hrne, hl, fun _ => outcome_readPairs_close⟩
  have hopen' (z : List Char) : first = true → (u ++ z).head? ≠ some '\x7d' := by
    rw [hhead] at hopen ⊢
    exact hopen
  rcases readPairs_eq_some.1 h' with ⟨hf, hs, -⟩ | ⟨-, x', ps₁', t₁', rfl, hx', hafter'⟩
  · exact absurd (congrArg List.head? hs) (hopen' w' hf)
  rcases differ_readPair hw hu hne hafter.pairEnd hx hx' with hi | hd
  · obtain ⟨-, r, hrne, hl, rfl, hz⟩ := hi.eq_of_some hx
    cases hx'.symm.trans (hz w')
    have hlt : r.length < u.length := by simpa using length_lt_of_outcome hx
    rcases differ_afterPair hw hl hrne hafter hafter' with ⟨r₂, hne₂, hl₂, hz₂⟩ | hd
    · exact .inl ⟨r₂, hne₂, hl₂, fun z =>
        readPairs_eq_some.2 (.inr ⟨hopen' z, _, ps₁, _, rfl, hz z, hz₂ z⟩)⟩
    · exact .inr hd.cons
  · exact .inr (.head hd)
termination_by 3 * u.length + 1
decreasing_by
  · exact Nat.lt_succ_self _
  · exact rank_lt 0 1 hlt (by decide)

theorem differ_afterPair {u t t' : List Char} {ps ps' : List Pair} (hw : Parted w w')
    (hu : LineEnd u) (hne : u ≠ []) (h : AfterPair (u ++ w) ps t) (h' : AfterPair (u ++ w') ps' t') :
    (∃ r, r ≠ [] ∧ LineEnd r ∧ ∀ z, AfterPair (u ++ z) ps (r ++ z)) ∨ DifferPairs ps ps' := by
  rcases huc : u with _ | ⟨c, v⟩
  · exact absurd huc hne
  have hlt : (skipSpace v).length < u.length := by
    rw [huc]
    exact Nat.lt_succ_of_le (length_skipSpace_le v)
  rw [huc] at hu h h'
  simp only [List.cons_append] at h h'
  cases h with
  | comma hps =>
    cases h' with
    | comma hps' =>
      obtain ⟨hv, hvne⟩ := hu.tail (by decide)
      obtain ⟨hskip, hne₂, hl₂⟩ := skipSpace_lineEnd hv hvne
      rw [hskip] at hps hps'
      rcases differ_readPairs hw hl₂ hne₂ hps hps' with ⟨r, hrne, hl, hr⟩ | hd
      · refine .inl ⟨r, hrne, hl, fun z => .comma ?_⟩
        rw [List.append_eq, hskip]
        exact hr z
      · exact .inr hd
  | close =>
    obtain ⟨hl, hvne⟩ := hu.tail (by decide)
    exact .inl ⟨v, hvne, hl, fun z => .close⟩
termination_by 3 * u.length
decreasing_by exact rank_lt 1 0 hlt (by decide)

theorem differ_readPair {u t t' : List Char} {x x' : Pair} (hw : Parted w w') (hu : LineEnd u)
    (hne : u ≠ []) (hs : PairEnd t) (h : outcome (readPair (u ++ w)) = some (x, t))
    (h' : outcome (readPair (u ++ w')) = some (x', t')) :
    Inside (fun s => outcome (readPair s)) u x ∨ DifferPair x x' := by
  obtain ⟨r, t₁, hk, hv, rfl⟩ := readPair_eq_some.1 h
  obtain ⟨r', t₁', hk', hv', rfl⟩ := readPair_eq_some.1 h'
  obtain ⟨p, hp, hinline, hkey⟩ := readKey_takes hk
  obtain ⟨r₁, hup, hne₁, hl₁, hr₁⟩ := hu.of_front hne hp hinline.2
  obtain ⟨c, r₂, rfl⟩ := List.exists_cons_of_ne_nil hne₁
  obtain ⟨rfl, rfl⟩ := List.cons.inj hr₁
  have hkey' (z : List Char) : outcome (readKey (u ++ z)) = some (x.key, '=' :: (r₂ ++ z)) := by
    rw [hup, List.append_assoc]
    exact hkey _ (keyEnd_cons (by decide) (by decide) (by decide))
  obtain ⟨hkeys, hr'⟩ := Prod.mk.inj (Option.some.inj (hk'.symm.trans (hkey' w')))
  obtain ⟨-, rfl⟩ := List.cons.inj hr'
  obtain ⟨hskip, hne₂, hl₂⟩ := skipSpace_lineEnd (hl₁.tail (by decide)).1 (hl₁.tail (by decide)).2
  have hlt : (skipSpace r₂).length < u.length := by
    have := length_skipSpace_le r₂
    rw [hup, List.length_append, List.length_cons]
    omega
  have hstop : Stop t₁ := by
    obtain ⟨b, hb, ht⟩ := skipSpace_split t₁
    rw [ht]
    exact hs.stop hb
  rw [List.append_eq, hskip] at hv
  rw [hskip] at hv'
  rcases differ_readValue hw hl₂ hne₂ hstop hv hv' with ⟨r₃, hne₃, hl₃, hz⟩ | hd
  · obtain ⟨hskip₃, hne₄, hl₄⟩ := skipSpace_lineEnd hl₃ hne₃
    refine .inl ⟨skipSpace r₃, hne₄, hl₄, fun z => ?_⟩
    refine readPair_eq_some.2 ⟨r₂ ++ z, r₃ ++ z, hkey' z, ?_, (hskip₃ z).symm⟩
    rw [hskip]
    exact hz z
  · exact .inr ⟨hkeys.symm, hd⟩
termination_by 3 * u.length
decreasing_by exact rank_lt 0 0 hlt (by decide)

end

theorem inside_readHeaderKey {n : Nat} {ks : List String} (hn : 0 < n) (hu : LineEnd u) (hne : u ≠ [])
    (h : outcome (readHeaderKey n (u ++ w)) = some (ks, t)) :
    Inside (fun s => outcome (readHeaderKey n s)) u ks := by
  obtain ⟨p, hp, hinline, hread⟩ := readHeaderKey_takes hn h
  obtain ⟨r, rfl, hr, -, -⟩ := hu.of_front hne hp hinline.2
  exact .of_front hu hr fun z => hread _ trivial

variable {st st' : Statement} {sts sts' : List Statement}

theorem differ_readStatement (hw : Parted w w') (hu : LineEnd u) (hne : u ≠ [])
    (hs : skipLineTail false t = some r) (h : outcome (readStatement (u ++ w)) = some (st, t))
    (h' : outcome (readStatement (u ++ w')) = some (st', t')) :
    Inside (fun s => outcome (readStatement s)) u st ∨
      ∃ x x', st = .pair x ∧ st' = .pair x' ∧ DifferPair x x' := by
  by_cases hb : u.head? = some '['
  · left
    obtain ⟨v, rfl⟩ := List.head?_eq_some_iff.1 hb
    obtain ⟨hv, hvne⟩ := hu.tail (by decide)
    by_cases hb' : v.head? = some '['
    · obtain ⟨v, rfl⟩ := List.head?_eq_some_iff.1 hb'
      rw [List.cons_append, List.cons_append, outcome_readStatement_arrayTable] at h
      obtain ⟨ks, hks, rfl⟩ := onValue_eq_some.1 h
      exact (inside_readHeaderKey (by decide) (hv.tail (by decide)).1 (hv.tail (by decide)).2 hks).map
        (p := ['[', '[']) fun z => outcome_readStatement_arrayTable
    · have hhead (z : List Char) : (v ++ z).head? ≠ some '[' := by
        obtain ⟨c, v, rfl⟩ := List.exists_cons_of_ne_nil hvne
        exact hb'
      rw [List.cons_append, outcome_readStatement_table (hhead w)] at h
      obtain ⟨ks, hks, rfl⟩ := onValue_eq_some.1 h
      exact (inside_readHeaderKey (by decide) hv hvne hks).map (p := ['[']) fun z =>
        outcome_readStatement_table (hhead z)
  · have hhead (z : List Char) : (u ++ z).head? ≠ some '[' := by
      obtain ⟨c, v, rfl⟩ := List.exists_cons_of_ne_nil hne
      exact hb
    rw [outcome_readStatement_pair (hhead _)] at h h'
    obtain ⟨x, hx, rfl⟩ := onValue_eq_some.1 h
    obtain ⟨x', hx', rfl⟩ := onValue_eq_some.1 h'
    have hend : PairEnd t := by
      rintro c r rfl
      rcases head_of_skipLineTail hs with rfl | hc | rfl
      · exact hard_lineFeed
      · rw [head_of_skipSpace (skipSpace_of_readPair hx)] at hc
        cases hc
      · exact hard_hash
    rcases differ_readPair hw hu hne hend hx hx' with ⟨v, hvne, hl, hz⟩ | hd
    · refine .inl ⟨v, hvne, hl, fun z => ?_⟩
      show outcome (readStatement (u ++ z)) = _
      rw [outcome_readStatement_pair (hhead z)]
      exact onValue_eq_some.2 ⟨x, hz z, rfl⟩
    · exact .inr ⟨x, x', rfl, rfl, hd⟩

/-- Lists of statements that are the same up to a pair with another value. -/
def DifferStatements (sts sts' : List Statement) : Prop :=
  ∃ before x x' post post', sts = before ++ .pair x :: post ∧ sts' = before ++ .pair x' :: post' ∧
    DifferPair x x'

theorem readStatements_eq_some {c : Char} (h : readStatements s = some sts)
    (hs : skipGaps false s = some (c :: r)) :
    ∃ st t u sts', outcome (readStatement (c :: r)) = some (st, t) ∧ skipLineTail false t = some u ∧
      readStatements u = some sts' ∧ sts = st :: sts' := by
  rw [readStatements_eq, hs, Option.bind_some, if_neg (by simp)] at h
  obtain ⟨⟨st, t⟩, hst, h⟩ := Option.bind_eq_some_iff.1 h
  obtain ⟨u, hu, h⟩ := Option.bind_eq_some_iff.1 h
  obtain ⟨sts', hsts, rfl⟩ := Option.map_eq_some_iff.1 h
  exact ⟨st, t, u, sts', hst, hu, hsts, rfl⟩

/-- After a statement within complete lines, the rest of its line is within them, too. -/
theorem skipLineTail_lineEnd (hr : LineEnd r) (hne : r ≠ []) (h : skipLineTail false (r ++ w) = some t) :
    ∃ v, LineEnd v ∧ v ≠ [] ∧ v.length ≤ r.length ∧
      ∀ z, skipLineTail false (r ++ z) = some (v ++ z) := by
  obtain ⟨p, he, hp, hend, hread⟩ := skipLineTail_split h
  obtain ⟨v, rfl, hv, hl, rfl⟩ := hr.of_front hne he hp
  obtain ⟨c, v', rfl⟩ := List.exists_cons_of_ne_nil hv
  have hc : c = '\n' := by
    rcases hend with hnil | ⟨r, hr⟩
    · cases hnil
    · exact (List.cons.inj hr).1
  subst hc
  refine ⟨'\n' :: v', hl, hv, by simp, fun z => ?_⟩
  rw [List.append_assoc]
  exact hread (v' ++ z)

theorem differ_readStatements {u : List Char} {sts sts' : List Statement} (hw : Parted w w')
    (hu : LineEnd u) (h : readStatements (u ++ w) = some sts)
    (h' : readStatements (u ++ w') = some sts') :
    (∃ sts₁, readStatements u = some sts₁) ∨ DifferStatements sts sts' := by
  rcases skipGaps_lineEnd hu with hg | ⟨g, c, r, hug, hg, hz⟩ | hn
  · left
    have he := readStatements_filler (s := []) hg
    rw [List.append_nil] at he
    refine ⟨[], he.trans ?_⟩
    rw [readStatements_eq]
    rfl
  · obtain ⟨st, t, v, sts₁, hst, hv, hsts, rfl⟩ := readStatements_eq_some h (hz w)
    obtain ⟨st', t', v', sts₁', hst', hv', hsts', rfl⟩ := readStatements_eq_some h' (hz w')
    rw [hug] at hu
    have hr : LineEnd (c :: r) := hu.of_append
    rcases differ_readStatement hw hr (by simp) hv hst hst' with hi | ⟨x, x', rfl, rfl, hd⟩
    · obtain ⟨-, r', hne, hl, rfl, hread⟩ := hi.eq_of_some hst
      obtain ⟨rfl, rfl⟩ := Prod.mk.inj (Option.some.inj (hst'.symm.trans (hread w')))
      obtain ⟨v₁, hl₁, hne₁, hle, htail⟩ := skipLineTail_lineEnd hl hne hv
      cases hv.symm.trans (htail w)
      cases hv'.symm.trans (htail w')
      have hlt : v₁.length < u.length := by
        have := length_lt_of_outcome hst
        simp only [List.length_append, List.length_cons] at this
        rw [hug, List.length_append, List.length_cons]
        omega
      rcases differ_readStatements hw hl₁ hsts hsts' with ⟨sts₂, hsts₂⟩ | hd
      · left
        have hgap := hz []
        have hst₀ := hread []
        have htail₀ := htail []
        rw [List.append_nil, List.append_nil] at hgap hst₀ htail₀
        refine ⟨st' :: sts₂, ?_⟩
        rw [readStatements_eq, hgap, Option.bind_some, if_neg (by simp), hst₀, Option.bind_some, htail₀,
          Option.bind_some, hsts₂]
        rfl
      · obtain ⟨before, x, x', post, post', rfl, rfl, hx⟩ := hd
        exact .inr ⟨st' :: before, x, x', post, post', rfl, rfl, hx⟩
    · exact .inr ⟨[], x, x', sts₁, sts₁', rfl, rfl, hd⟩
  · rw [readStatements_eq, hn] at h
    cases h
termination_by u.length
decreasing_by exact hlt

open Construction

/-- Below a header a dotted key leads to its value along a way that does not depend on the value. -/
theorem at?_atTable (n : Nat) (ks header : List String) (es : Entries) :
    ∃ p, ∀ v o, atTable (put n v ks) header es = some o →
      ∀ q, (Value.table (finishAll o)).at? (p ++ q) = v.at? q := by
  induction header generalizing es with
  | nil => exact ⟨ks.map .key, fun v o h q => at?_put h q⟩
  | cons k header ih =>
    cases hk : get? k es with
    | none =>
      obtain ⟨p, hp⟩ := ih []
      refine ⟨.key k :: p, fun v o h q => ?_⟩
      simp only [atTable, hk] at h
      obtain ⟨sub, hs, h⟩ := Option.bind_eq_some_iff.1 h
      cases h
      refine (at?_table ?_).trans (hp v sub hs q)
      rw [get?_finishAll, get?_insert_self]
      rfl
    | some node =>
      cases node with
      | value y =>
        refine ⟨[], fun v o h => ?_⟩
        simp [atTable, hk] at h
      | table d sub =>
        obtain ⟨p, hp⟩ := ih sub
        refine ⟨.key k :: p, fun v o h q => ?_⟩
        simp only [atTable, hk] at h
        obtain ⟨sub', hs, h⟩ := Option.bind_eq_some_iff.1 h
        cases h
        refine (at?_table ?_).trans (hp v sub' hs q)
        rw [get?_finishAll, get?_insert_self]
        rfl
      | tables done cur =>
        obtain ⟨p, hp⟩ := ih cur
        refine ⟨.key k :: .item done.length :: p, fun v o h q => ?_⟩
        simp only [atTable, hk] at h
        obtain ⟨cur', hs, h⟩ := Option.bind_eq_some_iff.1 h
        cases h
        have hfind : get? k (finishAll (Assoc.insert k (.tables done cur') es)) =
            some (.array (done ++ [.table (finishAll cur')])) := by
          rw [get?_finishAll, get?_insert_self]
          rfl
        refine (at?_table hfind).trans ?_
        show (Value.array (done ++ [.table (finishAll cur')])).at? (.item done.length :: (p ++ q)) = _
        rw [Value.at?, List.getElem?_append_right (Nat.le_refl _), Nat.sub_self]
        exact hp v cur' hs q

/-- Documents that differ in the value of a pair have different texts at some place. -/
theorem differ_build {old new : Table} (hd : DifferStatements sts sts') (h : build sts = some old)
    (h' : build sts' = some new) : (Value.table old).Differ (.table new) := by
  obtain ⟨before, x, x', post, post', rfl, rfl, hk, q, y, y', hy, hy', hne⟩ := hd
  obtain ⟨c, d, d', hc, hd, hd', rfl, rfl⟩ := build_append_eq_some h h'
  obtain ⟨c₁, h₁, hd⟩ := foldlM_cons_eq_some hd
  obtain ⟨c₁', h₁', hd'⟩ := foldlM_cons_eq_some hd'
  obtain ⟨p, hp⟩ := at?_atTable c.sectionNumber x.key c.header c.root
  have hfirst : (Value.table (finishAll c₁.root)).Differ (.table (finishAll c₁'.root)) := by
    rw [add_eq] at h₁ h₁'
    obtain ⟨o, ho, rfl⟩ := Option.map_eq_some_iff.1 h₁
    obtain ⟨o', ho', rfl⟩ := Option.map_eq_some_iff.1 h₁'
    refine ⟨p ++ q, y, y', (hp _ _ ho q).trans hy, (hp _ _ ?_ q).trans hy', hne⟩
    rw [hk]
    exact ho'
  exact hfirst.mono (textsIn_run hd) (textsIn_run hd')

/-- An update changes no text at a place that has one. -/
theorem Updates.not_differ {name key : String} {old new : Table} (h : Updates name key v old new)
    (hold : ∀ sub y, get? name old = some (.table sub) → get? key sub = some y → y.TextsIn v) :
    ¬ (Value.table old).Differ (.table new) := by
  rintro ⟨p, x, x', hx, hx', hne⟩
  obtain ⟨sub, sub', hs, hs', hoff, hkey⟩ := h.inside
  rcases p with _ | ⟨k | i, p⟩
  · cases hx
  · by_cases hk : k = name
    · subst hk
      rw [at?_table hs] at hx
      rw [at?_table hs'] at hx'
      rcases p with _ | ⟨k | i, p⟩
      · cases hx
      · by_cases hk : k = key
        · subst hk
          obtain ⟨y, hy, hx⟩ := Option.bind_eq_some_iff.1 hx
          rw [at?_table hkey] at hx'
          exact hne (Value.text.inj (Option.some.inj ((hold sub y hs hy p x hx).symm.trans hx')))
        · rw [Value.at?, hoff k hk] at hx'
          exact hne (Value.text.inj (Option.some.inj (hx.symm.trans hx')))
      · cases hx
    · rw [Value.at?, h.elsewhere k hk] at hx'
      exact hne (Value.text.inj (Option.some.inj (hx.symm.trans hx')))
  · cases hx

end WitCaller.Toml
