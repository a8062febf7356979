import WitCaller.Toml.Document

/-!
How the tables of a document grow. A statement changes the table under construction along the keys
that it names, and what it changes in a table depends on the keys of that table only. So two
constructions that agree up to one entry still do after the same statements.
-/

namespace WitCaller.Toml
open Assoc

theorem get?_finishAll (k : String) (es : Entries) :
    get? k (finishAll es) = (get? k es).map Node.finish := by
  induction es with
  | nil => rfl
  | cons e es ih =>
    obtain ⟨k', n⟩ := e
    simp only [finishAll, get?]
    split
    · rfl
    · exact ih

/-- A step into a value. -/
inductive Step where
  | key (k : String)
  | item (i : Nat)

/-- What a way leads to in a value. -/
def Value.at? : List Step → Value → Option Value
  | [], v => some v
  | .key k :: p, .table t => (get? k t).bind (at? p)
  | .item i :: p, .array vs => vs[i]?.bind (at? p)
  | _, _ => none

/-- Every text in a value is in the other one as well, at the same place. -/
def Value.TextsIn (v v' : Value) : Prop := ∀ p x, v.at? p = some (.text x) → v'.at? p = some (.text x)

namespace Value
variable {v v' w : Value} {vs vs' ws : List Value} {t t' : Table}

theorem TextsIn.refl : TextsIn v v := fun _ _ => id

theorem TextsIn.trans (h : TextsIn v v') (h' : TextsIn v' w) : TextsIn v w :=
  fun p x hx => h' p x (h p x hx)

theorem textsIn_table (h : ∀ k n, get? k t = some n → ∃ n', get? k t' = some n' ∧ TextsIn n n') :
    TextsIn (.table t) (.table t') := by
  intro p x hx
  rcases p with _ | ⟨k | i, p⟩
  · cases hx
  · obtain ⟨n, hn, hx⟩ := Option.bind_eq_some_iff.1 hx
    obtain ⟨n', hn', hle⟩ := h k n hn
    exact Option.bind_eq_some_iff.2 ⟨n', hn', hle p x hx⟩
  · cases hx

theorem textsIn_array (h : TextsIn v v') : TextsIn (.array (vs ++ [v])) (.array (vs ++ v' :: ws)) := by
  intro p x hx
  rcases p with _ | ⟨k | i, p⟩
  · cases hx
  · cases hx
  · obtain ⟨n, hn, hx⟩ := Option.bind_eq_some_iff.1 hx
    rcases Nat.lt_trichotomy i vs.length with hi | rfl | hi
    · rw [List.getElem?_append_left hi] at hn
      refine Option.bind_eq_some_iff.2 ⟨n, ?_, hx⟩
      rw [List.getElem?_append_left hi, hn]
    · rw [List.getElem?_append_right (Nat.le_refl _), Nat.sub_self] at hn
      cases hn
      refine Option.bind_eq_some_iff.2 ⟨v', ?_, h p x hx⟩
      rw [List.getElem?_append_right (Nat.le_refl _), Nat.sub_self]
      rfl
    · rw [List.getElem?_eq_none (by simp; omega)] at hn
      cases hn

end Value

namespace Entries
variable {k : String} {es o : Entries} {n : Node}

/-- A change of the entry of a key: what is put there if there is none, how its table is named and
changed, and what becomes of an array of tables. A value is not changed. -/
def visit (k : String) (fresh : Option Node) (reopen : Option Nat → Option (Option Nat))
    (inner : Entries → Option Entries) (item : List Value → Entries → Option Node)
    (es : Entries) : Option Entries :=
  match get? k es with
  | none => fresh.map fun n => insert k n es
  | some (.table d sub) => (reopen d).bind fun d' =>
    (inner sub).map fun sub' => insert k (.table d' sub') es
  | some (.tables done cur) => (item done cur).map fun n => insert k n es
  | some (.value _) => none

/-- An array of tables that only grows, and by no texts. -/
def Grows (item : List Value → Entries → Option Node) : Prop :=
  ∀ done cur n, item done cur = some n →
    (∃ done' cur', n = .tables done' cur' ∧ ∀ x, .text x ∈ done' ↔ .text x ∈ done) ∧
      (Node.tables done cur).finish.TextsIn n.finish

/-- Changes along a chain of keys. -/
inductive Chain : (Entries → Option Entries) → Prop where
  | stay : Chain some
  | fail : Chain fun _ => none
  | visit {k fresh reopen inner item} (hinner : Chain inner) (hitem : Grows item) :
      Chain (visit k fresh reopen inner item)

variable {f inner : Entries → Option Entries} {fresh : Option Node}
  {reopen : Option Nat → Option (Option Nat)} {item : List Value → Entries → Option Node}

/-- A change that happens puts something at its key. -/
theorem visit_eq_some (h : visit k fresh reopen inner item es = some o) : ∃ n, o = insert k n es := by
  unfold visit at h
  split at h
  · obtain ⟨n, -, rfl⟩ := Option.map_eq_some_iff.1 h
    exact ⟨n, rfl⟩
  · obtain ⟨d, -, h⟩ := Option.bind_eq_some_iff.1 h
    obtain ⟨sub, -, rfl⟩ := Option.map_eq_some_iff.1 h
    exact ⟨_, rfl⟩
  · obtain ⟨n, -, rfl⟩ := Option.map_eq_some_iff.1 h
    exact ⟨n, rfl⟩
  · cases h

theorem visit_table {d : Option Nat} {sub : Entries} (hk : get? k es = some (.table d sub))
    (h : visit k fresh reopen inner item es = some o) :
    ∃ d' sub', reopen d = some d' ∧ inner sub = some sub' ∧ o = insert k (.table d' sub') es := by
  simp only [visit, hk] at h
  obtain ⟨d', hd, h⟩ := Option.bind_eq_some_iff.1 h
  obtain ⟨sub', hs, rfl⟩ := Option.map_eq_some_iff.1 h
  exact ⟨d', sub', hd, hs, rfl⟩

/-- A chain of changes loses no text. -/
theorem Chain.textsIn (hf : Chain f) (h : f es = some o) :
    (Value.table (finishAll es)).TextsIn (.table (finishAll o)) := by
  induction hf generalizing es o with
  | stay =>
    cases h
    exact .refl
  | fail => cases h
  | visit hinner hitem ih =>
    next k fresh reopen inner item =>
    refine Value.textsIn_table fun k' v hv => ?_
    rw [get?_finishAll] at hv
    obtain ⟨n, hn, rfl⟩ := Option.map_eq_some_iff.1 hv
    by_cases hk : k = k'
    · subst hk
      have hle : ∃ n', o = insert k n' es ∧ n.finish.TextsIn n'.finish := by
        cases n with
        | value v => simp [Entries.visit, hn] at h
        | table d sub =>
          obtain ⟨d', sub', -, hs, rfl⟩ := visit_table hn h
          exact ⟨_, rfl, ih hs⟩
        | tables done cur =>
          simp only [Entries.visit, hn] at h
          obtain ⟨n', hi, rfl⟩ := Option.map_eq_some_iff.1 h
          exact ⟨n', rfl, (hitem _ _ _ hi).2⟩
      obtain ⟨n', rfl, hle⟩ := hle
      exact ⟨_, by rw [get?_finishAll, get?_insert_self, Option.map_some], hle⟩
    · obtain ⟨n', rfl⟩ := visit_eq_some h
      exact ⟨_, by rw [get?_finishAll, get?_insert_of_ne (Ne.symm hk), hn, Option.map_some], .refl⟩

theorem chain_define (n : Nat) (k : String) : Chain (define n k) := by
  have he : define n k = visit k (some (.table (some n) []))
      (fun d => if d = none then some (some n) else none) some fun _ _ => none := by
    funext es
    unfold define visit
    rcases get? k es with _ | v | ⟨_ | d, sub⟩ | _ <;> rfl
  rw [he]
  refine .visit .stay ?_
  rintro _ _ _ ⟨⟩

theorem addItem_eq_visit (k : String) : addItem k = visit k (some (.tables [] [])) (fun _ => none) some
    fun done cur => some (.tables (done ++ [.table (finishAll cur)]) []) := by
  funext es
  unfold addItem visit
  rcases get? k es with _ | v | ⟨d, sub⟩ | _ <;> rfl

theorem chain_addItem (k : String) : Chain (addItem k) := by
  rw [addItem_eq_visit]
  refine .visit .stay ?_
  rintro done cur _ ⟨⟩
  refine ⟨⟨_, _, rfl, by simp⟩, ?_⟩
  simp only [Node.finish, List.append_assoc]
  exact Value.textsIn_array .refl

theorem chain_put (n : Nat) (v : Value) (ks : List String) : Chain (put n v ks) := by
  induction ks with
  | nil => exact .fail
  | cons k ks ih =>
    cases ks with
    | nil =>
      have he : put n v [k] = visit k (some (.value v)) (fun _ => none) some fun _ _ => none := by
        funext es
        simp only [put, visit]
        rcases get? k es with _ | v | ⟨d, sub⟩ | _ <;> rfl
      rw [he]
      refine .visit .stay ?_
      rintro _ _ _ ⟨⟩
    | cons k' ks =>
      have he : put n v (k :: k' :: ks) = visit k ((put n v (k' :: ks) []).map (.table (some n)))
          (fun d => if d = none ∨ d = some n then some (some n) else none) (put n v (k' :: ks))
          fun _ _ => none := by
        funext es
        simp only [put, visit]
        rcases get? k es with _ | v | ⟨d, sub⟩ | _
        · cases put n v (k' :: ks) [] <;> rfl
        · rfl
        · simp only
          split
          · cases put n v (k' :: ks) sub <;> rfl
          · rfl
        · rfl
      rw [he]
      refine .visit ih ?_
      rintro _ _ _ ⟨⟩

theorem atTable_cons_eq_visit (change : Entries → Option Entries) (k : String) (ks : List String) :
    atTable change (k :: ks) = visit k ((atTable change ks []).map (.table none)) some
      (atTable change ks) fun done cur => (atTable change ks cur).map (.tables done) := by
  funext es
  simp only [atTable, visit]
  rcases get? k es with _ | v | ⟨d, sub⟩ | ⟨done, cur⟩
  · cases atTable change ks [] <;> rfl
  · rfl
  · simp only [Option.bind_some]
    cases atTable change ks sub <;> rfl
  · simp only
    cases atTable change ks cur <;> rfl

theorem chain_atTable {change : Entries → Option Entries} (hc : Chain change) (ks : List String) :
    Chain (atTable change ks) := by
  induction ks with
  | nil => exact hc
  | cons k ks ih =>
    rw [atTable_cons_eq_visit]
    refine .visit ih fun done cur n h => ?_
    obtain ⟨cur', hcur, rfl⟩ := Option.map_eq_some_iff.1 h
    refine ⟨⟨_, _, rfl, fun _ => Iff.rfl⟩, ?_⟩
    simp only [Node.finish]
    exact Value.textsIn_array (ih.textsIn hcur)

/-- A relation between tables that changes keep if they happen in both. -/
def Kept (R : Entries → Entries → Prop) : Prop :=
  ∀ f, Chain f → ∀ es es' o o', R es es' → f es = some o → f es' = some o' → R o o'

/-- Tables that agree on all keys but one. -/
def Off (k : String) (es es' : Entries) : Prop := ∀ k', k' ≠ k → get? k' es' = get? k' es

/-- Tables that agree on all keys but one, which has a value in the second. -/
structure Near (k : String) (x : Option Node) (v : Value) (es es' : Entries) : Prop where
  off : Off k es es'
  before : get? k es = x
  after : get? k es' = some (.value v)

/-- Tables that agree on all keys but one, where both have tables that are related. -/
structure Within (k : String) (R : Entries → Entries → Prop) (es es' : Entries) : Prop where
  off : Off k es es'
  inside : ∃ d sub sub', get? k es = some (.table d sub) ∧ get? k es' = some (.table d sub') ∧ R sub sub'

variable {es' o' : Entries} {k₀ : String} {v : Value} {x : Option Node}
  {R : Entries → Entries → Prop}

theorem Off.inserted {n n' : Node} (h : Off k₀ es es') (hk : k ≠ k₀ → n' = n) :
    Off k₀ (insert k n es) (insert k n' es') := by
  intro k' hk'
  by_cases he : k' = k
  · subst he
    rw [get?_insert_self, get?_insert_self, hk hk']
  · rw [get?_insert_of_ne he, get?_insert_of_ne he]
    exact h k' hk'

/-- Away from the key at which they differ, tables are changed in the same way. -/
theorem Off.visited (h : Off k₀ es es') (hk : k ≠ k₀)
    (hf : visit k fresh reopen inner item es = some o)
    (hf' : visit k fresh reopen inner item es' = some o') :
    ∃ n, o = insert k n es ∧ o' = insert k n es' := by
  unfold Entries.visit at hf hf'
  rw [h k hk] at hf'
  split at hf
  · next hn =>
    simp only [hn] at hf'
    obtain ⟨n, hn, rfl⟩ := Option.map_eq_some_iff.1 hf
    rw [hn] at hf'
    cases hf'
    exact ⟨n, rfl, rfl⟩
  · next hn =>
    simp only [hn] at hf'
    obtain ⟨d', hd, hf⟩ := Option.bind_eq_some_iff.1 hf
    obtain ⟨sub', hs, rfl⟩ := Option.map_eq_some_iff.1 hf
    rw [hd, Option.bind_some, hs] at hf'
    cases hf'
    exact ⟨_, rfl, rfl⟩
  · next hn =>
    simp only [hn] at hf'
    obtain ⟨n, hn, rfl⟩ := Option.map_eq_some_iff.1 hf
    rw [hn] at hf'
    cases hf'
    exact ⟨n, rfl, rfl⟩
  · cases hf

theorem kept_off (k₀ : String) : Kept (Off k₀) := by
  rintro f (_ | _ | ⟨_, _⟩) es es' o o' h hf hf'
  · cases hf
    cases hf'
    exact h
  · cases hf
  · next k fresh reopen inner item _ _ =>
    by_cases hk : k = k₀
    · obtain ⟨n, rfl⟩ := visit_eq_some hf
      obtain ⟨n', rfl⟩ := visit_eq_some hf'
      exact h.inserted fun hn => absurd hk hn
    · obtain ⟨n, rfl, rfl⟩ := h.visited hk hf hf'
      exact h.inserted fun _ => rfl

theorem kept_near (k₀ : String) (x : Option Node) (v : Value) : Kept (Near k₀ x v) := by
  rintro f (_ | _ | ⟨_, _⟩) es es' o o' h hf hf'
  · cases hf
    cases hf'
    exact h
  · cases hf
  · next k fresh reopen inner item _ _ =>
    by_cases hk : k = k₀
    · subst hk
      simp [Entries.visit, h.after] at hf'
    · obtain ⟨n, rfl, rfl⟩ := h.off.visited hk hf hf'
      refine ⟨h.off.inserted fun _ => rfl, ?_, ?_⟩
      · rw [get?_insert_of_ne (Ne.symm hk), h.before]
      · rw [get?_insert_of_ne (Ne.symm hk), h.after]

theorem kept_within (hR : Kept R) (k₀ : String) : Kept (Within k₀ R) := by
  rintro f (_ | _ | ⟨hinner, _⟩) es es' o o' h hf hf'
  · cases hf
    cases hf'
    exact h
  · cases hf
  · next k fresh reopen inner item _ =>
    obtain ⟨d, sub, sub', hs, hs', hsub⟩ := h.inside
    by_cases hk : k = k₀
    · subst hk
      obtain ⟨d₁, sub₁, hd₁, hi, rfl⟩ := visit_table hs hf
      obtain ⟨d₂, sub₂, hd₂, hi', rfl⟩ := visit_table hs' hf'
      cases hd₁.symm.trans hd₂
      refine ⟨h.off.inserted fun hn => absurd rfl hn, d₁, sub₁, sub₂, ?_, ?_, hR _ hinner _ _ _ _ hsub hi hi'⟩
      · exact get?_insert_self _ _ _
      · exact get?_insert_self _ _ _
    · obtain ⟨n, rfl, rfl⟩ := h.off.visited hk hf hf'
      refine ⟨h.off.inserted fun _ => rfl, d, sub, sub', ?_, ?_, hsub⟩
      · rw [get?_insert_of_ne (Ne.symm hk), hs]
      · rw [get?_insert_of_ne (Ne.symm hk), hs']

end Entries

namespace Construction
open Entries

/-- What a statement does to the tables below the header in force. -/
def change (header : List String) (n : Nat) : Statement → Entries → Option Entries
  | .table key => fun es => key.getLast?.bind fun last => atTable (define (n + 1) last) key.dropLast es
  | .arrayTable key => fun es => key.getLast?.bind fun last => atTable (addItem last) key.dropLast es
  | .pair p => atTable (put n p.value p.key) header

/-- The header in force after a statement, and the number of its section. -/
def place (header : List String) (n : Nat) : Statement → List String × Nat
  | .table key => (key, n + 1)
  | .arrayTable key => (key, n + 1)
  | .pair _ => (header, n)

theorem add_eq (c : Construction) (st : Statement) : c.add st =
    (change c.header c.sectionNumber st c.root).map fun es =>
      ⟨es, (place c.header c.sectionNumber st).1, (place c.header c.sectionNumber st).2⟩ := by
  cases st with
  | table key =>
    simp only [add, change, place]
    cases key.getLast? with
    | none => rfl
    | some last =>
      simp only [bind, Option.bind_some]
      cases atTable (define (c.sectionNumber + 1) last) key.dropLast c.root <;> rfl
  | arrayTable key =>
    simp only [add, change, place]
    cases key.getLast? with
    | none => rfl
    | some last =>
      simp only [bind, Option.bind_some]
      cases atTable (addItem last) key.dropLast c.root <;> rfl
  | pair p =>
    simp only [add, change, place]
    cases atTable (put c.sectionNumber p.value p.key) c.header c.root <;> rfl

/-- A header changes the table at its last key, below those at the others. -/
theorem chain_header {f : String → Entries → Option Entries} (hf : ∀ last, Chain (f last))
    (key : List String) : Chain fun es => key.getLast?.bind fun last => atTable (f last) key.dropLast es := by
  cases key.getLast? with
  | none => exact .fail
  | some last => exact chain_atTable (hf last) _

theorem chain_change (header : List String) (n : Nat) (st : Statement) : Chain (change header n st) := by
  cases st with
  | table key => exact chain_header (fun _ => chain_define _ _) key
  | arrayTable key => exact chain_header (fun _ => chain_addItem _) key
  | pair p => exact chain_atTable (chain_put _ _ _) _

/-- Two constructions at the same place of a document, with related tables. -/
structure Beside (R : Entries → Entries → Prop) (c c' : Construction) : Prop where
  root : R c.root c'.root
  header : c'.header = c.header
  number : c'.sectionNumber = c.sectionNumber

variable {R : Entries → Entries → Prop} {c c' d d' : Construction} {st : Statement}
  {sts : List Statement}

theorem Beside.step (hR : Kept R) (h : Beside R c c') (hc : c.add st = some d)
    (hc' : c'.add st = some d') : Beside R d d' := by
  rw [add_eq] at hc hc'
  rw [h.header, h.number] at hc'
  obtain ⟨o, ho, rfl⟩ := Option.map_eq_some_iff.1 hc
  obtain ⟨o', ho', rfl⟩ := Option.map_eq_some_iff.1 hc'
  exact ⟨hR _ (chain_change _ _ _) _ _ _ _ h.root ho ho', rfl, rfl⟩

theorem Beside.run (hR : Kept R) (h : Beside R c c') (hc : sts.foldlM add c = some d)
    (hc' : sts.foldlM add c' = some d') : Beside R d d' := by
  induction sts generalizing c c' with
  | nil =>
    cases hc
    cases hc'
    exact h
  | cons st sts ih =>
    rw [List.foldlM_cons] at hc hc'
    obtain ⟨c₁, h₁, hc⟩ := Option.bind_eq_some_iff.1 hc
    obtain ⟨c₁', h₁', hc'⟩ := Option.bind_eq_some_iff.1 hc'
    exact ih (h.step hR h₁ h₁') hc hc'

end Construction

end WitCaller.Toml
