import WitCaller.Proofs.Toml.Construction

/-!
One entry of a document: what the document is with another value there, or with the entry added.
-/

namespace WitCaller.Toml
open Assoc

/-- `new` is `old` with the value `v` for `key` in the table `name`; all else is the same. -/
structure Updates (name key : String) (v : Value) (old new : Table) : Prop where
  elsewhere : ∀ k, k ≠ name → get? k new = get? k old
  inside : ∃ sub sub', get? name old = some (.table sub) ∧ get? name new = some (.table sub') ∧
    (∀ k, k ≠ key → get? k sub' = get? k sub) ∧ get? key sub' = some v

/-- Statements that end in the section of a table. -/
def EndsIn (name : String) (sts : List Statement) : Prop :=
  ∃ before, ∃ ps : List Pair, sts = before ++ .table [name] :: ps.map .pair

namespace Construction
open Entries
variable {name key k : String} {n : Nat} {v v' : Value} {x : Option Node} {es o : Entries}
  {c d d' : Construction} {sts post : List Statement} {old new : Table}

def HasTable (k : String) (es : Entries) : Prop := ∃ d sub, get? k es = some (.table d sub)

theorem kept_hasTable (k : String) : Kept fun es _ => HasTable k es := by
  rintro f (_ | _ | ⟨_, _⟩) es es' o o' ⟨d, sub, h⟩ hf -
  · cases hf
    exact ⟨d, sub, h⟩
  · cases hf
  · next k' fresh reopen inner item _ _ =>
    by_cases hk : k' = k
    · subst hk
      obtain ⟨d', sub', -, -, rfl⟩ := visit_table h hf
      exact ⟨d', sub', get?_insert_self _ _ _⟩
    · obtain ⟨n, rfl⟩ := visit_eq_some hf
      exact ⟨d, sub, (get?_insert_of_ne (Ne.symm hk) _ _).trans h⟩

theorem header_of_pairs {ps : List Pair} (h : (ps.map Statement.pair).foldlM add c = some d) :
    d.header = c.header := by
  induction ps generalizing c with
  | nil =>
    cases h
    rfl
  | cons p ps ih =>
    rw [List.map_cons, List.foldlM_cons] at h
    obtain ⟨c₁, h₁, h⟩ := Option.bind_eq_some_iff.1 h
    rw [add_eq] at h₁
    obtain ⟨es, -, rfl⟩ := Option.map_eq_some_iff.1 h₁
    exact (ih h).trans rfl

theorem define_hasTable (h : define n k es = some o) : HasTable k o := by
  unfold define at h
  split at h
  · cases h
    exact ⟨some n, [], get?_insert_self _ _ _⟩
  · next sub _ =>
    cases h
    exact ⟨some n, sub, get?_insert_self _ _ _⟩
  · cases h

/-- In the section of a table that table is the one in force, and it is there. -/
theorem hasTable_of_endsIn (h : EndsIn name sts) (hc : sts.foldlM add c = some d) :
    d.header = [name] ∧ HasTable name d.root := by
  obtain ⟨before, ps, rfl⟩ := h
  rw [List.foldlM_append] at hc
  obtain ⟨c₁, -, hc⟩ := Option.bind_eq_some_iff.1 hc
  rw [List.foldlM_cons] at hc
  obtain ⟨c₂, h₂, hc⟩ := Option.bind_eq_some_iff.1 hc
  rw [add_eq] at h₂
  obtain ⟨o, ho, rfl⟩ := Option.map_eq_some_iff.1 h₂
  refine ⟨header_of_pairs hc, ?_⟩
  have ht : HasTable name o := define_hasTable ho
  exact (Beside.run (kept_hasTable name) ⟨ht, rfl, rfl⟩ hc hc).root

theorem put_eq_some (h : put n v [k] es = some o) : get? k es = none ∧ o = insert k (.value v) es := by
  simp only [put] at h
  split at h
  · next hk =>
    cases h
    exact ⟨hk, rfl⟩
  · cases h

theorem atTable_put (hn : HasTable name es) (h : atTable (put n v [key]) [name] es = some o) :
    ∃ d sub, get? name es = some (.table d sub) ∧ get? key sub = none ∧
      o = insert name (.table d (insert key (.value v) sub)) es := by
  obtain ⟨d, sub, hd⟩ := hn
  simp only [atTable, hd] at h
  obtain ⟨sub', hs, h⟩ := Option.bind_eq_some_iff.1 h
  obtain ⟨hk, rfl⟩ := put_eq_some hs
  cases h
  exact ⟨d, sub, hd, hk, rfl⟩

/-- In the section of a table a pair with a short key adds an entry to that table. -/
theorem add_pair (hh : c.header = [name]) (hn : HasTable name c.root)
    (h : c.add (.pair ⟨[key], v⟩) = some d) :
    ∃ t sub, get? name c.root = some (.table t sub) ∧ get? key sub = none ∧
      d = ⟨insert name (.table t (insert key (.value v) sub)) c.root, [name], c.sectionNumber⟩ := by
  rw [add_eq] at h
  obtain ⟨o, ho, rfl⟩ := Option.map_eq_some_iff.1 h
  rw [hh] at ho
  obtain ⟨t, sub, ht, hk, rfl⟩ := atTable_put hn ho
  refine ⟨t, sub, ht, hk, ?_⟩
  rw [hh]
  rfl

theorem Within.updates {es es' : Entries} (h : Within name (Near key x v) es es') :
    Updates name key v (finishAll es) (finishAll es') ∧
      ∃ sub, get? name (finishAll es) = some (.table sub) ∧ get? key sub = x.map Node.finish := by
  obtain ⟨d, sub, sub', hs, hs', hn⟩ := h.inside
  have hold : get? name (finishAll es) = some (.table (finishAll sub)) := by
    rw [get?_finishAll, hs]
    rfl
  have hnew : get? name (finishAll es') = some (.table (finishAll sub')) := by
    rw [get?_finishAll, hs']
    rfl
  refine ⟨⟨fun k hk => ?_, _, _, hold, hnew, fun k hk => ?_, ?_⟩, _, hold, ?_⟩
  · rw [get?_finishAll, get?_finishAll, h.off k hk]
  · rw [get?_finishAll, get?_finishAll, hn.off k hk]
  · rw [get?_finishAll, hn.after]
    rfl
  · rw [get?_finishAll, hn.before]

theorem off_insert {n : Node} : Off k es (insert k n es) := fun k' hk => by
  exact get?_insert_of_ne hk _ _

theorem off_insert_insert {n n' : Node} : Off k (insert k n es) (insert k n' es) := fun k' hk => by
  rw [off_insert k' hk, off_insert k' hk]

end Construction

open Construction Entries
variable {name key k : String} {v v' : Value} {sts post : List Statement} {old new : Table}

theorem build_eq_some {t : Table} :
    build sts = some t ↔ ∃ c, sts.foldlM add .start = some c ∧ finishAll c.root = t :=
  Option.map_eq_some_iff

theorem foldlM_append_eq_some {c d : Construction} (h : (sts ++ post).foldlM add c = some d) :
    ∃ c₁, sts.foldlM add c = some c₁ ∧ post.foldlM add c₁ = some d := by
  rw [List.foldlM_append] at h
  exact Option.bind_eq_some_iff.1 h

theorem foldlM_cons_eq_some {c d : Construction} {st : Statement}
    (h : (st :: sts).foldlM add c = some d) : ∃ c₁, c.add st = some c₁ ∧ sts.foldlM add c₁ = some d := by
  rw [List.foldlM_cons] at h
  exact Option.bind_eq_some_iff.1 h

/-- Documents that begin with the same statements are the same after these. -/
theorem build_append_eq_some {sts' : List Statement} (h : build (sts ++ post) = some old)
    (h' : build (sts ++ sts') = some new) : ∃ c d d', sts.foldlM add .start = some c ∧
      post.foldlM add c = some d ∧ sts'.foldlM add c = some d' ∧
        finishAll d.root = old ∧ finishAll d'.root = new := by
  obtain ⟨d, hd, hold⟩ := build_eq_some.1 h
  obtain ⟨d', hd', hnew⟩ := build_eq_some.1 h'
  obtain ⟨c, hc, hd⟩ := foldlM_append_eq_some hd
  obtain ⟨_, hc', hd'⟩ := foldlM_append_eq_some hd'
  cases hc.symm.trans hc'
  exact ⟨c, d, d', hc, hd, hd', hold, hnew⟩

/-- A pair in the section of a table, with all statements after it, adds its entry to the document. -/
theorem build_insert (hs : EndsIn name sts) (h : build (sts ++ post) = some old)
    (h' : build (sts ++ .pair ⟨[key], v⟩ :: post) = some new) : Updates name key v old new := by
  obtain ⟨c, d, d', hc, hd, hd', rfl, rfl⟩ := build_append_eq_some h h'
  obtain ⟨c', hadd, hd'⟩ := foldlM_cons_eq_some hd'
  obtain ⟨hh, hn⟩ := hasTable_of_endsIn hs hc
  obtain ⟨t, sub, ht, hk, rfl⟩ := add_pair hh hn hadd
  have hw : Within name (Near key none v) c.root
      (insert name (.table t (insert key (.value v) sub)) c.root) := by
    refine ⟨off_insert, t, sub, insert key (.value v) sub, ht, ?_, off_insert, hk, ?_⟩
    · exact get?_insert_self _ _ _
    · exact get?_insert_self _ _ _
  have hb : Beside (Within name (Near key none v)) c ⟨_, [name], c.sectionNumber⟩ :=
    ⟨hw, hh.symm, rfl⟩
  have hend := hb.run (kept_within (kept_near key none v) name) hd hd'
  exact (Within.updates hend.root).1

/-- The same with another value for the pair. -/
theorem build_replace (hs : EndsIn name sts) (h : build (sts ++ .pair ⟨[key], v⟩ :: post) = some old)
    (h' : build (sts ++ .pair ⟨[key], v'⟩ :: post) = some new) : Updates name key v' old new ∧
      ∃ sub, get? name old = some (.table sub) ∧ get? key sub = some v := by
  obtain ⟨c, d, d', hc, hd, hd', rfl, rfl⟩ := build_append_eq_some h h'
  obtain ⟨c₁, hadd, hd⟩ := foldlM_cons_eq_some hd
  obtain ⟨c₁', hadd', hd'⟩ := foldlM_cons_eq_some hd'
  obtain ⟨hh, hn⟩ := hasTable_of_endsIn hs hc
  obtain ⟨t, sub, ht, -, rfl⟩ := add_pair hh hn hadd
  obtain ⟨t', sub', ht', -, rfl⟩ := add_pair hh hn hadd'
  cases ht.symm.trans ht'
  have hw : Within name (Near key (some (.value v)) v')
      (insert name (.table t (insert key (.value v) sub)) c.root)
      (insert name (.table t (insert key (.value v') sub)) c.root) := by
    refine ⟨off_insert_insert, t, insert key (.value v) sub, insert key (.value v') sub, ?_, ?_,
      off_insert_insert, ?_, ?_⟩
    all_goals exact get?_insert_self _ _ _
  have hb : Beside (Within name (Near key (some (.value v)) v')) ⟨_, [name], c.sectionNumber⟩
      ⟨_, [name], c.sectionNumber⟩ := ⟨hw, rfl, rfl⟩
  have hend := hb.run (kept_within (kept_near key _ v') name) hd hd'
  exact Within.updates hend.root

theorem atTable_table {es o : Entries} {change : Entries → Option Entries} {d : Option Nat}
    {sub : Entries} (hn : get? name es = some (.table d sub))
    (h : atTable change [name] es = some o) :
    ∃ sub', change sub = some sub' ∧ o = insert name (.table d sub') es := by
  simp only [atTable, hn] at h
  obtain ⟨sub', hs, h⟩ := Option.bind_eq_some_iff.1 h
  cases h
  exact ⟨sub', hs, rfl⟩

/-- A table with one entry, added below a table of the document as a section of its own. -/
theorem build_table {sub : Table} (h : build sts = some old) (hold : get? name old = some (.table sub))
    (hkey : get? key sub = none)
    (h' : build (sts ++ [.table [name, key], .pair ⟨[k], v⟩]) = some new) :
    Updates name key (.table [(k, v)]) old new := by
  obtain ⟨c, hc, rfl⟩ := build_eq_some.1 h
  obtain ⟨d, hd, rfl⟩ := build_eq_some.1 h'
  obtain ⟨_, hc', hd⟩ := foldlM_append_eq_some hd
  cases hc.symm.trans hc'
  obtain ⟨c₁, h₁, hd⟩ := foldlM_cons_eq_some hd
  obtain ⟨c₂, h₂, hd⟩ := foldlM_cons_eq_some hd
  cases hd
  rw [add_eq] at h₁
  obtain ⟨o, ho, rfl⟩ := Option.map_eq_some_iff.1 h₁
  rw [add_eq] at h₂
  obtain ⟨o₂, ho₂, rfl⟩ := Option.map_eq_some_iff.1 h₂
  have htable : atTable (define (c.sectionNumber + 1) key) [name] c.root = some o := ho
  have hpair : atTable (put (c.sectionNumber + 1) v [k]) [name, key] o = some o₂ := ho₂
  rw [get?_finishAll] at hold
  obtain ⟨node, hnode, hfinish⟩ := Option.map_eq_some_iff.1 hold
  cases node with
  | value w => simp [atTable, hnode] at htable
  | tables done cur => cases hfinish
  | table t es =>
    cases hfinish
    rw [get?_finishAll, Option.map_eq_none_iff] at hkey
    obtain ⟨es₁, hdefine, rfl⟩ := atTable_table hnode htable
    simp only [define, hkey, Option.some.injEq] at hdefine
    subst hdefine
    obtain ⟨es₂, hoff, hfresh, rfl⟩ : ∃ es₂, Off key es es₂ ∧
        (get? key es₂).map Node.finish = some (.table [(k, v)]) ∧
        o₂ = insert name (.table t es₂) (insert name
          (.table t (insert key (.table (some (c.sectionNumber + 1)) []) es)) c.root) := by
      simp only [atTable, get?_insert_self, put, get?, Assoc.insert, pure, bind, Option.bind_some,
        Option.some.injEq] at hpair
      refine ⟨_, fun k' hk' => ?_, ?_, hpair.symm⟩
      · rw [off_insert k' hk', off_insert k' hk']
      · rw [get?_insert_self]
        rfl
    refine ⟨fun k' hk' => ?_, finishAll es, finishAll es₂, ?_, ?_, fun k' hk' => ?_, ?_⟩
    · rw [get?_finishAll, get?_finishAll, off_insert k' hk', off_insert k' hk']
    · rw [get?_finishAll, hnode]
      rfl
    · rw [get?_finishAll, get?_insert_self]
      rfl
    · rw [get?_finishAll, get?_finishAll, hoff k' hk']
    · rw [get?_finishAll, hfresh]

end WitCaller.Toml
