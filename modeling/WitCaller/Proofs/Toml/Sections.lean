import WitCaller.Proofs.Toml.Updates

/-!
Where a pair has to stand so that its entry is added to a table: in the section of that table.
-/

namespace WitCaller.Toml
open Assoc

namespace Entries
variable {name key k : String} {ks : List String} {es o : Entries} {n : Nat}
  {f : Entries → Option Entries}

/-- At a key there is an array of tables, or a table of which something holds. -/
def Leads (name : String) (P : Entries → Prop) (es : Entries) : Prop :=
  (∃ done cur, get? name es = some (.tables done cur)) ∨
    ∃ d sub, get? name es = some (.table d sub) ∧ P sub

/-- At a key there is a table or an array of tables. -/
def Nests (k : String) (es : Entries) : Prop := ∃ node, get? k es = some node ∧ ∀ v, node ≠ .value v

/-- At a key there is an array of tables, or a table with an entry for a second key. -/
def Reaches (name key : String) (es : Entries) : Prop :=
  (∃ done cur, get? name es = some (.tables done cur)) ∨
    ∃ d sub, get? name es = some (.table d sub) ∧ (get? key sub).isSome

theorem kept_isSome (k : String) : Kept fun es _ => (get? k es).isSome := by
  rintro f (_ | _ | ⟨_, _⟩) es es' o o' h hf -
  · cases hf
    exact h
  · cases hf
  · next k' fresh reopen inner item _ _ =>
    obtain ⟨n, rfl⟩ := visit_eq_some hf
    show (get? k (insert k' n es)).isSome
    by_cases hk : k = k'
    · rw [hk, get?_insert_self]
      rfl
    · rw [get?_insert_of_ne hk]
      exact h

theorem visit_tables {fresh : Option Node} {reopen : Option Nat → Option (Option Nat)}
    {item : List Value → Entries → Option Node} {done : List Value} {cur : Entries}
    (hk : get? k es = some (.tables done cur)) (h : visit k fresh reopen f item es = some o) :
    ∃ node, item done cur = some node ∧ o = insert k node es := by
  simp only [visit, hk] at h
  obtain ⟨node, hi, rfl⟩ := Option.map_eq_some_iff.1 h
  exact ⟨node, hi, rfl⟩

theorem kept_leads {P : Entries → Prop} (hP : Kept fun es _ => P es) (name : String) :
    Kept fun es _ => Leads name P es := by
  rintro f (_ | _ | ⟨hinner, hitem⟩) es es' o o' h hf -
  · cases hf
    exact h
  · cases hf
  · next k fresh reopen inner item =>
    show Leads name P o
    by_cases hk : k = name
    · subst hk
      rcases h with ⟨done, cur, h⟩ | ⟨d, sub, h, hs⟩
      · obtain ⟨node, hi, rfl⟩ := visit_tables h hf
        obtain ⟨done', cur', rfl, -⟩ := (hitem _ _ _ hi).1
        exact .inl ⟨done', cur', get?_insert_self _ _ _⟩
      · obtain ⟨d', sub', -, hi, rfl⟩ := visit_table h hf
        exact .inr ⟨d', sub', get?_insert_self _ _ _, hP _ hinner _ _ _ _ hs hi hi⟩
    · obtain ⟨node, rfl⟩ := visit_eq_some hf
      have he : get? name (insert k node es) = get? name es := get?_insert_of_ne (Ne.symm hk) _ _
      unfold Leads
      rw [he]
      exact h

theorem nests_iff : Nests k es ↔ Leads k (fun _ => True) es := by
  constructor
  · rintro ⟨v | ⟨d, sub⟩ | ⟨done, cur⟩, h, hn⟩
    · exact absurd rfl (hn v)
    · exact .inr ⟨d, sub, h, trivial⟩
    · exact .inl ⟨done, cur, h⟩
  · rintro (⟨done, cur, h⟩ | ⟨d, sub, h, -⟩)
    all_goals exact ⟨_, h, by simp⟩

theorem Nests.isSome (h : Nests k es) : (get? k es).isSome := by
  obtain ⟨node, hnode, -⟩ := h
  rw [hnode]
  rfl

theorem kept_nests (k : String) : Kept fun es _ => Nests k es := by
  have hkept : Kept fun es _ => Leads k (fun _ => True) es := kept_leads (fun _ _ _ _ _ _ _ _ _ => trivial) k
  simpa only [nests_iff] using hkept

theorem kept_reaches (name key : String) : Kept fun es _ => Reaches name key es :=
  kept_leads (kept_isSome key) name

/-- A change below a key is a change of what the key leads to. -/
theorem leads_atTable {P : Entries → Prop} (hf : ∀ es o, atTable f ks es = some o → P o)
    (h : atTable f (name :: ks) es = some o) : Leads name P o := by
  simp only [atTable] at h
  split at h
  · obtain ⟨sub, hs, h⟩ := Option.bind_eq_some_iff.1 h
    cases h
    exact .inr ⟨none, sub, get?_insert_self _ _ _, hf _ _ hs⟩
  · next d sub _ =>
    obtain ⟨sub', hs, h⟩ := Option.bind_eq_some_iff.1 h
    cases h
    exact .inr ⟨d, sub', get?_insert_self _ _ _, hf _ _ hs⟩
  · next done cur _ =>
    obtain ⟨cur', -, h⟩ := Option.bind_eq_some_iff.1 h
    cases h
    exact .inl ⟨done, cur', get?_insert_self _ _ _⟩
  · cases h

theorem define_nests (h : define n k es = some o) : Nests k o := by
  obtain ⟨d, sub, h⟩ := Construction.define_hasTable h
  exact ⟨_, h, by simp⟩

theorem addItem_tables (h : addItem k es = some o) : ∃ done cur, get? k o = some (.tables done cur) := by
  unfold addItem at h
  split at h
  · cases h
    exact ⟨[], [], get?_insert_self _ _ _⟩
  · cases h
    exact ⟨_, [], get?_insert_self _ _ _⟩
  · cases h

theorem addItem_nests (h : addItem k es = some o) : Nests k o := by
  obtain ⟨done, cur, h⟩ := addItem_tables h
  exact ⟨_, h, by simp⟩

/-- A header makes its first key a table or an array of tables. -/
theorem nests_of_atTable {f : String → Entries → Option Entries} {last : String}
    (hf : ∀ es o, f last es = some o → Nests last o) (hk : (k :: ks).getLast? = some last)
    (h : atTable (f last) (k :: ks).dropLast es = some o) : Nests k o := by
  cases ks with
  | nil =>
    cases hk
    exact hf es o h
  | cons k' ks =>
    rw [List.dropLast_cons_cons] at h
    exact nests_iff.2 (leads_atTable (fun _ _ _ => trivial) h)

theorem off_atTable (h : atTable f (k :: ks) es = some o) : Off k es o := by
  rw [atTable_cons_eq_visit] at h
  obtain ⟨node, rfl⟩ := visit_eq_some h
  exact Construction.off_insert

theorem within_atTable {d : Option Nat} {sub : Entries} (hes : get? name es = some (.table d sub))
    (h : atTable f (name :: k :: ks) es = some o) : Within name (Off k) es o := by
  rw [atTable_cons_eq_visit] at h
  obtain ⟨d', sub', hd, hs, rfl⟩ := visit_table hes h
  cases hd
  exact ⟨Construction.off_insert, d, sub, sub', hes, get?_insert_self _ _ _, off_atTable hs⟩

variable {es' : Entries} {P : Entries → Prop} {sub : Table} {xs : List Value}

/-- At a key there is a table of which something holds. -/
def Inside (name : String) (P : Entries → Prop) (es : Entries) : Prop :=
  ∃ d sub, get? name es = some (.table d sub) ∧ P sub

theorem kept_inside (hP : Kept fun es _ => P es) (name : String) :
    Kept fun es _ => Inside name P es := by
  rintro f hf es _ o _ ⟨d, sub, hs, h⟩ ho -
  have hwithin : Within name (fun es _ => P es) es es := ⟨fun _ _ => rfl, d, sub, sub, hs, hs, h⟩
  obtain ⟨d', sub', -, hs', -, h'⟩ := (kept_within hP name f hf _ _ _ _ hwithin ho ho).inside
  exact ⟨d', sub', hs', h'⟩

/-- At a key there is an array of tables, with the texts of a list among its completed items. -/
def Rows (k : String) (xs : List Value) (es : Entries) : Prop :=
  ∃ done cur, get? k es = some (.tables done cur) ∧ ∀ x, .text x ∈ done ↔ .text x ∈ xs

theorem kept_rows (k : String) (xs : List Value) : Kept fun es _ => Rows k xs es := by
  rintro f (_ | _ | ⟨_, hitem⟩) es es' o o' ⟨done, cur, h, hx⟩ hf -
  · cases hf
    exact ⟨done, cur, h, hx⟩
  · cases hf
  · next k' fresh reopen inner item _ =>
    by_cases hk : k' = k
    · subst hk
      obtain ⟨node, hi, rfl⟩ := visit_tables h hf
      obtain ⟨done', cur', rfl, hsame⟩ := (hitem _ _ _ hi).1
      exact ⟨done', cur', get?_insert_self _ _ _, fun x => (hsame x).trans (hx x)⟩
    · obtain ⟨node, rfl⟩ := visit_eq_some hf
      exact ⟨done, cur, (get?_insert_of_ne (Ne.symm hk) _ _).trans h, hx⟩

theorem Rows.finish (h : Rows k xs es) : ∃ done t, get? k (finishAll es) = some (.array (done ++ [.table t])) ∧
    ∀ x, .text x ∈ done ↔ .text x ∈ xs := by
  obtain ⟨done, cur, hk, hx⟩ := h
  refine ⟨done, finishAll cur, ?_, hx⟩
  rw [get?_finishAll, hk]
  rfl

theorem Leads.inside (h : Leads name P es) (hs : get? name (finishAll es) = some (.table sub)) :
    ∃ t, sub = finishAll t ∧ P t := by
  rw [get?_finishAll] at hs
  rcases h with ⟨done, cur, hr⟩ | ⟨d, t, hr, hP⟩
  · rw [hr] at hs
    cases hs
  · rw [hr] at hs
    cases hs
    exact ⟨t, rfl, hP⟩

theorem Inside.finish (h : Inside name P es) :
    ∃ t, get? name (finishAll es) = some (.table (finishAll t)) ∧ P t := by
  obtain ⟨d, t, ht, hP⟩ := h
  refine ⟨t, ?_, hP⟩
  rw [get?_finishAll, ht]
  rfl

theorem reaches_of_leads (h : Leads name (Nests key) es) : Reaches name key es :=
  h.imp_right fun ⟨d, t, ht, hnests⟩ => ⟨d, t, ht, hnests.isSome⟩

theorem Reaches.isSome (h : Reaches name key es) (hs : get? name (finishAll es) = some (.table sub)) :
    (get? key sub).isSome := by
  obtain ⟨t, rfl, hsome⟩ := Leads.inside h hs
  rw [get?_finishAll, Option.isSome_map]
  exact hsome

theorem Off.finish (h : Off k es es') (hk : k ≠ name) :
    get? name (finishAll es') = get? name (finishAll es) := by
  rw [get?_finishAll, get?_finishAll, h name (Ne.symm hk)]

theorem Within.finish (h : Within name (Off k) es es') (hk : k ≠ key)
    (hs : get? name (finishAll es) = some (.table sub)) :
    ∃ sub', get? name (finishAll es') = some (.table sub') ∧ get? key sub' = get? key sub := by
  obtain ⟨d, t, t', ht, ht', hoff⟩ := h.inside
  rw [get?_finishAll, ht] at hs
  cases hs
  refine ⟨finishAll t', ?_, hoff.finish hk⟩
  rw [get?_finishAll, ht']
  rfl

theorem Off.between (h : Off k es o) (h' : Off k es es') : Off k o es' :=
  fun k' hk => (h' k' hk).trans (h k' hk).symm

theorem Within.between (h : Within name (Off k) es o) (h' : Within name (Off k) es es') :
    Within name (Off k) o es' := by
  obtain ⟨d, t, t₁, ht, ht₁, hoff⟩ := h.inside
  obtain ⟨d', t', t₂, ht', ht₂, hoff'⟩ := h'.inside
  cases ht.symm.trans ht'
  exact ⟨h.off.between h'.off, d, t₁, t₂, ht₁, ht₂, hoff.between hoff'⟩

end Entries

open Entries Construction
variable {name key : String} {v : Value} {ks : List String} {c c' d d' : Construction}
  {sts before post : List Statement} {st : Statement} {old new sub : Table}

/-- The key of a header. -/
def Statement.header? : Statement → Option (List String)
  | .table ks => some ks
  | .arrayTable ks => some ks
  | .pair _ => none

/-- A header below a table makes its second key a table or an array of tables. -/
theorem nests_of_header {header : List String} {n : Nat} {es o : Entries}
    (hst : st.header? = some (name :: key :: ks)) (h : change header n st es = some o) :
    Leads name (Nests key) o := by
  have hnests (f : String → Entries → Option Entries) (hf : ∀ last es o, f last es = some o → Nests last o)
      (h : ((name :: key :: ks).getLast?.bind fun last =>
        atTable (f last) (name :: key :: ks).dropLast es) = some o) : Leads name (Nests key) o := by
    obtain ⟨last, hl, h⟩ := Option.bind_eq_some_iff.1 h
    rw [List.dropLast_cons_cons] at h
    exact leads_atTable (fun es o => nests_of_atTable (hf last) hl) h
  cases st with
  | pair => cases hst
  | table =>
    cases hst
    exact hnests (define (n + 1)) (fun _ _ _ => define_nests) h
  | arrayTable =>
    cases hst
    exact hnests addItem (fun _ _ _ => addItem_nests) h

/-- Statements are pairs, or they have a last header. -/
theorem sections (sts : List Statement) : (∃ ps : List Pair, sts = ps.map .pair) ∨
    ∃ before st ks, ∃ ps : List Pair, st.header? = some ks ∧ sts = before ++ st :: ps.map .pair := by
  induction sts with
  | nil => exact .inl ⟨[], rfl⟩
  | cons st sts ih =>
    rcases ih with ⟨ps, rfl⟩ | ⟨before, st', ks, ps, hk, rfl⟩
    · cases st with
      | table ks => exact .inr ⟨[], _, ks, ps, rfl, rfl⟩
      | arrayTable ks => exact .inr ⟨[], _, ks, ps, rfl, rfl⟩
      | pair p => exact .inl ⟨p :: ps, rfl⟩
    · exact .inr ⟨st :: before, st', ks, ps, hk, rfl⟩

/-- After the header of another table the section of a table has ended. -/
theorem not_endsIn_concat (hk : ks ≠ [name]) : ¬ EndsIn name (sts ++ [.table ks]) := by
  rintro ⟨before, ps, he⟩
  rcases List.eq_nil_or_concat ps with rfl | ⟨ps, x, rfl⟩
  · have hlast : [Statement.table ks] = [.table [name]] := (List.append_inj' he rfl).2
    cases hlast
    exact hk rfl
  · have hconcat : sts ++ [.table ks] = (before ++ .table [name] :: ps.map .pair) ++ [.pair x] := by
      simpa using he
    cases (List.append_inj' hconcat rfl).2

/-- What holds of one construction stays true of it. -/
theorem kept_run {P : Entries → Prop} (hP : Kept fun es _ => P es) (h : P c.root)
    (hd : sts.foldlM add c = some d) : P d.root :=
  (Beside.run hP ⟨h, rfl, rfl⟩ hd hd).root

/-- The section of the last header is in force, and what that has made is there. -/
theorem run_section {ps : List Pair} (hst : st.header? = some ks)
    (hc : (before ++ st :: ps.map .pair).foldlM add c = some d) : d.header = ks ∧
      ∀ P : Entries → Prop, Kept (fun es _ => P es) →
        (∀ header n es o, change header n st es = some o → P o) → P d.root := by
  obtain ⟨c₁, -, hc⟩ := foldlM_append_eq_some hc
  obtain ⟨c₂, h₂, hc⟩ := foldlM_cons_eq_some hc
  rw [add_eq] at h₂
  obtain ⟨o, ho, rfl⟩ := Option.map_eq_some_iff.1 h₂
  refine ⟨(header_of_pairs hc).trans ?_, fun P hP hst => ?_⟩
  · cases st <;> cases hst <;> rfl
  · exact kept_run hP (hst _ _ _ _ ho) hc

/-- Where the next pair of a document goes: into the section of a table, or elsewhere. -/
theorem section_cases (name : String) (hc : sts.foldlM add .start = some c) : EndsIn name sts ∨
    c.header = [] ∨ (∃ k ks, c.header = k :: ks ∧ k ≠ name) ∨
      (∃ done cur, get? name c.root = some (.tables done cur)) ∨
        ∃ k ks d sub, c.header = name :: k :: ks ∧ get? name c.root = some (.table d sub) ∧ Nests k sub := by
  rcases sections sts with ⟨ps, rfl⟩ | ⟨before, st, ks, ps, hst, rfl⟩
  · exact .inr (.inl (header_of_pairs hc))
  obtain ⟨hhead, hmade⟩ := run_section hst hc
  rcases ks with _ | ⟨k, ks⟩
  · exact .inr (.inl hhead)
  by_cases hk : k = name
  · subst hk
    rcases ks with _ | ⟨k₂, ks⟩
    · cases st with
      | pair => cases hst
      | table =>
        cases hst
        exact .inl ⟨before, ps, rfl⟩
      | arrayTable =>
        cases hst
        have htables : Leads k (fun _ => False) c.root :=
          hmade _ (kept_leads (fun _ _ _ _ _ _ h _ _ => h) k) fun _ _ _ _ ho => .inl (addItem_tables ho)
        rcases htables with htables | ⟨_, _, _, hfalse⟩
        · exact .inr (.inr (.inr (.inl htables)))
        · exact hfalse.elim
    · -- The section is that of a table below `k`, or of one in an array of tables.
      have hnested : Leads k (Nests k₂) c.root :=
        hmade _ (kept_leads (kept_nests k₂) k) fun _ _ _ _ ho => nests_of_header hst ho
      rcases hnested with htables | ⟨d, sub, hsub, hnests⟩
      · exact .inr (.inr (.inr (.inl htables)))
      · exact .inr (.inr (.inr (.inr ⟨k₂, ks, d, sub, hhead, hsub, hnests⟩)))
  · exact .inr (.inr (.inl ⟨k, ks, hhead, hk⟩))

/-- What a pair with a short key can change that does not stand in the section of a table: an entry
that is elsewhere, or an entry that has parts before. -/
theorem put_elsewhere (name key : String) (hc : sts.foldlM add .start = some c) : EndsIn name sts ∨
    (c.header = [] ∧ key = name) ∨ Leads name (Nests key) c.root ∨
      (∃ k, k ≠ name ∧ ∀ n v o, atTable (put n v [key]) c.header c.root = some o → Off k c.root o) ∨
        ∃ k, k ≠ key ∧ ∀ n v o, atTable (put n v [key]) c.header c.root = some o →
          Within name (Off k) c.root o := by
  rcases section_cases name hc with hends | hh | ⟨k, ks, hh, hk⟩ | htables | ⟨k, ks, t, es, hh, hes, hnests⟩
  · exact .inl hends
  · by_cases hk : key = name
    · exact .inr (.inl ⟨hh, hk⟩)
    · refine .inr (.inr (.inr (.inl ⟨key, hk, fun n v o ho => ?_⟩)))
      rw [hh] at ho
      obtain ⟨-, rfl⟩ := put_eq_some ho
      exact off_insert
  · rw [hh]
    exact .inr (.inr (.inr (.inl ⟨k, hk, fun _ _ _ => off_atTable⟩)))
  · exact .inr (.inr (.inl (.inl htables)))
  · by_cases hk : k = key
    · subst hk
      exact .inr (.inr (.inl (.inr ⟨t, es, hes, hnests⟩)))
    · rw [hh]
      exact .inr (.inr (.inr (.inr ⟨k, hk, fun _ _ _ => within_atTable hes⟩)))

/-- A pair that is added elsewhere than in the section of a table adds no entry to that table. -/
theorem endsIn_or_missing (hold : get? name old = some (.table sub)) (hkey : get? key sub = none)
    (h : build (sts ++ post) = some old) (h' : build (sts ++ .pair ⟨[key], v⟩ :: post) = some new) :
    EndsIn name sts ∨ ∃ sub', get? name new = some (.table sub') ∧ get? key sub' = none := by
  obtain ⟨c, d, d', hc, hd, hd', rfl, rfl⟩ := build_append_eq_some h h'
  obtain ⟨c', hadd, hd'⟩ := foldlM_cons_eq_some hd'
  rw [add_eq] at hadd
  obtain ⟨o, ho, rfl⟩ := Option.map_eq_some_iff.1 hadd
  have hput : atTable (put c.sectionNumber v [key]) c.header c.root = some o := ho
  have hrun {R : Entries → Entries → Prop} (hR : Kept R) (hr : R c.root o) : R d.root d'.root := by
    have hb : Beside R c ⟨o, c.header, c.sectionNumber⟩ := ⟨hr, rfl, rfl⟩
    exact (hb.run hR hd hd').root
  rcases put_elsewhere name key hc with hends | ⟨hh, rfl⟩ | hleads | ⟨k, hk, hoff⟩ | ⟨k, hk, hwithin⟩
  · exact .inl hends
  · -- The pair is itself an entry of the document, so that there is no such table.
    rw [hh] at hput
    obtain ⟨hnone, rfl⟩ := put_eq_some hput
    have hnear : Near key none v d.root d'.root :=
      hrun (kept_near key none v) ⟨off_insert, hnone, get?_insert_self _ _ _⟩
    rw [get?_finishAll, hnear.before] at hold
    cases hold
  · have hsome := (kept_run (kept_reaches name key) (reaches_of_leads hleads) hd).isSome hold
    rw [hkey] at hsome
    cases hsome
  · rw [(hrun (kept_off k) (hoff _ _ _ hput)).finish hk]
    exact .inr ⟨sub, hold, hkey⟩
  · obtain ⟨sub', hsub', hsame⟩ :=
      (hrun (kept_within (kept_off k) name) (hwithin _ _ _ hput)).finish hk hold
    exact .inr ⟨sub', hsub', hsame.trans hkey⟩

theorem endsIn_of_updates (hold : get? name old = some (.table sub)) (hkey : get? key sub = none)
    (h : build (sts ++ post) = some old) (h' : build (sts ++ .pair ⟨[key], v⟩ :: post) = some new)
    (hu : Updates name key v old new) : EndsIn name sts := by
  rcases endsIn_or_missing hold hkey h h' with hends | ⟨sub', hsub', hnone⟩
  · exact hends
  · obtain ⟨_, sub₁, -, hnew, -, hv⟩ := hu.inside
    cases hsub'.symm.trans hnew
    rw [hnone] at hv
    cases hv

/-- What a pair in the section of a table has added stays there, whatever follows. -/
theorem isSome_of_endsIn (hs : EndsIn name sts) (h : build (sts ++ .pair ⟨[key], v⟩ :: post) = some new)
    (hsub : get? name new = some (.table sub)) : (get? key sub).isSome := by
  obtain ⟨d, hd, rfl⟩ := build_eq_some.1 h
  obtain ⟨c, hc, hd⟩ := foldlM_append_eq_some hd
  obtain ⟨c', hadd, hd⟩ := foldlM_cons_eq_some hd
  obtain ⟨hh, hn⟩ := hasTable_of_endsIn hs hc
  obtain ⟨t, es, ht, -, rfl⟩ := add_pair hh hn hadd
  have hreaches : Reaches name key (insert name (.table t (insert key (.value v) es)) c.root) := by
    refine .inr ⟨t, _, get?_insert_self _ _ _, ?_⟩
    rw [get?_insert_self]
    rfl
  exact (kept_run (c := ⟨_, [name], c.sectionNumber⟩) (kept_reaches name key) hreaches hd).isSome hsub

/-- A header below a table has made an entry there, whatever follows. -/
theorem isSome_of_header (h : build (sts ++ .table [name, key] :: post) = some new)
    (hsub : get? name new = some (.table sub)) : (get? key sub).isSome := by
  obtain ⟨d, hd, rfl⟩ := build_eq_some.1 h
  obtain ⟨c, -, hd⟩ := foldlM_append_eq_some hd
  obtain ⟨c', hadd, hd⟩ := foldlM_cons_eq_some hd
  rw [add_eq] at hadd
  obtain ⟨o, ho, rfl⟩ := Option.map_eq_some_iff.1 hadd
  have hleads : Leads name (Nests key) o := nests_of_header rfl ho
  have hreaches : Reaches name key o := reaches_of_leads hleads
  exact (kept_run (kept_reaches name key) hreaches hd).isSome hsub

/-- Where a key that has parts leads to an array in the end, that is an array of tables. -/
theorem rows_of_leads {vs : List Value} (h : Leads name (Nests key) c.root)
    (hd : sts.foldlM add c = some d) (hold : get? name (finishAll d.root) = some (.table sub))
    (hkey : get? key sub = some (.array vs)) : ∃ done, Inside name (Rows key done) c.root := by
  rcases h with ⟨done, cur, htables⟩ | ⟨t, es, hes, node, hnode, hn⟩
  · have hkept : Leads name (fun _ => False) d.root :=
      kept_run (kept_leads (fun _ _ _ _ _ _ h _ _ => h) name) (.inl ⟨done, cur, htables⟩) hd
    obtain ⟨_, -, hfalse⟩ := hkept.inside hold
    exact hfalse.elim
  · cases node with
    | value w => exact absurd rfl (hn w)
    | table d₁ es₁ =>
      have htable : Inside name (HasTable key) c.root := ⟨t, es, hes, d₁, es₁, hnode⟩
      obtain ⟨x, hx, d₂, es₂, hes₂⟩ :=
        (kept_run (kept_inside (kept_hasTable key) name) htable hd).finish
      cases hold.symm.trans hx
      rw [get?_finishAll, hes₂] at hkey
      cases hkey
    | tables done cur => exact ⟨done, t, es, hes, done, cur, hnode, fun _ => Iff.rfl⟩

/-- Another value for a pair elsewhere than in the section of a table adds no text to an array of that
table: the array is the same, or an array of tables. -/
theorem endsIn_or_textsKept {v' : Value} {vs : List Value} (hkn : key ≠ name)
    (hold : get? name old = some (.table sub)) (hkey : get? key sub = some (.array vs))
    (h : build (sts ++ .pair ⟨[key], v⟩ :: post) = some old)
    (h' : build (sts ++ .pair ⟨[key], v'⟩ :: post) = some new) : EndsIn name sts ∨
      ∃ sub' vs', get? name new = some (.table sub') ∧ get? key sub' = some (.array vs') ∧
        (vs' = vs ∨ ∃ us t, vs' = us ++ [.table t] ∧ ∀ x, .text x ∈ us → .text x ∈ vs) := by
  obtain ⟨c, d, d', hc, hd, hd', rfl, rfl⟩ := build_append_eq_some h h'
  obtain ⟨c₁, hadd, hpost⟩ := foldlM_cons_eq_some hd
  obtain ⟨c₁', hadd', hpost'⟩ := foldlM_cons_eq_some hd'
  rw [add_eq] at hadd hadd'
  obtain ⟨o, ho, rfl⟩ := Option.map_eq_some_iff.1 hadd
  obtain ⟨o', ho', rfl⟩ := Option.map_eq_some_iff.1 hadd'
  have hput : atTable (put c.sectionNumber v [key]) c.header c.root = some o := ho
  have hput' : atTable (put c.sectionNumber v' [key]) c.header c.root = some o' := ho'
  have hrun {R : Entries → Entries → Prop} (hR : Kept R) (hr : R o o') : R d.root d'.root := by
    have hb : Beside R ⟨o, c.header, c.sectionNumber⟩ ⟨o', c.header, c.sectionNumber⟩ := ⟨hr, rfl, rfl⟩
    exact (hb.run hR hpost hpost').root
  rcases put_elsewhere name key hc with hends | ⟨-, rfl⟩ | hleads | ⟨k, hk, hoff⟩ | ⟨k, hk, hwithin⟩
  · exact .inl hends
  · exact absurd rfl hkn
  · -- The array has the texts of the rows that were complete before the pair, with either value.
    obtain ⟨done, hrows⟩ := rows_of_leads hleads hd hold hkey
    have hkept : Kept fun es _ => Inside name (Rows key done) es := kept_inside (kept_rows key done) name
    obtain ⟨t, ht, hrow⟩ := (kept_run hkept hrows hd).finish
    obtain ⟨t', ht', hrow'⟩ := (kept_run hkept hrows hd').finish
    obtain ⟨us, w, hus, htexts⟩ := hrow.finish
    obtain ⟨us', w', hus', htexts'⟩ := hrow'.finish
    cases hold.symm.trans ht
    cases hkey.symm.trans hus
    refine .inr ⟨_, _, ht', hus', .inr ⟨us', w', rfl, fun x hx => ?_⟩⟩
    exact List.mem_append_left _ ((htexts x).2 ((htexts' x).1 hx))
  · rw [(hrun (kept_off k) ((hoff _ _ _ hput).between (hoff _ _ _ hput'))).finish hk]
    exact .inr ⟨sub, vs, hold, hkey, .inl rfl⟩
  · obtain ⟨sub', hsub', hsame⟩ := (hrun (kept_within (kept_off k) name)
      ((hwithin _ _ _ hput).between (hwithin _ _ _ hput'))).finish hk hold
    exact .inr ⟨sub', vs, hsub', hsame.trans hkey, .inl rfl⟩

theorem endsIn_of_updates_array {v' : Value} {vs : List Value} {m : String} (hkn : key ≠ name)
    (hold : get? name old = some (.table sub)) (hkey : get? key sub = some (.array vs))
    (h : build (sts ++ .pair ⟨[key], v⟩ :: post) = some old)
    (h' : build (sts ++ .pair ⟨[key], v'⟩ :: post) = some new)
    (hu : Updates name key (.array (vs ++ [.text m])) old new) : EndsIn name sts := by
  obtain ⟨_, sub₁, -, hnew, -, hv⟩ := hu.inside
  rcases endsIn_or_textsKept hkn hold hkey h h' with hends | ⟨sub', vs', hsub', hvs', hsame⟩
  · exact hends
  cases hsub'.symm.trans hnew
  cases hvs'.symm.trans hv
  rcases hsame with hsame | ⟨us, t, hsame, -⟩
  · simp at hsame
  · cases (List.append_inj' hsame rfl).2

end WitCaller.Toml
