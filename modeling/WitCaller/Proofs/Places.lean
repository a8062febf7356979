import WitCaller.FileTree.Access

/-!
Places in a tree of files: where a path leads, and trees in which every way is made of directories.
-/

namespace WitCaller

namespace Assoc
variable {κ α : Type} [DecidableEq κ] {k : κ} {l : List (κ × α)}

theorem get?_filter {q : κ → Bool} :
    get? k (l.filter fun e => !q e.1) = if q k then none else get? k l := by
  induction l with
  | nil => simp [get?]
  | cons e r ih =>
    obtain ⟨k', v⟩ := e
    by_cases hk : k' = k
    · subst hk
      by_cases hq : q k'
      · simp [hq, ih]
      · simp [hq, get?]
    · by_cases hq : q k'
      · simp [hq, ih, get?, hk]
      · simp [hq, ih, get?, hk]

theorem isSome_get?_iff : (get? k l).isSome ↔ ∃ v, (k, v) ∈ l := by
  induction l with
  | nil => simp [get?]
  | cons e r ih =>
    obtain ⟨k', v⟩ := e
    by_cases hk : k' = k
    · subst hk
      simp only [get?, if_true, Option.isSome_some, true_iff]
      exact ⟨v, List.mem_cons_self⟩
    · simp only [get?, if_neg hk, ih, List.mem_cons, Prod.mk.injEq, Ne.symm hk, false_and, false_or]

end Assoc

namespace Path

/-- One name of a way: `..` leads back. -/
def advance (done : List String) (name : String) : List String :=
  if name = ".." then done.dropLast else done ++ [name]

theorem normalize_eq_foldl {parts : List String} : normalize parts = parts.foldl advance [] := rfl

theorem normalize_concat {parts : List String} {name : String} (hn : name ≠ "..") :
    normalize (parts ++ [name]) = normalize parts ++ [name] := by
  rw [normalize_eq_foldl, List.foldl_append, ← normalize_eq_foldl]
  simp [advance, hn]

theorem foldl_advance_of_plain {parts done : List String} (h : ".." ∉ parts) :
    parts.foldl advance done = done ++ parts := by
  induction parts generalizing done with
  | nil => simp
  | cons name rest ih =>
    have hn : name ≠ ".." := fun he => h (he ▸ List.mem_cons_self)
    have hr : ".." ∉ rest := fun hm => h (List.mem_cons_of_mem _ hm)
    simp [advance, hn, ih hr]

theorem normalize_of_plain {parts : List String} (h : ".." ∉ parts) : normalize parts = parts :=
  foldl_advance_of_plain h

theorem plain_normalize {parts : List String} : ".." ∉ normalize parts := by
  have key (done : List String) (hd : ".." ∉ done) : ".." ∉ parts.foldl advance done := by
    induction parts generalizing done with
    | nil => exact hd
    | cons name rest ih =>
      apply ih
      unfold advance
      split
      · exact fun hm => hd (List.dropLast_subset _ hm)
      · next hn =>
        intro hm
        rcases List.mem_append.1 hm with hm | hm
        · exact hd hm
        · exact hn (List.mem_singleton.1 hm).symm
  exact key [] List.not_mem_nil

end Path

namespace FileTree
open Path (advance normalize)
variable {t t' : FileTree} {p q place here cwd : Place} {c : Content} {names : List String}
  {name : String} {path : Path}

@[simp] theorem get?_root : t.get? [] = some .directory := rfl

theorem get?_discard {q : Place → Bool} (hp : p ≠ []) :
    (t.discard q).get? p = if q p then none else t.get? p := by
  simp only [get?, discard, if_neg hp, Assoc.get?_filter]

theorem perm_insertName : (insertName name names).Perm (name :: names) := by
  induction names with
  | nil => exact .refl _
  | cons other rest ih =>
    rw [insertName]
    split
    · exact .refl _
    · exact (ih.cons other).trans (.swap name other rest)

theorem perm_sortNames : (sortNames names).Perm names := by
  induction names with
  | nil => exact .refl _
  | cons name names ih => exact perm_insertName.trans (ih.cons name)

theorem mem_namesIn : name ∈ t.namesIn p ↔ (t.get? (p ++ [name])).isSome := by
  have hne : p ++ [name] ≠ [] := List.append_ne_nil_of_right_ne_nil _ (by simp)
  simp only [namesIn, perm_sortNames.mem_iff, List.mem_filterMap, get?, if_neg hne,
    Assoc.isSome_get?_iff]
  constructor
  · rintro ⟨⟨place, c⟩, hm, he⟩
    split at he
    · next hd =>
      obtain ⟨front, rfl⟩ := List.getLast?_eq_some_iff.1 he
      rw [List.dropLast_concat] at hd
      exact ⟨c, hd ▸ hm⟩
    · cases he
  · rintro ⟨c, hm⟩
    exact ⟨_, hm, by simp⟩

theorem walk_cons : t.walk here (name :: names) =
    match t.get? here with
    | none => .error .noEntry
    | some (.file _) => .error .notDirectory
    | some .directory => t.walk (advance here name) names := rfl

theorem walk_eq_ok (h : t.walk here names = .ok place) : place = names.foldl advance here := by
  induction names generalizing here with
  | nil =>
    cases h
    rfl
  | cons name rest ih =>
    rw [walk_cons] at h
    split at h
    · cases h
    · cases h
    · exact ih h

theorem walk_concat : t.walk here (names ++ [name]) =
    (t.walk here names).bind fun place => t.walk place [name] := by
  induction names generalizing here with
  | nil => rfl
  | cons first rest ih =>
    rw [List.cons_append, walk_cons, walk_cons]
    cases t.get? here with
    | none => rfl
    | some c =>
      cases c with
      | directory => exact ih
      | file _ => rfl

/-- Where a path leads if it leads anywhere. -/
def target (cwd : Place) (path : Path) : Place :=
  path.parts.foldl advance (if path.anchor = .relative then cwd else [])

theorem locate_eq_ok_iff : t.locate cwd path = .ok place ↔
    t.walk (if path.anchor = .relative then cwd else []) path.parts = .ok place := by
  unfold locate
  cases t.walk (if path.anchor = .relative then cwd else []) path.parts with
  | ok p =>
    change (.ok p : Except OsError Place) = .ok place ↔ _
    simp only [Except.ok.injEq]
  | error e =>
    change (.error ⟨e, path⟩ : Except OsError Place) = .ok place ↔ _
    simp only [reduceCtorEq]

theorem locate_eq_ok (h : t.locate cwd path = .ok place) : place = target cwd path :=
  walk_eq_ok (locate_eq_ok_iff.1 h)

theorem target_concat {a : Anchor} {parts : List String} (hn : name ≠ "..") :
    target cwd ⟨a, parts ++ [name]⟩ = target cwd ⟨a, parts⟩ ++ [name] := by
  simp [target, advance, hn]

theorem target_of_anchored (ha : path.anchor ≠ .relative) : target cwd path = normalize path.parts := by
  rw [target, if_neg ha, Path.normalize_eq_foldl]

/-- Every way in the tree is made of directories. -/
def Closed (t : FileTree) : Prop :=
  ∀ p c, t.get? p = some c → t.get? p.dropLast = some .directory

theorem closed_of_entries (h : ∀ e ∈ t.entries, t.get? e.1.dropLast = some .directory) : t.Closed := by
  intro p c hp
  by_cases hr : p = []
  · rw [hr]
    rfl
  · rw [get?, if_neg hr] at hp
    obtain ⟨v, hv⟩ := Assoc.isSome_get?_iff.1 (Option.isSome_iff_exists.2 ⟨c, hp⟩)
    exact h _ hv

theorem Closed.walk (hc : t.Closed) (hh : t.get? here.dropLast = some .directory)
    (h : t.walk here names = .ok place) : t.get? place.dropLast = some .directory := by
  induction names generalizing here with
  | nil =>
    cases h
    exact hh
  | cons name rest ih =>
    rw [walk_cons] at h
    split at h
    · cases h
    · cases h
    · next hd =>
      apply ih _ h
      unfold advance
      split
      · exact hc _ _ hh
      · rw [List.dropLast_concat]
        exact hd

theorem Closed.locate (hc : t.Closed) (ha : path.anchor ≠ .relative)
    (h : t.locate cwd path = .ok place) : t.get? place.dropLast = some .directory := by
  rw [locate_eq_ok_iff, if_neg ha] at h
  exact hc.walk rfl h

theorem Closed.put (hc : t.Closed) (hp : p ≠ []) (hd : t.get? p.dropLast = some .directory)
    (hn : t.get? p ≠ some .directory) : (t.put p c).Closed := by
  intro q c' hq
  have hne : p ≠ p.dropLast := fun he => hn (he ▸ hd)
  rw [get?_put hp] at hq ⊢
  split at hq
  · next he =>
    subst he
    rw [if_neg hne, hd]
  · have hq' := hc q c' hq
    have hne' : p ≠ q.dropLast := by
      intro he
      exact hn (he.symm ▸ hq')
    rw [if_neg hne', hq']

theorem Closed.directory_of_append (hc : t.Closed) (hq : q ≠ []) (h : (t.get? (p ++ q)).isSome) :
    t.get? p = some .directory := by
  induction q generalizing p with
  | nil => exact absurd rfl hq
  | cons name rest ih =>
    have hs : (t.get? (p ++ [name])).isSome := by
      by_cases hr : rest = []
      · exact hr ▸ h
      · rw [ih hr (by simpa using h)]
        rfl
    obtain ⟨c, hc'⟩ := Option.isSome_iff_exists.1 hs
    have hd := hc _ _ hc'
    rwa [List.dropLast_concat] at hd

end FileTree

end WitCaller
