import WitCaller.Proofs.Changes
import WitCaller.World.Search

/-!
The interface files directly in a directory: which places they have, and how they are found.
-/

namespace WitCaller

/-- Whether a name is that of an interface file. -/
def IsInterfaceName (name : String) : Prop := (Path.splitSuffix name).2 = World.fileSuffix

instance {name : String} : Decidable (IsInterfaceName name) := decEq _ _

theorem suffix_eq_fileSuffix_iff {anchor : Anchor} {parts : List String} {name : String} :
    (⟨anchor, parts ++ [name]⟩ : Path).suffix = World.fileSuffix ↔ IsInterfaceName name := by
  simp [Path.suffix, Path.name, IsInterfaceName]

/-- Whether a place is none for an interface file. -/
def Aside (p : Place) : Prop := ∀ name, p.getLast? = some name → ¬ IsInterfaceName name

theorem aside_concat {p : Place} {name : String} (hn : ¬ IsInterfaceName name) :
    Aside (p ++ [name]) := by
  intro last hl
  rw [List.getLast?_concat] at hl
  exact Option.some.inj hl ▸ hn

theorem not_aside_concat {p : Place} {name : String} (hn : IsInterfaceName name) :
    ¬ Aside (p ++ [name]) := fun ha => ha name List.getLast?_concat hn

namespace FileTree
variable {t t' : FileTree} {directory : Place} {name : String} {bytes : Bytes} {p : Path} {cwd : Place}

/-- The bytes of an interface file directly in a directory. -/
def InterfaceIn (t : FileTree) (directory : Place) (name : String) (bytes : Bytes) : Prop :=
  IsInterfaceName name ∧ t.get? (directory ++ [name]) = some (.file bytes)

theorem ne_parent_of_isInterfaceName (hn : IsInterfaceName name) : name ≠ ".." := by
  rintro rfl
  revert hn
  decide

/-- A name in a directory that a path leads to. -/
theorem locate_concat (hl : t.locate cwd p = .ok directory)
    (hd : t.get? directory = some .directory) (hn : name ≠ "..") :
    t.locate cwd ⟨p.anchor, p.parts ++ [name]⟩ = .ok (directory ++ [name]) := by
  rw [locate_eq_ok_iff] at hl ⊢
  rw [walk_concat, hl]
  change t.walk directory [name] = _
  rw [walk_cons, hd]
  change FileTree.walk t (Path.advance directory name) [] = _
  rw [Path.advance, if_neg hn]
  rfl

theorem isFile_iff : t.isFile cwd p = true ↔
    ∃ place bytes, t.locate cwd p = .ok place ∧ t.get? place = some (.file bytes) := by
  unfold isFile stat?
  cases hl : t.locate cwd p with
  | error e => simp
  | ok place =>
    simp only
    cases hg : t.get? place with
    | none => simp [hg]
    | some c => cases c <;> simp [hg]

end FileTree

namespace Run
open Steps FileTree
variable {ε α : Type} {s s' : Session} {api : Path}

theorem filterAuxM_apply {m : α → Run ε Bool} {g : α → Bool} (h : ∀ a, m a s = (.ok (g a), s))
    {l acc : List α} : l.filterAuxM m acc s = (.ok ((l.filter g).reverse ++ acc), s) := by
  induction l generalizing acc with
  | nil => rfl
  | cons a l ih =>
    rw [List.filterAuxM, bind_ok (h a), ih]
    cases hg : g a with
    | true =>
      rw [List.filter_cons_of_pos hg, List.reverse_cons, List.append_assoc]
      rfl
    | false =>
      rw [List.filter_cons_of_neg (by simp [hg])]
      rfl

theorem filterM_apply {m : α → Run ε Bool} {g : α → Bool} (h : ∀ a, m a s = (.ok (g a), s))
    {l : List α} : l.filterM m s = (.ok (l.filter g), s) := by
  rw [List.filterM, bind_ok (filterAuxM_apply h)]
  simp [pure_apply]

end Run

/-- The interface files of a directory are there before and after files were rewritten. -/
theorem Session.Rewrites.interfaceIn {W : Place → Prop} {s s' : Session} {directory : Place}
    {name : String} {bytes : Bytes} (h : s.Rewrites W s')
    (hi : s'.tree.InterfaceIn directory name bytes) :
    ∃ bytes', s.tree.InterfaceIn directory name bytes' := by
  rcases h.tree (directory ++ [name]) with he | ⟨-, b, b', hb, -⟩
  · exact ⟨bytes, hi.1, he ▸ hi.2⟩
  · exact ⟨b, hi.1, hb⟩

namespace World
open Steps Run FileTree
variable {s s' : Session} {api : Path} {paths : List Path}

theorem filesIn_returns (h : filesIn api s = (.ok paths, s')) : s' = s ∧ ∃ directory,
    s.tree.locate s.cwd api = .ok directory ∧ s.tree.get? directory = some .directory ∧
      paths = ((s.tree.namesIn directory).map fun name => ⟨api.anchor, api.parts ++ [name]⟩).filter
        fun p => p.suffix == fileSuffix && s.tree.isFile s.cwd p := by
  unfold filesIn at h
  obtain ⟨names, s₁, h₁, h₂⟩ := bind_eq_ok_iff.1 h
  obtain ⟨ht, rfl⟩ := Run.list_eq_ok.1 h₁
  obtain ⟨directory, hl, hd, rfl⟩ := FileTree.list_eq_ok ht
  have hf (p : Path) : (do return p.suffix == fileSuffix && (← Run.isFile p) : Run Failure Bool) s₁ =
      (.ok (p.suffix == fileSuffix && s₁.tree.isFile s₁.cwd p), s₁) := bind_ok isFile_apply
  rw [filterM_apply hf] at h₂
  cases h₂
  exact ⟨rfl, directory, hl, hd, rfl⟩

/-- The files found are the interface files in the directory. -/
theorem mem_filesIn (h : filesIn api s = (.ok paths, s')) : ∃ directory,
    s.tree.locate s.cwd api = .ok directory ∧ s.tree.get? directory = some .directory ∧
      ∀ p, p ∈ paths ↔ ∃ name bytes, p = ⟨api.anchor, api.parts ++ [name]⟩ ∧
        s.tree.InterfaceIn directory name bytes := by
  obtain ⟨-, directory, hl, hd, rfl⟩ := filesIn_returns h
  refine ⟨directory, hl, hd, fun p => ?_⟩
  simp only [List.mem_filter, List.mem_map, mem_namesIn, Bool.and_eq_true, beq_iff_eq]
  constructor
  · rintro ⟨⟨name, -, rfl⟩, hs, hf⟩
    have hn := suffix_eq_fileSuffix_iff.1 hs
    obtain ⟨place, bytes, hl', hb⟩ := isFile_iff.1 hf
    rw [locate_concat hl hd (ne_parent_of_isInterfaceName hn)] at hl'
    cases hl'
    exact ⟨name, bytes, rfl, hn, hb⟩
  · rintro ⟨name, bytes, rfl, hn, hb⟩
    refine ⟨⟨name, by rw [hb]; rfl, rfl⟩, suffix_eq_fileSuffix_iff.2 hn, ?_⟩
    exact isFile_iff.2 ⟨_, bytes, locate_concat hl hd (ne_parent_of_isInterfaceName hn), hb⟩

end World

end WitCaller
