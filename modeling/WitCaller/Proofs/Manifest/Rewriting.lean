import WitCaller.Proofs.Registration
import WitCaller.Proofs.Toml.Characters
import WitCaller.Proofs.Utf8

/-!
The text of a manifest before and after it is rewritten.
-/

namespace WitCaller

namespace Text
variable {s : List Char}

theorem unifyLineEnds_eq_self (h : '\r' ∉ s) : unifyLineEnds s = s := by
  fun_induction unifyLineEnds s with
  | case1 => rfl
  | case2 => simp at h
  | case3 c r _ ih =>
    rw [List.mem_cons, not_or] at h
    rw [if_neg (Ne.symm h.1), ih h.2]

theorem not_mem_unifyLineEnds (s : List Char) : '\r' ∉ unifyLineEnds s := by
  fun_induction unifyLineEnds s with
  | case1 => exact List.not_mem_nil
  | case2 r ih =>
    rw [List.mem_cons, not_or]
    exact ⟨by decide, ih⟩
  | case3 c r _ ih =>
    rw [List.mem_cons, not_or]
    refine ⟨?_, ih⟩
    split
    · decide
    · next hc => exact Ne.symm hc

end Text

namespace Toml
variable {s : List Char}

theorem dropReturns_eq_self (h : '\r' ∉ s) : dropReturns s = s := by
  fun_induction dropReturns s with
  | case1 => rfl
  | case2 => simp at h
  | case3 c r _ ih => rw [ih fun hr => h (List.mem_cons_of_mem c hr)]

theorem Value.any_isText {vs : List Value} {x : String} :
    vs.any (Value.isText x) = true ↔ .text x ∈ vs := by
  rw [List.any_eq_true]
  constructor
  · rintro ⟨v, hv, ht⟩
    cases v with
    | text y => exact eq_of_beq ht ▸ hv
    | _ => cases ht
  · exact fun hx => ⟨_, hx, beq_self_eq_true x⟩

theorem dropReturns_append {t : List Char} (h : '\r' ∉ s) : dropReturns (s ++ t) = s ++ dropReturns t := by
  induction s with
  | nil => rfl
  | cons c s ih =>
    rw [List.mem_cons, not_or] at h
    rw [List.cons_append, dropReturns, ih h.2, List.cons_append]
    rintro r rfl
    exact absurd rfl h.1

theorem decode_eq (h : '\r' ∉ s) : decode s = (readStatements s).bind build := by
  rw [decode, dropReturns_eq_self h]
  rfl

theorem dropReturns_eq_unifyLineEnds (h : '\r' ∉ dropReturns s) :
    dropReturns s = Text.unifyLineEnds s := by
  fun_induction dropReturns s with
  | case1 => rfl
  | case2 r ih => rw [Text.unifyLineEnds, ih fun hr => h (List.mem_cons_of_mem _ hr)]
  | case3 c r hfeed ih =>
    rw [List.mem_cons, not_or] at h
    rw [Text.unifyLineEnds, if_neg (Ne.symm h.1), ih h.2]
    exact hfeed

/-- What a text is decoded to stays the same when its line ends are made line feeds. -/
theorem decode_unifyLineEnds {table : Table} (h : decode s = some table) :
    decode (Text.unifyLineEnds s) = some table := by
  have hreturn : '\r' ∉ dropReturns s := fun hr => by
    rcases printed_of_decode h '\r' hr with hc | hc <;> cases hc
  have hsame : dropReturns (Text.unifyLineEnds s) = dropReturns s := by
    rw [dropReturns_eq_self (Text.not_mem_unifyLineEnds s), dropReturns_eq_unifyLineEnds hreturn]
  rw [decode, hsame]
  exact h

end Toml

namespace FileTree
variable {t t' : FileTree} {here place : Place} {names : List String}

/-- A walk ends at the same place if the directories are the same. -/
theorem walk_of_directories (hd : ∀ p, t.get? p = some .directory → t'.get? p = some .directory)
    (h : t.walk here names = .ok place) : t'.walk here names = .ok place := by
  induction names generalizing here with
  | nil => exact h
  | cons name names ih =>
    rw [walk_cons] at h ⊢
    split at h
    · cases h
    · cases h
    · next hh =>
      rw [hd here hh]
      exact ih h

theorem locate_of_directories {cwd : Place} {p : Path}
    (hd : ∀ p, t.get? p = some .directory → t'.get? p = some .directory)
    (h : t.locate cwd p = .ok place) : t'.locate cwd p = .ok place :=
  locate_eq_ok_iff.2 (walk_of_directories hd (locate_eq_ok_iff.1 h))

end FileTree

namespace Session
open Run FileTree
variable {W : Place → Prop} {s s' : Session} {p : Path} {text : List Char}

theorem textAt_of_file {place : Place} {bytes : Bytes} {cs : List Char}
    (hl : s.tree.locate s.cwd p = .ok place) (hf : s.tree.get? place = some (.file bytes))
    (hd : Utf8.decode bytes = .ok cs) : s.textAt p = .ok (Text.unifyLineEnds cs) := by
  have hr : s.tree.read s.cwd p = .ok bytes := read_eq_ok.2 ⟨place, hl, hf⟩
  unfold textAt
  rw [hr]
  show ((Utf8.decode bytes).mapError _ >>= _) = _
  rw [hd]
  rfl

/-- A text keeps what is written elsewhere. -/
theorem Rewrites.textAt_iff (h : s.Rewrites W s') (ho : ¬ s.Open W (target s.cwd p)) :
    s'.textAt p = .ok text ↔ s.textAt p = .ok text := by
  have hsame (place : Place) (hp : place = target s.cwd p) : s'.tree.get? place = s.tree.get? place := by
    subst hp
    exact (h.tree _).resolve_right fun hn => ho hn.1
  constructor
  · intro ht
    obtain ⟨place, bytes, hl, hf, cs, hd, rfl⟩ := file_of_textAt ht
    rw [h.cwd] at hl
    refine textAt_of_file (locate_of_directories (fun p => h.directory.1) hl) ?_ hd
    rw [← hsame place (locate_eq_ok hl), hf]
  · intro ht
    obtain ⟨place, bytes, hl, hf, cs, hd, rfl⟩ := file_of_textAt ht
    have hl' : s'.tree.locate s'.cwd p = .ok place :=
      h.cwd ▸ locate_of_directories (fun p => h.directory.2) hl
    refine textAt_of_file hl' ?_ hd
    rw [hsame place (locate_eq_ok hl), hf]

theorem exists?_of_textAt (h : s.textAt p = .ok text) : s.tree.exists? s.cwd p = true := by
  obtain ⟨place, bytes, hl, hf, -⟩ := file_of_textAt h
  simp [FileTree.exists?, FileTree.stat?, hl, hf]

theorem not_mem_of_textAt (h : s.textAt p = .ok text) : '\r' ∉ text := by
  obtain ⟨-, -, -, -, cs, -, rfl⟩ := file_of_textAt h
  exact Text.not_mem_unifyLineEnds cs

/-- Reports go elsewhere than to a path. -/
def ReportsAside (s : Session) (p : Path) : Prop := ∀ k, s.sink = some k → k.place ≠ target s.cwd p

theorem ReportsAside.textAt_iff (hk : s.ReportsAside p) {e : Entry} :
    (s.report e).textAt p = .ok text ↔ s.textAt p = .ok text := by
  refine Rewrites.textAt_iff (W := fun _ => False) rewrites_report ?_
  rintro (hf | ⟨k, hs, hp⟩)
  · exact hf
  · exact hk k hs hp

theorem ReportsAside.congr (hk : s.ReportsAside p) (hc : s'.cwd = s.cwd) (hs : s'.sink = s.sink) :
    s'.ReportsAside p := by
  rw [ReportsAside, hc, hs]
  exact hk

end Session

namespace Manifest
open Steps Session Run FileTree Assoc
variable {base project : Path} {member name target : String} {s s' : Session} {text : List Char} {p : Path}

/-- Writing a manifest either fails and changes nothing, or puts the bytes of a document in its place. -/
theorem writeChecked_cases {r : Except Failure Unit} (h : writeChecked p text s = (r, s')) :
    (r ≠ .ok () ∧ s' = s) ∨ ∃ table place, r = .ok () ∧ Toml.decode text = some table ∧
      s.tree.locate s.cwd p = .ok place ∧ s.tree.get? place ≠ some .directory ∧
      s' = { s with tree := s.tree.put place (.file (Utf8.encode text)) } := by
  unfold writeChecked at h
  cases hd : Toml.decode text with
  | none =>
    rw [hd] at h
    cases h
    exact .inl ⟨by simp, rfl⟩
  | some table =>
    rw [hd] at h
    simp only at h
    unfold writeBytes at h
    rw [change_apply] at h
    split at h
    · next t ht =>
      cases h
      obtain ⟨place, hl, hn, rfl⟩ := write_eq_ok ht
      exact .inr ⟨table, place, rfl, rfl, hl, hn, rfl⟩
    · cases h
      exact .inl ⟨by simp, rfl⟩

/-- A manifest that is written can be decoded, and is there afterwards. -/
theorem writeChecked_returns (h : writeChecked p text s = (.ok (), s')) :
    (∃ table, Toml.decode text = some table) ∧ s'.textAt p = .ok (Text.unifyLineEnds text) ∧
      s'.cwd = s.cwd ∧ s'.sink = s.sink := by
  obtain ⟨hr, -⟩ | ⟨table, place, -, hd, hl, hn, rfl⟩ := writeChecked_cases h
  · exact absurd rfl hr
  · have hne : place ≠ [] := by
      rintro rfl
      exact hn rfl
    have hl' : (s.tree.put place (.file (Utf8.encode text))).locate s.cwd p = .ok place := by
      refine locate_of_directories (fun q hq => ?_) hl
      rw [get?_put hne, if_neg (by rintro rfl; exact hn hq), hq]
    have hf : (s.tree.put place (.file (Utf8.encode text))).get? place =
        some (.file (Utf8.encode text)) := by
      rw [get?_put hne, if_pos rfl]
    exact ⟨⟨table, hd⟩, textAt_of_file hl' hf (Utf8.decode_encode text), rfl, rfl⟩

theorem load_eq_ok {table : Toml.Table} (h : load p text = .ok table) : Toml.decode text = some table := by
  unfold load at h
  cases hd : Toml.decode text with
  | none =>
    rw [hd] at h
    cases h
  | some table' =>
    rw [hd] at h
    cases h
    rfl

theorem dependencies?_eq_some {table sub : Toml.Table} (h : dependencies? table = some sub) :
    get? "dependencies" table = some (.table sub) := by
  obtain ⟨v, hv, ht⟩ := Option.bind_eq_some_iff.1 h
  cases v <;> cases ht
  exact hv

/-- What a run that adds a dependency does between its first report and its last. -/
theorem addPathDependency_edits (h : addPathDependency project name target s = (.ok true, s')) :
    ∃ e e' text old sub s₁, (s.report e).textAt (fileIn project) = .ok text ∧
      Toml.decode text = some old ∧ get? "dependencies" old = some (.table sub) ∧ get? name sub = none ∧
      writeChecked (fileIn project) (addDependency name target text) (s.report e) = (.ok (), s₁) ∧
      s' = s₁.report e' := by
  unfold addPathDependency at h
  obtain ⟨_, s₁, h₁, h⟩ := bind_eq_ok_iff.1 h
  cases h₁
  obtain ⟨text, s₂, h₂, h⟩ := bind_eq_ok_iff.1 h
  obtain ⟨htext, rfl⟩ := readProject_returns h₂
  obtain ⟨old, s₃, h₃, h⟩ := bind_eq_ok_iff.1 h
  obtain ⟨hold, rfl⟩ := ofExcept_eq_ok.1 h₃
  cases hdeps : dependencies? old with
  | none =>
    rw [hdeps] at h
    obtain ⟨_, _, -, h⟩ := bind_eq_ok_iff.1 h
    cases h
  | some sub =>
    rw [hdeps] at h
    simp only at h
    split at h
    · obtain ⟨_, _, -, h⟩ := bind_eq_ok_iff.1 h
      cases h
    · next hname =>
      obtain ⟨_, s₄, h₄, h⟩ := bind_eq_ok_iff.1 h
      have hreport : ∃ e, s' = s₄.report e := by
        split at h <;>
        · obtain ⟨_, s₅, h₅, h⟩ := bind_eq_ok_iff.1 h
          cases h₅
          cases h
          exact ⟨_, rfl⟩
      obtain ⟨e', hs'⟩ := hreport
      exact ⟨_, e', text, old, sub, s₄, htext, load_eq_ok hold, dependencies?_eq_some hdeps,
        by simpa using hname, h₄, hs'⟩

/-- What a run has done that added a dependency. -/
theorem addPathDependency_returns (hk : s.ReportsAside (fileIn project))
    (h : addPathDependency project name target s = (.ok true, s')) : ∃ text old new sub,
      s.textAt (fileIn project) = .ok text ∧
      s'.textAt (fileIn project) = .ok (Text.unifyLineEnds (addDependency name target text)) ∧
      Toml.decode text = some old ∧ Toml.decode (addDependency name target text) = some new ∧
      get? "dependencies" old = some (.table sub) ∧ get? name sub = none := by
  obtain ⟨e, e', text, old, sub, s₁, htext, hold, hsub, hname, hw, rfl⟩ := addPathDependency_edits h
  obtain ⟨⟨new, hnew⟩, hwritten, hcwd, hsink⟩ := writeChecked_returns hw
  have hk₁ : s₁.ReportsAside (fileIn project) := hk.congr hcwd hsink
  exact ⟨text, old, new, sub, hk.textAt_iff.1 htext, hk₁.textAt_iff.2 hwritten, hold, hnew, hsub, hname⟩

theorem members?_eq_some {table : Toml.Table} {vs : List Toml.Value} (h : members? table = some vs) :
    ∃ sub, get? "workspace" table = some (.table sub) ∧ get? "members" sub = some (.array vs) := by
  obtain ⟨v, hv, h⟩ := Option.bind_eq_some_iff.1 h
  obtain ⟨sub, hs, h⟩ := Option.bind_eq_some_iff.1 h
  obtain ⟨m, hm, ha⟩ := Option.bind_eq_some_iff.1 h
  cases v <;> cases hs
  cases m <;> cases ha
  exact ⟨sub, hv, hm⟩

theorem members?_of_table {table sub : Toml.Table} {vs : List Toml.Value}
    (h : get? "workspace" table = some (.table sub)) (hvs : get? "members" sub = some (.array vs)) :
    members? table = some vs := by
  simp [members?, h, hvs, Toml.Value.table?, Toml.Value.array?]

/-- What a run that adds a member does between its first report and its last. -/
theorem registerMember_edits (h : registerMember base member s = (.ok true, s')) :
    ∃ e e' text text' old sub vs s₁, (s.report e).textAt (fileIn base) = .ok text ∧
      addMember member text = .ok text' ∧ Toml.decode text = some old ∧
      get? "workspace" old = some (.table sub) ∧ get? "members" sub = some (.array vs) ∧
      .text member ∉ vs ∧ writeChecked (fileIn base) text' (s.report e) = (.ok (), s₁) ∧
      s' = s₁.report e' := by
  unfold registerMember at h
  obtain ⟨_, s₁, h₁, h⟩ := bind_eq_ok_iff.1 h
  cases h₁
  obtain ⟨found, s₂, h₂, h⟩ := bind_eq_ok_iff.1 h
  cases h₂
  split at h
  · obtain ⟨_, _, -, h⟩ := bind_eq_ok_iff.1 h
    cases h
  obtain ⟨text, s₃, h₃, h⟩ := bind_eq_ok_iff.1 h
  rw [readText_apply] at h₃
  obtain ⟨htext, rfl⟩ := Prod.mk.inj h₃
  obtain ⟨old, s₄, h₄, h⟩ := bind_eq_ok_iff.1 h
  obtain ⟨hold, rfl⟩ := ofExcept_eq_ok.1 h₄
  cases hmembers : members? old with
  | none =>
    rw [hmembers] at h
    obtain ⟨_, _, -, h⟩ := bind_eq_ok_iff.1 h
    cases h
  | some vs =>
    rw [hmembers] at h
    simp only at h
    split at h
    · obtain ⟨_, _, -, h⟩ := bind_eq_ok_iff.1 h
      cases h
    · next hany =>
      obtain ⟨text', s₅, h₅, h⟩ := bind_eq_ok_iff.1 h
      obtain ⟨hedit, rfl⟩ := ofExcept_eq_ok.1 h₅
      obtain ⟨_, s₆, h₆, h⟩ := bind_eq_ok_iff.1 h
      obtain ⟨_, s₇, h₇, h⟩ := bind_eq_ok_iff.1 h
      cases h₇
      cases h
      obtain ⟨sub, hsub, hvs⟩ := members?_eq_some hmembers
      exact ⟨_, _, text, text', old, sub, vs, s₆, htext, hedit, load_eq_ok hold, hsub, hvs,
        mt Toml.Value.any_isText.2 hany, h₆, rfl⟩

/-- What a run has done that added a member. -/
theorem registerMember_returns (hk : s.ReportsAside (fileIn base))
    (h : registerMember base member s = (.ok true, s')) : ∃ text text' old new sub vs,
      s.textAt (fileIn base) = .ok text ∧ addMember member text = .ok text' ∧
      s'.textAt (fileIn base) = .ok (Text.unifyLineEnds text') ∧
      Toml.decode text = some old ∧ Toml.decode text' = some new ∧
      get? "workspace" old = some (.table sub) ∧ get? "members" sub = some (.array vs) ∧
      .text member ∉ vs := by
  obtain ⟨e, e', text, text', old, sub, vs, s₁, htext, hedit, hold, hsub, hvs, hmissing, hw, rfl⟩ :=
    registerMember_edits h
  obtain ⟨⟨new, hnew⟩, hwritten, hcwd, hsink⟩ := writeChecked_returns hw
  have hk₁ : s₁.ReportsAside (fileIn base) := hk.congr hcwd hsink
  exact ⟨text, text', old, new, sub, vs, hk.textAt_iff.1 htext, hedit, hk₁.textAt_iff.2 hwritten, hold, hnew,
    hsub, hvs, hmissing⟩

end Manifest

end WitCaller
