import Mathlib
import WitCaller.Proofs.DraftOutcome
import WitCaller.Proofs.Manifest.Rewriting

/-!
What the settings of a project take from the mapping in their file. Only seven values count; of these
only a timeout can be refused, and any other value that has the wrong kind leaves its default.
-/

namespace WitCaller

namespace Config
open Yaml
variable {key inner : String} {entries entries' : Entries} {v : Value} {root : Path} {text : List Char}
  {c : Config}

/-- The value below a value, where keys of mappings lead to it. -/
def valueAt? : Value → List String → Option Value
  | v, [] => some v
  | .mapping entries, key :: keys => (get? key entries).bind fun v => valueAt? v keys
  | _, _ :: _ => none

/-- The keys that lead to the values for the settings. -/
def settingPaths : List (List String) := [["api_dir"], ["projects"], ["crate", "name"], ["crate", "wit_dir"],
  ["crate", "templates_dir"], ["rpc", "timeout"], ["types", "strict"]]

theorem valueAt?_key : valueAt? (.mapping entries) [key] = get? key entries := by
  rw [valueAt?]
  cases get? key entries <;> rfl

/-- A section that is no mapping is read as one without entries. -/
theorem get?_section? : get? inner (section? key entries) = valueAt? (.mapping entries) [key, inner] := by
  rw [section?, valueAt?]
  cases get? key entries with
  | none => rfl
  | some v =>
    cases v with
    | mapping nested => exact valueAt?_key.symm
    | _ => rfl

/-- A positive whole number, as a number or as a text for one. -/
def IsTimeout (v : Value) : Prop :=
  ∃ n : Int, 0 < n ∧ (v = .integer n ∨ ∃ t, v = .text t ∧ Text.int? t.toList = some n)

/-- That a timeout is given and is no positive whole number. -/
def Refused (entries : Entries) : Prop :=
  ∃ v, valueAt? (.mapping entries) ["rpc", "timeout"] = some v ∧ ¬ IsTimeout v

theorem isTimeout_iff : IsTimeout v ↔ ∃ n, integerOf? v = some n ∧ 0 < n := by
  constructor
  · rintro ⟨n, hn, rfl | ⟨t, rfl, ht⟩⟩
    · exact ⟨n, rfl, hn⟩
    · exact ⟨n, ht, hn⟩
  · rintro ⟨n, h, hn⟩
    cases v with
    | integer m =>
      obtain rfl := Option.some.inj h
      exact ⟨m, hn, .inl rfl⟩
    | text t => exact ⟨n, hn, .inr ⟨t, rfl, h⟩⟩
    | _ => cases h

instance (v : Value) : Decidable (IsTimeout v) :=
  decidable_of_iff ((integerOf? v).any (0 < ·) = true) (by simp [isTimeout_iff, Option.any_eq_true])

instance (entries : Entries) : Decidable (Refused entries) :=
  decidable_of_iff ((valueAt? (.mapping entries) ["rpc", "timeout"]).any (¬ IsTimeout ·) = true) (by
    simp [Refused, Option.any_eq_true])

/-- A timeout is refused, or it is missing, or it is the positive number that is given. -/
theorem timeout?_cases (entries : Entries) : (Refused entries ∧ timeout? entries = .error .timeout) ∨
    (¬ Refused entries ∧ ∃ given, timeout? entries = .ok given ∧ (∀ n ∈ given, 0 < n) ∧
      ∀ v, valueAt? (.mapping entries) ["rpc", "timeout"] = some v →
        ∃ n, given = some n ∧ integerOf? v = some n) := by
  unfold Refused
  rw [timeout?, get?_section?]
  cases hv : valueAt? (.mapping entries) ["rpc", "timeout"] with
  | none =>
    exact .inr ⟨fun ⟨_, hv, _⟩ => (nomatch hv), none, rfl, fun _ hn => (nomatch hn), fun _ hv => (nomatch hv)⟩
  | some v =>
    simp only [Option.some.injEq, exists_eq_left', isTimeout_iff]
    cases hn : integerOf? v with
    | none => exact .inl ⟨fun ⟨_, hn, _⟩ => (nomatch hn), rfl⟩
    | some n =>
      by_cases hpos : 0 < n
      · refine .inr ⟨not_not.2 ⟨n, rfl, hpos⟩, some n, if_pos hpos, ?_, ?_⟩
        · rintro m ⟨⟩
          exact hpos
        · rintro w rfl
          exact ⟨n, rfl, hn⟩
      · refine .inl ⟨?_, if_neg hpos⟩
        rintro ⟨m, ⟨⟩, hm⟩
        exact hpos hm

/-- That keys lead to a text or a number with this text, which is not empty. -/
def Names (entries : Entries) (keys : List String) (name : String) : Prop :=
  name ≠ "" ∧ (valueAt? (.mapping entries) keys).bind textOf? = some name

/-- What holds of all settings that a mapping says for a directory. -/
structure Sound (root : Path) (entries : Entries) (c : Config) : Prop where
  rooted : c.root = root
  timeout : 1 ≤ c.timeout
  given : ∀ v, valueAt? (.mapping entries) ["rpc", "timeout"] = some v → integerOf? v = some c.timeout
  crateName : c.crateName ≠ ""
  witDir : c.witDir ≠ ""
  apiDir : ∀ dir ∈ c.apiDir, ∃ name, Names entries ["api_dir"] name ∧ dir = root / name
  templatesDir : ∀ dir ∈ c.templatesDir,
    ∃ name, Names entries ["crate", "templates_dir"] name ∧ dir = root / name

theorem text?_eq_some {t : String} (h : text? key entries = some t) :
    t ≠ "" ∧ (get? key entries).bind textOf? = some t := by
  obtain ⟨hfound, hkept⟩ := Option.filter_eq_some_iff.1 h
  refine ⟨?_, hfound⟩
  rintro rfl
  cases hkept

theorem text?_getD_ne_empty {default : String} (h : default ≠ "") : (text? key entries).getD default ≠ "" := by
  cases ht : text? key entries with
  | none => exact h
  | some t => exact (text?_eq_some ht).1

/-- A refused timeout is the only thing that keeps a mapping from saying settings. -/
theorem ofEntries_cases (root : Path) (entries : Entries) :
    (Refused entries ∧ ofEntries root entries = .error .timeout) ∨
    (¬ Refused entries ∧ ∃ c, ofEntries root entries = .ok c ∧ c.Sound root entries) := by
  rcases timeout?_cases entries with ⟨hrefused, htimeout⟩ | ⟨hrefused, given, htimeout, hpos, hgiven⟩
  · refine .inl ⟨hrefused, ?_⟩
    rw [ofEntries, htimeout]
    rfl
  · refine .inr ⟨hrefused, ?_⟩
    rw [ofEntries, htimeout]
    refine ⟨_, rfl, ?_⟩
    exact {
      rooted := rfl
      timeout := by
        cases given with
        | none => exact (by decide : (1 : Int) ≤ 30)
        | some n => exact hpos n rfl
      given := by
        intro v hv
        obtain ⟨n, rfl, hn⟩ := hgiven v hv
        exact hn
      crateName := text?_getD_ne_empty (by decide : "caller-utils" ≠ "")
      witDir := text?_getD_ne_empty (by decide : "target/wit" ≠ "")
      apiDir := by
        intro dir hdir
        obtain ⟨name, hname, rfl⟩ := Option.map_eq_some_iff.1 hdir
        obtain ⟨hne, hfound⟩ := text?_eq_some hname
        exact ⟨name, ⟨hne, valueAt?_key ▸ hfound⟩, rfl⟩
      templatesDir := by
        intro dir hdir
        obtain ⟨name, hname, rfl⟩ := Option.map_eq_some_iff.1 hdir
        obtain ⟨hne, hfound⟩ := text?_eq_some hname
        exact ⟨name, ⟨hne, get?_section? ▸ hfound⟩, rfl⟩ }

/-- Mappings with the same values for the settings say the same settings. -/
theorem ofEntries_congr (h : ∀ path ∈ settingPaths,
    valueAt? (.mapping entries') path = valueAt? (.mapping entries) path) :
    ofEntries root entries' = ofEntries root entries := by
  unfold settingPaths at h
  simp only [List.forall_mem_cons, valueAt?_key, ← get?_section?] at h
  obtain ⟨hapi, hprojects, hname, hwit, htemplates, htimeout, hstrict, -⟩ := h
  simp only [ofEntries, timeout?, text?, hapi, hprojects, hname, hwit, htemplates, htimeout, hstrict]

/-- The entries of the mapping in the text of a file for settings; a text that says nothing has none. -/
def entriesIn? (text : List Char) : Option Entries :=
  if text.all Text.isBlank then some []
  else match Yaml.decode text with
    | .ok v => if v.isNothing then some [] else match v with
      | .mapping entries => some entries
      | _ => none
    | .error _ => none

theorem ofText_of_entriesIn? (h : entriesIn? text = some entries) :
    ofText root text = (ofEntries root entries).mapError .config := by
  unfold entriesIn? at h
  unfold ofText
  split at h
  · next hblank =>
    obtain rfl := Option.some.inj h
    rw [if_pos hblank]
  · next hblank =>
    rw [if_neg hblank]
    cases hv : Yaml.decode text with
    | error e =>
      rw [hv] at h
      cases h
    | ok v =>
      simp only [hv] at h
      simp only [ofValue]
      split at h
      · next hnothing =>
        obtain rfl := Option.some.inj h
        rw [if_pos hnothing]
      · next hnothing =>
        rw [if_neg hnothing]
        cases v with
        | mapping nested =>
          obtain rfl := Option.some.inj h
          rfl
        | _ => cases h

end Config

namespace Session
open Config
variable {s : Session} {p : Path} {entries : Entries}

/-- The entries of the mapping in the file for the settings at a path. -/
def entriesAt? (s : Session) (p : Path) : Option Entries :=
  (s.textAt (s.configFile p)).toOption.bind entriesIn?

theorem load_of_entriesAt? (h : s.entriesAt? p = some entries) :
    Config.load p s = ((ofEntries (s.configFile p).parent entries).mapError .config, s) := by
  obtain ⟨text, htext, hentries⟩ := Option.bind_eq_some_iff.1 h
  have htext := eq_ok_of_toOption htext
  have hsettings : Generation.settings none p s = (s.settings none p, s) := Generation.settings_apply
  change Config.load p s = _ at hsettings
  rw [hsettings, settings, if_pos (exists?_of_textAt htext), htext]
  exact congrArg (·, s) (ofText_of_entriesIn? hentries)

/-- A session with a file for settings in its directory. -/
def withSettings (text : String) : Session where
  cwd := ["w"]
  tree := ⟨[(["w"], .directory), (["w", ".callergen.yml"], .file (Utf8.encode text.toList))]⟩

/-- A session with a timeout, a list where a section should be, and a key that is not known. -/
def mixedSettings : Session := withSettings "rpc:\n  timeout: '7'\ncrate: [1]\nversion: 2\n"

/-- The same without what is not read. -/
def plainSettings : Session := withSettings "rpc:\n  timeout: '7'\n"

/-- Whether these are the entries of the mixed settings. -/
def readsMixed : Option Entries → Bool
  | some [(.text "rpc", .mapping [(.text "timeout", .text "7")]), (.text "crate", .sequence [.integer 1]),
      (.text "version", .integer 2)] => true
  | _ => false

/-- Whether these are the entries of the plain settings. -/
def readsPlain : Option Entries → Bool
  | some [(.text "rpc", .mapping [(.text "timeout", .text "7")])] => true
  | _ => false

theorem entriesAt?_mixedSettings : mixedSettings.entriesAt? (.absolute ["w"]) =
    some [(.text "rpc", .mapping [(.text "timeout", .text "7")]), (.text "crate", .sequence [.integer 1]),
      (.text "version", .integer 2)] := by
  have h : readsMixed (mixedSettings.entriesAt? (.absolute ["w"])) = true := by decide +kernel
  unfold readsMixed at h
  split at h
  · next hentries => exact hentries
  · cases h

theorem entriesAt?_plainSettings : plainSettings.entriesAt? (.absolute ["w"]) =
    some [(.text "rpc", .mapping [(.text "timeout", .text "7")])] := by
  have h : readsPlain (plainSettings.entriesAt? (.absolute ["w"])) = true := by decide +kernel
  unfold readsPlain at h
  split at h
  · next hentries => exact hentries
  · cases h

end Session

end WitCaller
