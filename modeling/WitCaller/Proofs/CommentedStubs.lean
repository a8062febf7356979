import WitCaller.Proofs.LibraryReading

/-!
The stub of a call through http is inert. Whatever an interface says, all lines of such a stub are
comments.
-/

namespace WitCaller

namespace StubPlan
open Text
variable {p : StubPlan} {value : String} {l : List Char}

/-- A line that is a comment of Rust. -/
def IsComment (line : List Char) : Prop := "//".toList <+: line

instance (line : List Char) : Decidable (IsComment line) :=
  inferInstanceAs (Decidable ("//".toList <+: line))

theorem isComment_append {a b : String} (h : IsComment a.toList) : IsComment (a ++ b).toList := by
  rw [String.toList_append]
  exact h.trans (List.prefix_append _ _)

theorem lines_httpCode (h : p.OneLined) (hv : Unbroken value.toList) :
    lines (p.httpCode value).toList = (p.httpLines value).map String.toList ++ ["// \x7d".toList] := by
  have hend : Unbroken "// \x7d".toList := by decide
  rw [toList_httpCode, lines_unlines_append (h.httpLines hv), lines_of_unbroken hend (by decide)]

/-- What an interface says stands in a line after its first two characters. -/
theorem isComment_httpLines : ∀ l ∈ (p.httpLines value).map String.toList, IsComment l := by
  have hbanner : IsComment p.banner.toList := by
    unfold banner
    exact isComment_append (isComment_append (isComment_append (isComment_append (by decide))))
  have hfunction : IsComment ("// pub async fn " ++ p.declaration "_").toList :=
    isComment_append (by decide)
  have hanswer : IsComment ("//     SendResult::Success(" ++ value ++ ")").toList :=
    isComment_append (isComment_append (by decide))
  have hnote : IsComment "/// HTTP endpoint - uncomment to implement".toList := by decide
  have hhint : IsComment "//     // Implement the HTTP endpoint here".toList := by decide
  unfold httpLines
  simp only [List.map_cons, List.map_nil, List.forall_mem_cons]
  exact ⟨hbanner, hnote, hfunction, hhint, hanswer, List.forall_mem_nil _⟩

end StubPlan

namespace Signature
open Text StubPlan
variable {path : Path} {text : String} {st : StubSettings} {s : Signature} {stub : Stub}

/-- The stub of a call through http that a text declares has the six lines of the built-in template,
and each of them is a comment. -/
theorem http_stub_commented (ht : st.templates.httpStub = .ok none)
    (hs : s ∈ (Interface.parse path text).signatures) (hhttp : s.kind = "http")
    (h : (s.stub st).collect.1 = .ok stub) :
    (lines stub.code.toList).length = 6 ∧ ∀ l ∈ lines stub.code.toList, IsComment l := by
  obtain ⟨hplan, hcode⟩ := collect_stub_eq_ok_iff.1 h
  have hlined : stub.plan.OneLined := hplan.oneLined (Interface.oneLined_of_mem_parse hs)
  have hkind : stub.plan.isHttp = true := by
    rw [StubPlan.isHttp, hplan.kind, hhttp]
    rfl
  rw [StubPlan.code, if_pos hkind, ht] at hcode
  obtain ⟨template, htemplate, hcode⟩ := bind_eq_ok.1 hcode
  cases htemplate
  obtain ⟨value, hvalue, hcode⟩ := bind_eq_ok.1 hcode
  have hvalue : Unbroken value.toList :=
    TypeExpr.unbroken_defaultText (Logged.mapError_eq_ok.1 hvalue)
  rw [← Except.ok.inj hcode, lines_httpCode hlined hvalue]
  refine ⟨by simp [httpLines], ?_⟩
  rw [List.forall_mem_append]
  exact ⟨isComment_httpLines, List.forall_mem_singleton.2 (by decide)⟩

/-- Marks of comments in names, a capital of two characters, and line breaks of six kinds. -/
theorem http_stub_commented_get :
    let path : Path := ⟨.relative, ["api.wit"]⟩
    let text := "record get */-signature-http \x7b\r\x0c\u2028key` \x7d: list<ß-x>,\u0085" ++
      "returning: result<ŉ-/*a, _>\x1d \x7d\n"
    let s : Signature := ⟨"get */", "http", [⟨"key` \x7d", "list<ß-x>"⟩, ⟨"returning", "result<ŉ-/*a, _>"⟩]⟩
    s ∈ (Interface.parse path text).signatures ∧ ∃ stub, (s.stub {}).collect.1 = .ok stub ∧
      (lines stub.code.toList).length = 6 ∧ ∀ l ∈ lines stub.code.toList, IsComment l := by
  intro path text s
  have hs : s ∈ (Interface.parse path text).signatures := by decide +kernel
  have hmade : (s.stub {}).collect.1.isOk = true := by decide +kernel
  obtain ⟨stub, hstub⟩ : ∃ stub, (s.stub {}).collect.1 = .ok stub := by
    cases h : (s.stub {}).collect.1 with
    | ok stub => exact ⟨stub, rfl⟩
    | error e =>
      rw [h] at hmade
      cases hmade
  exact ⟨hs, stub, hstub, http_stub_commented rfl hs rfl hstub⟩

end Signature

end WitCaller
