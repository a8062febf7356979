import WitCaller.Proofs.Legibility
import WitCaller.Proofs.Lines
import WitCaller.Proofs.StubOutcome

/-!
The lines of a stub. Names and types have no line breaks in Rust if the names of the interface have
none, so the text of a stub has the lines of the built-in template and no others.
-/

namespace WitCaller
open Text

namespace TypeToken

theorem isBlank_of_isLineBreak {c : Char} (h : isLineBreak c = true) : isBlank c = true := by
  simp only [isLineBreak, isBlank, Bool.or_eq_true, Bool.and_eq_true, decide_eq_true_eq,
    beq_iff_eq] at h ⊢
  omega

theorem isLineBreak_of_isNameChar {c : Char} (h : isNameChar c = true) : isLineBreak c = false := by
  cases hb : isLineBreak c with
  | false => rfl
  | true =>
    rw [isNameChar_of_isBlank (isBlank_of_isLineBreak hb)] at h
    cases h

theorem IsName.unbroken {s : List Char} (h : IsName s) : Unbroken s :=
  fun c hc => isLineBreak_of_isNameChar (h.2 c hc)

end TypeToken

namespace Text

theorem isLineBreak_of_isAlphanum {c : Char} (h : c.isAlphanum = true) : isLineBreak c = false := by
  obtain ⟨hlow, hhigh⟩ := toNat_of_isAlphanum h
  simp only [isLineBreak, Bool.or_eq_false_iff, Bool.and_eq_false_iff, decide_eq_false_iff_not,
    beq_eq_false_iff_ne]
  omega

theorem dropPrefix?_append {a b : List Char} : (a ++ b).dropPrefix? a = some b :=
  List.dropPrefix?_append_of_beq b (beq_self_eq_true a)

theorem dropSuffix?_append {a b : List Char} : (a ++ b).dropSuffix? b = some a :=
  List.dropSuffix?_eq_some_iff.2 ⟨b, rfl, beq_self_eq_true b⟩

end Text

namespace Identifier
open TypeToken
variable {name : String}

theorem unbroken_snake (h : Unbroken name.toList) : Unbroken (snake name).toList := by
  rw [snake, String.toList_ofList]
  intro c hc
  obtain ⟨d, hd, rfl⟩ := List.mem_map.1 hc
  unfold snakeChar
  split
  · rfl
  · exact h d ((unescape_sublist _).subset hd)

theorem unbroken_rust (h : Unbroken name.toList) : Unbroken (rust name).toList := by
  unfold rust
  split
  · rw [String.toList_append, unbroken_append]
    exact ⟨by decide, unbroken_snake h⟩
  · exact unbroken_snake h

theorem mem_of_mem_splitOn {sep c : Char} {s part : List Char} (hp : part ∈ splitOn sep s)
    (hc : c ∈ part) : c ∈ s := by
  have hmem : c ∈ (splitOn sep s).flatten := List.mem_flatten.2 ⟨part, hp, hc⟩
  rw [flatten_splitOn] at hmem
  exact List.mem_of_mem_filter hmem

theorem unbroken_pascal (h : Unbroken name.toList) : Unbroken (pascal name).toList := by
  rw [pascal, String.toList_ofList]
  intro d hd
  obtain ⟨part, hp, hd⟩ := List.mem_flatMap.1 hd
  have hpart : ∀ c ∈ part, isLineBreak c = false := fun c hc =>
    h c ((unescape_sublist _).subset (mem_of_mem_splitOn hp hc))
  cases part with
  | nil => cases hd
  | cons c part =>
    rcases List.mem_append.1 hd with hd | hd
    · rcases eq_or_isNameChar_of_mem_capital hd with rfl | hd
      · exact hpart d List.mem_cons_self
      · exact isLineBreak_of_isNameChar hd
    · exact hpart d (List.mem_cons_of_mem _ hd)

end Identifier

namespace TypeExpr
variable {t : TypeExpr} {r value witType : String} {strict : Bool}

theorem unbroken_parenthesized {items : List String} (h : ∀ i ∈ items, Unbroken i.toList) :
    Unbroken (parenthesized items).toList := by
  have hjoin : Unbroken (join ", " items).toList := unbroken_join (by decide) h
  unfold parenthesized
  split
  · next item => exact unbroken_between (by decide) (h item (List.mem_singleton_self item)) (by decide)
  · exact unbroken_between (by decide) hjoin (by decide)

theorem unbroken_render (h : Spelled t) : Unbroken t.render.toList := by
  induction h with
  | nameless => exact unbroken_nil
  | @named name args hn _ ih =>
    cases args with
    | nil => exact hn.unbroken
    | cons a args =>
      have hargs : Unbroken (join ", " ((a :: args).map render)).toList :=
        unbroken_join (by decide) (List.forall_mem_map.2 ih)
      rw [render, renderAll_eq_map]
      simp only [String.toList_append, unbroken_append]
      exact ⟨⟨⟨hn.unbroken, by decide⟩, hargs⟩, by decide⟩
  | tuple _ ih =>
    rw [render, renderAll_eq_map]
    exact unbroken_parenthesized (List.forall_mem_map.2 ih)

theorem defaultAll_eq_map (ts : List TypeExpr) : defaultAll ts = ts.map default := by
  induction ts with
  | nil => rfl
  | cons t ts ih => rw [defaultAll, ih, List.map_cons]

theorem unbroken_scalarDefaults : ∀ d ∈ scalarDefaults, Unbroken d.2.toList := by decide

theorem unbroken_default (h : Spelled t) : Unbroken t.default.toList := by
  induction h with
  | nameless => decide
  | @named name args hn ha ih =>
    unfold default
    split
    · next value hvalue => exact unbroken_scalarDefaults _ (mem_of_lookup hvalue)
    · split
      · rw [defaultAll_eq_map]
        split
        · decide
        · next value rest hrest =>
          have hvalue : Unbroken value.toList := by
            -- The value of a result is that of its first argument.
            have hmem : value ∈ args.map default := hrest ▸ List.mem_cons_self
            obtain ⟨a, ha, rfl⟩ := List.mem_map.1 hmem
            exact ih a ha
          exact unbroken_between (by decide) hvalue (by decide)
      · cases args with
        | nil =>
          rw [String.toList_append, unbroken_append]
          exact ⟨hn.unbroken, by decide⟩
        | cons a args =>
          have hargs : Unbroken (join ", " ((a :: args).map render)).toList :=
            unbroken_join (by decide) (List.forall_mem_map.2 fun b hb => unbroken_render (ha b hb))
          simp only [renderAll_eq_map, String.toList_append, unbroken_append]
          exact ⟨⟨⟨hn.unbroken, by decide⟩, hargs⟩, by decide⟩
  | tuple _ ih =>
    rw [default, defaultAll_eq_map]
    exact unbroken_parenthesized (List.forall_mem_map.2 ih)

mutual

theorem spelled_of_isName {t : TypeExpr} (h : ∀ n ∈ nodes t, TypeToken.IsName n.1.toList) :
    Spelled t := by
  match t with
  | .named name args =>
    rw [nodes] at h
    obtain ⟨hname, hargs⟩ := List.forall_mem_cons.1 h
    exact .named hname (spelled_of_isName_all hargs)
  | .tuple items => exact .tuple (spelled_of_isName_all h)

theorem spelled_of_isName_all {ts : List TypeExpr}
    (h : ∀ n ∈ nodesAll ts, TypeToken.IsName n.1.toList) : ∀ t ∈ ts, Spelled t := by
  match ts with
  | [] => exact fun t ht => absurd ht List.not_mem_nil
  | t :: ts =>
    rw [nodesAll, List.forall_mem_append] at h
    rw [List.forall_mem_cons]
    exact ⟨spelled_of_isName h.1, spelled_of_isName_all h.2⟩

end

/-- What is found for an interface type is spelled with names, and nothing else is. -/
theorem spelled_of_rustText (h : (rustText strict witType).collect.1 = .ok r) :
    ∃ t, Spelled t ∧ t.render = r := by
  obtain ⟨t, ht, hr⟩ := parse_of_rustText h
  exact ⟨t.translate, spelled_translate (isName_of_parse ht), hr⟩

theorem unbroken_rustText (h : (rustText strict witType).collect.1 = .ok r) : Unbroken r.toList := by
  obtain ⟨t, ht, rfl⟩ := spelled_of_rustText h
  exact unbroken_render ht

theorem unbroken_defaultText (h : defaultText r = .ok value) : Unbroken value.toList := by
  rw [defaultText] at h
  cases ht : read .rust (trimmed r) with
  | error e =>
    rw [ht] at h
    cases h
  | ok t =>
    rw [ht] at h
    cases h
    exact unbroken_default (spelled_of_isName (isName_of_parse (read_ok_iff.1 ht)))

end TypeExpr

theorem unbroken_toString (n : Int) : Unbroken (toString n).toList := by
  have hnat (m : Nat) : Unbroken (toString m).toList := by
    intro c hc
    have hc : c ∈ Nat.toDigits 10 m := by
      simpa [toString, Nat.repr] using hc
    have hdigit : c.isDigit = true := Nat.isDigit_of_mem_toDigits (by decide) (by decide) hc
    exact isLineBreak_of_isAlphanum (by rw [Char.isAlphanum, hdigit, Bool.or_true])
  cases n with
  | ofNat m => exact hnat m
  | negSucc m =>
    change Unbroken ("-" ++ toString (m + 1)).toList
    rw [String.toList_append, unbroken_append]
    exact ⟨by decide, hnat _⟩

namespace StubPlan
variable {p : StubPlan} {lead value : String} {timeout : Int}

/-- A plan each of whose texts stands on one line. -/
structure OneLined (p : StubPlan) : Prop where
  operation : Unbroken p.operation.toList
  kind : Unbroken p.kind.toList
  function : Unbroken p.function.toList
  target : ∀ t ∈ p.target, Unbroken t.toList
  params : ∀ q ∈ p.params, Unbroken q.name.toList ∧ Unbroken q.type.toList
  result : Unbroken p.result.toList

/-- The first line of a stub. -/
def banner (p : StubPlan) : String :=
  "/// Generated stub for `" ++ p.operation ++ "` " ++ p.kind ++ " RPC call"

/-- What a stub declares: its function with parameters and result. -/
def declaration (lead : String) (p : StubPlan) : String :=
  p.function ++ "(" ++ join ", " (p.declaredParams lead) ++ ") -> SendResult<" ++ p.result ++ "> \x7b"

/-- The lines of the stub of a call through http. -/
def httpLines (value : String) (p : StubPlan) : List String := [
  p.banner, "/// HTTP endpoint - uncomment to implement", "// pub async fn " ++ p.declaration "_",
  "//     // Implement the HTTP endpoint here", "//     SendResult::Success(" ++ value ++ ")"]

/-- The lines of the stub of any other call. -/
def rpcLines (timeout : Int) (p : StubPlan) : List String := [
  p.banner, "pub async fn " ++ p.declaration "",
  "    let request = " ++ payload p.operation (p.params.map Param.name) ++ ";",
  "    send::<" ++ p.result ++ ">(&request, target, " ++ toString timeout ++ ").await"]

theorem toList_httpCode : (p.httpCode value).toList =
    unlines ((p.httpLines value).map String.toList) ++ "// \x7d".toList := by
  have hcall : " RPC call\n".toList = " RPC call".toList ++ ['\n'] := by decide
  have hnote : "/// HTTP endpoint - uncomment to implement\n".toList =
      "/// HTTP endpoint - uncomment to implement".toList ++ ['\n'] := by decide
  have hopen : "> \x7b\n".toList = "> \x7b".toList ++ ['\n'] := by decide
  have hhint : "//     // Implement the HTTP endpoint here\n".toList =
      "//     // Implement the HTTP endpoint here".toList ++ ['\n'] := by decide
  have hvalue : ")\n".toList = ")".toList ++ ['\n'] := by decide
  unfold httpCode httpLines banner declaration
  simp only [List.map_cons, List.map_nil, unlines_cons, unlines_nil, String.toList_append]
  simp only [hcall, hnote, hopen, hhint, hvalue]
  simp only [List.append_assoc, List.cons_append, List.nil_append]

theorem toList_rpcCode : (p.rpcCode timeout).toList =
    unlines ((p.rpcLines timeout).map String.toList) ++ "\x7d".toList := by
  have hcall : " RPC call\n".toList = " RPC call".toList ++ ['\n'] := by decide
  have hopen : "> \x7b\n".toList = "> \x7b".toList ++ ['\n'] := by decide
  have hend : ";\n".toList = ";".toList ++ ['\n'] := by decide
  have hawait : ").await\n".toList = ").await".toList ++ ['\n'] := by decide
  unfold rpcCode rpcLines banner declaration
  simp only [List.map_cons, List.map_nil, unlines_cons, unlines_nil, String.toList_append]
  simp only [hcall, hopen, hend, hawait]
  simp only [List.append_assoc, List.cons_append, List.nil_append]

theorem unbroken_declared {q : Param} (hname : Unbroken q.name.toList) (htype : Unbroken q.type.toList)
    (hlead : Unbroken lead.toList) : Unbroken (declared lead q).toList := by
  have hunmarked : Unbroken (unmarked q.name).toList := by
    unfold unmarked
    split
    · rw [String.toList_ofList]
      exact hname.subset (List.drop_subset _ _)
    · exact hname
  unfold declared
  simp only [String.toList_append, unbroken_append]
  refine ⟨⟨?_, by decide⟩, htype⟩
  split
  · exact hname
  · rw [String.toList_append, unbroken_append]
    exact ⟨hlead, hunmarked⟩

theorem OneLined.declaration (h : p.OneLined) (hlead : Unbroken lead.toList) :
    Unbroken (p.declaration lead).toList := by
  have hparams : Unbroken (join ", " (p.declaredParams lead)).toList := by
    refine unbroken_join (by decide) ?_
    unfold declaredParams
    rw [List.forall_mem_append]
    refine ⟨?_, List.forall_mem_map.2 fun q hq =>
      unbroken_declared (h.params q hq).1 (h.params q hq).2 hlead⟩
    cases ht : p.target with
    | none => simp
    | some t =>
      have htarget : Unbroken t.toList := h.target t ht
      simp only [Option.map_some, Option.toList_some, List.mem_singleton, forall_eq, toString,
        String.toList_append, unbroken_append]
      exact ⟨⟨hlead, by decide⟩, htarget⟩
  unfold StubPlan.declaration
  simp only [String.toList_append, unbroken_append]
  exact ⟨⟨⟨⟨⟨h.function, by decide⟩, hparams⟩, by decide⟩, h.result⟩, by decide⟩

theorem OneLined.banner (h : p.OneLined) : Unbroken p.banner.toList := by
  unfold StubPlan.banner
  simp only [String.toList_append, unbroken_append]
  exact ⟨⟨⟨⟨by decide, h.operation⟩, by decide⟩, h.kind⟩, by decide⟩

theorem OneLined.httpLines (h : p.OneLined) (hv : Unbroken value.toList) :
    ∀ l ∈ (p.httpLines value).map String.toList, Unbroken l := by
  have hfunction : Unbroken ("// pub async fn " ++ p.declaration "_").toList := by
    rw [String.toList_append, unbroken_append]
    exact ⟨by decide, h.declaration (by decide)⟩
  have hanswer : Unbroken ("//     SendResult::Success(" ++ value ++ ")").toList :=
    unbroken_between (by decide) hv (by decide)
  have hnote : Unbroken "/// HTTP endpoint - uncomment to implement".toList := by decide
  have hhint : Unbroken "//     // Implement the HTTP endpoint here".toList := by decide
  unfold StubPlan.httpLines
  simp only [List.map_cons, List.map_nil, List.forall_mem_cons]
  exact ⟨h.banner, hnote, hfunction, hhint, hanswer, List.forall_mem_nil _⟩

theorem unbroken_payload {operation : String} {names : List String} (h : Unbroken operation.toList)
    (hnames : ∀ n ∈ names, Unbroken n.toList) : Unbroken (payload operation names).toList := by
  have hvalue : Unbroken (payloadValue names).toList := by
    unfold payloadValue
    split
    · decide
    · next name => exact hnames name (List.mem_singleton_self name)
    · exact unbroken_between (by decide) (unbroken_join (by decide) hnames) (by decide)
  unfold payload
  simp only [String.toList_append, unbroken_append]
  exact ⟨⟨⟨⟨by decide, Identifier.unbroken_pascal h⟩, by decide⟩, hvalue⟩, by decide⟩

theorem OneLined.rpcLines (h : p.OneLined) :
    ∀ l ∈ (p.rpcLines timeout).map String.toList, Unbroken l := by
  have hfunction : Unbroken ("pub async fn " ++ p.declaration "").toList := by
    rw [String.toList_append, unbroken_append]
    exact ⟨by decide, h.declaration (by decide)⟩
  have hnames : ∀ n ∈ p.params.map Param.name, Unbroken n.toList :=
    List.forall_mem_map.2 fun q hq => (h.params q hq).1
  have hrequest : Unbroken
      ("    let request = " ++ payload p.operation (p.params.map Param.name) ++ ";").toList :=
    unbroken_between (by decide) (unbroken_payload h.operation hnames) (by decide)
  have hsend : Unbroken
      ("    send::<" ++ p.result ++ ">(&request, target, " ++ toString timeout ++ ").await").toList := by
    simp only [String.toList_append, unbroken_append]
    exact ⟨⟨⟨⟨by decide, h.result⟩, by decide⟩, unbroken_toString timeout⟩, by decide⟩
  unfold StubPlan.rpcLines
  simp only [List.map_cons, List.map_nil, List.forall_mem_cons]
  exact ⟨h.banner, hfunction, hrequest, hsend, List.forall_mem_nil _⟩

/-- The only line breaks of a stub are the line feeds of the template. -/
theorem OneLined.onlyFeeds_code {st : StubSettings} {code : String} (h : p.OneLined)
    (ht : st.templates = {}) (hcode : p.code st = .ok code) : OnlyFeeds code.toList := by
  unfold StubPlan.code at hcode
  rw [ht] at hcode
  split at hcode
  · obtain ⟨template, htemplate, hcode⟩ := bind_eq_ok.1 hcode
    cases htemplate
    obtain ⟨value, hvalue, hcode⟩ := bind_eq_ok.1 hcode
    obtain rfl : p.httpCode value = code := Except.ok.inj hcode
    have hvalue : Unbroken value.toList :=
      TypeExpr.unbroken_defaultText (Logged.mapError_eq_ok.1 hvalue)
    rw [toList_httpCode, onlyFeeds_append]
    exact ⟨onlyFeeds_unlines (h.httpLines hvalue), Unbroken.onlyFeeds (by decide)⟩
  · obtain ⟨template, htemplate, hcode⟩ := bind_eq_ok.1 hcode
    cases htemplate
    obtain rfl : p.rpcCode st.timeout = code := Except.ok.inj hcode
    rw [toList_rpcCode, onlyFeeds_append]
    exact ⟨onlyFeeds_unlines h.rpcLines, Unbroken.onlyFeeds (by decide)⟩

end StubPlan

namespace Signature
variable {s : Signature} {p : StubPlan} {strict : Bool} {st : StubSettings} {stub : Stub}

/-- A signature each of whose names stands on one line. -/
structure OneLined (s : Signature) : Prop where
  operation : Unbroken s.operation.toList
  kind : Unbroken s.kind.toList
  fields : ∀ f ∈ s.fields, Unbroken f.name.toList

theorem mem_fields_of_mem_params {f : Field} (h : f ∈ s.params) : f ∈ s.fields :=
  List.mem_of_mem_eraseP (List.mem_of_mem_eraseP h)

theorem unbroken_result {r : String} (h : (s.result strict).collect.1 = .ok r) : Unbroken r.toList := by
  unfold result at h
  split at h
  · exact TypeExpr.unbroken_rustText h
  · cases h
    decide

theorem unbroken_routing {t : String} (h : t ∈ s.routing) : Unbroken t.toList := by
  have hroute (type : String) : Unbroken (routeType type).toList := by
    unfold routeType
    split <;> decide
  unfold routing at h
  cases hf : s.target? with
  | some f =>
    rw [hf] at h
    cases h
    exact hroute f.type
  | none =>
    rw [hf, Option.map_none, Option.none_or] at h
    split at h
    · cases h
    · cases h
      decide

theorem Plans.oneLined (h : s.Plans strict p) (hs : s.OneLined) : p.OneLined where
  operation := h.operation ▸ hs.operation
  kind := h.kind ▸ hs.kind
  function := by
    rw [h.function, functionName]
    simp only [toString, String.toList_append, unbroken_append]
    exact ⟨⟨⟨Identifier.unbroken_snake hs.operation, by decide⟩, Identifier.unbroken_snake hs.kind⟩,
      by decide⟩
  target := by
    rw [h.target]
    exact fun t => unbroken_routing
  params := by
    intro q hq
    obtain ⟨f, hf, hname, htype⟩ := exists_of_mem_right h.params hq
    rw [hname]
    exact ⟨Identifier.unbroken_rust (hs.fields f (mem_fields_of_mem_params hf)),
      TypeExpr.unbroken_rustText htype⟩
  result := unbroken_result h.result

/-- The only line breaks of the stub of a signature are line feeds. -/
theorem OneLined.onlyFeeds_stub (hs : s.OneLined) (ht : st.templates = {})
    (h : (s.stub st).collect.1 = .ok stub) : OnlyFeeds stub.code.toList := by
  obtain ⟨hp, hcode⟩ := collect_stub_eq_ok_iff.1 h
  exact (hp.oneLined hs).onlyFeeds_code ht hcode

end Signature

end WitCaller
