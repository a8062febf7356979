import WitCaller.Proofs.Associations
import WitCaller.Proofs.Steps
import WitCaller.Rust.Library

/-!
What a library holds after interfaces were added one after the other. Each stub is made from its own
signature, and each module from its own interface. A module name stands where it first occurred, with
the body that was added last.
-/

namespace WitCaller

namespace Logged
open Steps
variable {ε ε' α β : Type} {m : Logged ε α} {f : α → Logged ε β}

/-- That the outcome of a computation does not depend on what was reported before. -/
def Oblivious (m : Logged ε α) : Prop := ∀ es es', (m es).1 = (m es').1

theorem oblivious_mk {x : Except ε α} : Oblivious (ExceptT.mk (pure x) : Logged ε α) := fun _ _ => rfl

theorem oblivious_pure {a : α} : Oblivious (pure a : Logged ε α) := fun _ _ => rfl

theorem oblivious_throw {e : ε} : Oblivious (throw e : Logged ε α) := fun _ _ => rfl

theorem oblivious_note {e : Entry} : Oblivious (note e : Logged ε Unit) := fun _ _ => rfl

theorem Oblivious.bind (hm : Oblivious m) (hf : ∀ a, Oblivious (f a)) : Oblivious (m >>= f) := by
  intro es es'
  have h := hm es es'
  rcases h₁ : m es with ⟨e | a, s₁⟩ <;> rcases h₂ : m es' with ⟨e' | a', s₂⟩ <;>
    rw [h₁, h₂] at h <;> cases h
  · rw [bind_error h₁, bind_error h₂]
  · rw [bind_ok h₁, bind_ok h₂]
    exact hf a s₁ s₂

theorem Oblivious.mapError {g : ε → ε'} (hm : Oblivious m) : Oblivious (mapError g m) := by
  intro es es'
  have h := hm es es'
  have key (es : List Entry) : (Logged.mapError g m es).1 = (m es).1.mapError g := by
    change (do let p ← m es; pure (p.1.mapError g, p.2) : Id _).1 = _
    rfl
  rw [key, key, h]

/-- The outcome of a sequence is that of its parts, each on its own. -/
theorem collect_bind (hf : ∀ a, Oblivious (f a)) :
    (collect (m >>= f)).1 = (collect m).1 >>= fun a => (collect (f a)).1 := by
  change ((m >>= f) []).1 = (m []).1 >>= fun a => (f a []).1
  rcases h : m [] with ⟨e | a, es⟩
  · rw [bind_error h]
    rfl
  · rw [bind_ok h]
    exact hf a es []

end Logged

open Logged

namespace TypeExpr
variable {strict : Bool} {source : String}

theorem oblivious_lax {l : Laxity} : Oblivious (lax strict source l) := by
  unfold lax
  split
  · exact oblivious_throw
  · exact oblivious_note

theorem oblivious_rustHead {name : String} {count : Nat} :
    Oblivious (rustHead strict source name count) := by
  unfold rustHead
  split
  · exact oblivious_lax.bind fun _ => oblivious_pure
  · exact oblivious_lax.bind fun _ => oblivious_pure
  · exact oblivious_pure
  · exact oblivious_pure
  · exact oblivious_pure
  · exact oblivious_lax.bind fun _ => oblivious_pure
  · exact oblivious_pure
  · exact oblivious_pure
  · exact oblivious_lax.bind fun _ => oblivious_pure
  · exact oblivious_pure
  · split
    · exact oblivious_throw
    · split
      · exact oblivious_throw
      · split
        · exact oblivious_pure
        · exact oblivious_throw

mutual

theorem oblivious_toRust (t : TypeExpr) : Oblivious (toRust strict source t) := by
  match t with
  | .named name args =>
    rw [toRust]
    exact oblivious_rustHead.bind fun _ => (oblivious_toRustAll args).bind fun _ => oblivious_pure
  | .tuple items =>
    rw [toRust]
    exact (oblivious_toRustAll items).bind fun _ => oblivious_pure

theorem oblivious_toRustAll (ts : List TypeExpr) : Oblivious (toRustAll strict source ts) := by
  match ts with
  | [] => exact oblivious_pure
  | t :: ts =>
    rw [toRustAll]
    exact (oblivious_toRust t).bind fun _ => (oblivious_toRustAll ts).bind fun _ => oblivious_pure

end

theorem oblivious_rustText {witType : String} : Oblivious (rustText strict witType) :=
  oblivious_mk.bind fun t => (oblivious_toRust t).bind fun _ => oblivious_pure

end TypeExpr

namespace Signature
open TypeExpr
variable {st : StubSettings} {strict : Bool} {s : Signature}

theorem oblivious_route : Oblivious s.route := by
  unfold route
  split
  · exact oblivious_pure
  · split
    · exact oblivious_pure
    · exact oblivious_note.bind fun _ => oblivious_pure

theorem oblivious_result : Oblivious (s.result strict) := by
  unfold result
  split
  · exact oblivious_rustText
  · exact oblivious_pure

theorem oblivious_rustParams {fields : List Field} : Oblivious (rustParams strict fields) := by
  induction fields with
  | nil => exact oblivious_pure
  | cons f fs ih => exact oblivious_rustText.bind fun _ => ih.bind fun _ => oblivious_pure

theorem oblivious_plan : Oblivious (s.plan strict) :=
  oblivious_route.bind fun _ => oblivious_result.bind fun _ => oblivious_rustParams.bind fun _ =>
    oblivious_pure

theorem oblivious_stub : Oblivious (s.stub st) :=
  oblivious_plan.mapError.bind fun _ => oblivious_mk.bind fun _ => oblivious_pure

theorem oblivious_stubs {ss : List Signature} : Oblivious (stubs st ss) := by
  induction ss with
  | nil => exact oblivious_pure
  | cons s ss ih => exact oblivious_stub.bind fun _ => ih.bind fun _ => oblivious_pure

/-- Stubs are made one by one, each from its own signature. -/
theorem collect_stubs {ss : List Signature} :
    (stubs st ss).collect.1 = ss.mapM fun s => (s.stub st).collect.1 := by
  induction ss with
  | nil => rfl
  | cons s ss ih =>
    rw [List.mapM_cons, ← ih, stubs,
      collect_bind fun _ => oblivious_stubs.bind fun _ => oblivious_pure]
    congr
    funext a
    rw [collect_bind fun _ => oblivious_pure]
    rfl

end Signature

/-- The stubs of the signatures of an interface, each made from its own signature. -/
def Interface.stubs (st : StubSettings) (i : Interface) : Except StubError (List Stub) :=
  i.signatures.mapM fun s => (Signature.stub st s).collect.1

/-- The stubs of an interface if it has signatures and all of them have stubs. -/
def Interface.stubs? (st : StubSettings) (i : Interface) : Option (List Stub) :=
  if i.signatures = [] then none else (i.stubs st).toOption

namespace Library
open Assoc Text
variable {st : StubSettings} {i : Interface} {is : List Interface} {lib lib' : Library}
  {template : Option Template} {witPath world : String} {imports : List String}

/-- The module that an interface makes on its own. -/
def moduleOf? (st : StubSettings) (i : Interface) : Option (String × String) :=
  (i.stubs? st).map fun stubs => (Identifier.snake i.name, moduleBody stubs)

/-- Whether stubs need the hash map. -/
def needHashMap (stubs : List Stub) : Bool := stubs.any fun s => s.plan.usesHashMap

/-- What adding an interface comes to, whatever was added before. -/
def outcomeOf (st : StubSettings) (i : Interface) : Except StubError Bool :=
  if i.signatures = [] then .ok false else (i.stubs st).map fun _ => true

theorem outcome_add : (lib.add st i).outcome = outcomeOf st i := by
  unfold add outcomeOf Interface.stubs
  rw [← Signature.collect_stubs]
  split
  · rfl
  · rcases (Signature.stubs st i.signatures).collect with ⟨e | stubs, es⟩ <;> rfl

theorem outcomeOf_eq_true_iff : outcomeOf st i = .ok true ↔ (i.stubs? st).isSome := by
  unfold outcomeOf Interface.stubs?
  split
  · simp
  · cases i.stubs st <;> simp [Except.map, Except.toOption]

/-- An interface is added with its module or without any. -/
theorem library_add : (lib.add st i).library =
    ((i.stubs? st).elim (lib.declare i) fun stubs => (lib.declare i).addModule i stubs) := by
  unfold add Interface.stubs? Interface.stubs
  rw [← Signature.collect_stubs]
  split
  · rfl
  · rcases (Signature.stubs st i.signatures).collect with ⟨e | stubs, es⟩ <;> rfl

theorem modules_add :
    (lib.add st i).library.modules = insertAll lib.modules (moduleOf? st i).toList := by
  rw [library_add, moduleOf?]
  cases i.stubs? st <;> rfl

theorem usesHashMap_add :
    (lib.add st i).library.usesHashMap = (lib.usesHashMap || (i.stubs? st).any needHashMap) := by
  rw [library_add]
  cases i.stubs? st with
  | none => exact (Bool.or_false _).symm
  | some stubs => rfl

/-- The library after interfaces were added one after the other. -/
def gather (st : StubSettings) (is : List Interface) (lib : Library) : Library :=
  is.foldl (fun lib i => (lib.add st i).library) lib

theorem modules_gather :
    (gather st is lib).modules = insertAll lib.modules (is.filterMap (moduleOf? st)) := by
  induction is generalizing lib with
  | nil => rfl
  | cons i is ih =>
    have hcons : (i :: is).filterMap (moduleOf? st) =
        (moduleOf? st i).toList ++ is.filterMap (moduleOf? st) := by
      rw [List.filterMap_cons]
      cases moduleOf? st i <;> rfl
    rw [gather, List.foldl_cons, hcons, insertAll_append, ← modules_add]
    exact ih

theorem usesHashMap_gather : (gather st is lib).usesHashMap =
    (lib.usesHashMap || (is.filterMap fun i => i.stubs? st).any needHashMap) := by
  induction is generalizing lib with
  | nil => exact (Bool.or_false _).symm
  | cons i is ih =>
    have hcons : ((i :: is).filterMap fun i => i.stubs? st).any needHashMap =
        ((i.stubs? st).any needHashMap || (is.filterMap fun i => i.stubs? st).any needHashMap) := by
      rw [List.filterMap_cons]
      cases i.stubs? st <;> rfl
    rw [gather, List.foldl_cons, hcons, ← Bool.or_assoc, ← usesHashMap_add]
    exact ih

/-- The text of a library depends on its modules and on the need of the hash map only. -/
theorem render_congr (hm : lib.modules = lib'.modules) (hh : lib.usesHashMap = lib'.usesHashMap) :
    lib.render template witPath world imports = lib'.render template witPath world imports := by
  simp only [render, fullText, holes, hm, hh]

end Library

end WitCaller
