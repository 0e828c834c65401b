import BlockProgram.Proofs.Emit.Statements

/-!
# Writing only adds

Writing is not idle: it makes placeholders, and it types what was not typed before. Yet each step of
it goes forward (`Forward`): whether it fails or not, it leaves scopes and variables alone and keeps
all that is known about types. For the functions that make code this is what remains of what they
yield when nothing is asked of the code (`EmitsForward.plugged`).
-/

namespace BlockProgram

open Compilation Program

variable {p : Program} {α β : Type}

/-- A step of writing goes forward whenever it is run, even if it fails. -/
def Forward (p : Program) (m : CompileM α) : Prop :=
  ∀ c, Yields p c m (fun _ => True)

namespace Forward

variable {m : CompileM α}

theorem pure (a : α) : Forward p (Pure.pure a) :=
  fun _ => .pure trivial

theorem bind {f : α → CompileM β} (h : Forward p m) (hf : ∀ a, Forward p (f a)) :
    Forward p (m >>= f) :=
  fun c => (h c).bind fun a _ => hf a c

theorem bind_get {f : Compilation → CompileM β} (hf : ∀ d, Forward p (f d)) :
    Forward p (get >>= f) :=
  fun c => .bind_get fun d _ => hf d c

theorem mapM {f : α → CompileM β} (hf : ∀ a, Forward p (f a)) (l : List α) : Forward p (l.mapM f) :=
  fun c => (Yields.mapM fun a _ => hf a c).imp fun _ _ => trivial

/-- What is known before a step is known after it, whatever its outcome. -/
theorem moves (h : Forward p m) {c : Compilation} (hc : Consistent p c) :
    Moves (Proceeds p) m c (fun _ _ => True) :=
  h c c hc (Advances.refl c)

end Forward

structure EmitsForward (p : Program) (e : Emitter) : Prop where
  expression : ∀ b, Forward p (e.expression b)
  statement : ∀ b, Forward p (e.statement b)

/-! ## Types and variables -/

theorem forward_targetTypeName (t : Target) : Forward p (p.targetTypeName t) :=
  fun _ => yields_targetTypeName t

theorem forward_variableTypeName (v : BindingId) : Forward p (liftM (variableTypeName v)) :=
  fun _ => yields_variableTypeName v

theorem forward_lookup (b : BlockRef) (name : String) : Forward p (p.lookup b name) :=
  fun _ => (yields_lookup b name).imp fun _ _ => trivial

theorem forward_attach (b : BlockRef) (input : String) (type : Option TypeName) :
    Forward p (liftM (p.attach b input type)) :=
  fun _ => .lift fun _ hd _ => (runs_attach hd b input type).imp fun _ _ _ _ => trivial

theorem forward_emitDeclaration (v : BindingId) : Forward p (liftM (emitDeclaration v)) :=
  fun _ => (yields_emitDeclaration v).imp fun _ _ => trivial

theorem forward_emitDeclarations (b : BlockRef) : Forward p (liftM (emitDeclarations b)) :=
  fun _ => (yields_emitDeclarations b).imp fun _ _ => trivial

theorem forward_emitParameter (b : BlockRef) (a : FunctionArg) : Forward p (p.emitParameter b a) :=
  (forward_lookup b a.name).bind fun v => (forward_variableTypeName v).bind fun _ =>
    .bind_get fun _ => .pure _

section Writing

variable {e : Emitter} (he : EmitsForward p e) (b : BlockRef)
include he

/-! ## Inputs and chains -/

theorem forward_emitTarget (t : Target) : Forward p (p.emitTarget e t) := by
  cases t with
  | block b => exact (he.expression b).bind fun _ => .pure _
  | placeholder i => exact (forward_targetTypeName _).bind fun _ => .pure _

theorem forward_emitInput (input : String) : Forward p (p.emitInput e b input) :=
  (forward_attach b input none).bind fun t => forward_emitTarget he t

theorem forward_emitLink : Forward p (emitLink e b) :=
  (forward_emitDeclarations b).bind fun _ => (he.statement b).bind fun _ => .pure _

theorem forward_emitChain (first : Option BlockRef) : Forward p (p.emitChain e first) :=
  .bind_get fun _ => (Forward.mapM (forward_emitLink he) _).bind fun _ => .pure _

theorem forward_emitBody (first : Option BlockRef) : Forward p (p.emitBody e first) :=
  (forward_emitChain he first).bind fun _ => .pure _

/-! ## All blocks -/

/-- What is plugged into a block is written, whatever the code. -/
theorem EmitsForward.plugged (c : Compilation) : EmitsPlugged p c e b fun _ _ => True where
  toAccounting := accounting_true
  value _ _ t _ _ := he.expression t c
  chain first _ := forward_emitChain he first c

theorem forward_expressionStep : Forward p (p.expressionStep e b) :=
  fun c => yields_expressionStep (he.plugged b c)

theorem forward_emitLines : Forward p (p.emitLines e b) := by
  by_cases hstart : (p.block b).kind = .onStart
  · unfold emitLines
    dsimp only
    rw [hstart]
    exact forward_emitChain he _
  by_cases hraw : (p.block b).kind = .rawStatement
  · unfold emitLines
    dsimp only
    rw [hraw]
    exact .pure _
  exact fun c => (yields_emitLines (he.plugged b c) hstart hraw).imp fun _ _ => trivial

end Writing

theorem emitsForward_emitterFrom (fuel : Nat) : EmitsForward p (p.emitterFrom fuel) := by
  induction fuel with
  | zero => exact ⟨fun _ => .pure _, fun _ => .pure _⟩
  | succ fuel ih =>
    exact ⟨forward_expressionStep ih, fun b => (forward_emitLines ih b).bind fun _ => .pure _⟩

theorem emitsForward_emitter (p : Program) : EmitsForward p p.emitter :=
  emitsForward_emitterFrom _

end BlockProgram
