import BlockProgram.Scope.Ownership
import BlockProgram.Text.Identifier

/-!
# Output names

Every variable gets an identifier that is neither reserved nor taken, and that no other variable of
its scope or of a scope around it has.
-/

namespace BlockProgram

namespace Compilation

/-- Names one variable; `taken` are the names that are in use so far. -/
def nameOne (acc : List String × Compilation) (v : BindingId) : List String × Compilation :=
  let name := Text.fresh acc.1 (Text.identifier (acc.2.binding v).name)
  (name :: acc.1, acc.2.updateBinding v ({ · with outputName := some name }))

/-- Names the variables of a scope and up to `fuel` levels of scopes below it. -/
def nameScope (taken : List String) : Nat → Compilation → ScopeId → Compilation
  | 0, c, _ => c
  | fuel + 1, c, s =>
    let (taken, c) := (c.scope s).declared.values.foldl nameOne (taken, c)
    (c.scope s).children.foldl (nameScope taken fuel) c

def nameAll (c : Compilation) : Compilation :=
  nameScope (Text.reservedWords ++ c.taken) c.scopes.size c rootScope

end Compilation

namespace Program

/-- Finds the scopes of a program, the owners and declarations of its variables and their names. -/
def track (p : Program) : TrackM Unit := do
  p.visitAll
  modify Compilation.narrowAll
  modify p.markAll
  modify Compilation.nameAll

end Program

end BlockProgram
