import BlockProgram.Scope.Visit

/-!
# Owners and declarations of variables

After the walk, each variable that was bound at the root for the time being moves to the innermost
scope that holds all its uses, and it is decided where its declaration goes: into its first
assignment if that comes before every other use, else in front of the first statement of its scope.
-/

namespace BlockProgram

namespace Compilation

/-- The variables used, or assigned, right in a scope. -/
def usesIn (c : Compilation) (assigned : Bool) (s : ScopeId) : List BindingId :=
  if assigned then (c.scope s).assigned else (c.scope s).referenced

/-- Whether a variable is used, or assigned, in a scope or up to `fuel` levels below it. -/
def usedBelowFrom (c : Compilation) (assigned : Bool) (v : BindingId) : Nat → ScopeId → Bool
  | 0, _ => false
  | fuel + 1, s =>
    (c.usesIn assigned s).contains v ||
      (c.scope s).children.any (c.usedBelowFrom assigned v fuel)

/-- Whether a variable is used, or assigned, in a scope or below it. -/
def usedBelow (c : Compilation) (assigned : Bool) (v : BindingId) (s : ScopeId) : Bool :=
  c.usedBelowFrom assigned v c.scopes.size s

/-- Goes down from a scope that does not use the variable itself to its only child that does, as
long as that child also assigns it, for at most `fuel` levels. -/
def ownerFrom (c : Compilation) (v : BindingId) : Nat → ScopeId → ScopeId
  | 0, s => s
  | fuel + 1, s =>
    if v ∈ (c.scope s).referenced then s
    else
      match (c.scope s).children.filter (c.usedBelow false v) with
      | [only] => if c.usedBelow true v only then c.ownerFrom v fuel only else s
      | _ => s

/-- The scope that should declare a variable bound at the root. -/
def owner (c : Compilation) (v : BindingId) : ScopeId :=
  c.ownerFrom v c.scopes.size rootScope

/-- Moves a variable from the root to its owner, unless it is declared already or its name is taken
there. -/
def narrow (c : Compilation) (e : String × BindingId) : Compilation :=
  let owner := c.owner e.2
  if (c.binding e.2).declared.isSome || owner = rootScope ||
      (c.scope owner).declared.contains e.1 then c
  else
    (c.updateScope rootScope fun s => { s with declared := s.declared.erase e.1 }).updateScope owner
      fun s => { s with declared := s.declared.insert e.1 e.2 }

def narrowAll (c : Compilation) : Compilation :=
  (c.scope rootScope).declared.entries.foldl narrow c

end Compilation

namespace Program

/-! ## Declaration sites -/

/-- Whether a statement is an assignment to a variable with the given references whose value does
not read it. -/
def declaresInline (p : Program) (references : List BlockRef) (statement : BlockRef) : Bool :=
  let block := p.block statement
  block.kind == .variableSet && references.contains statement &&
    !(block.inputTarget? "VALUE").any fun value =>
      (p.workspace.descendants value).any references.contains

/-- The first statement of a scope that uses a variable, if it can declare it. -/
def inlineSite? (p : Program) (c : Compilation) (s : ScopeId) (v : BindingId) : Option BlockRef :=
  let references := (c.binding v).references
  let first := (c.scope s).statements.find? fun b =>
    (p.workspace.subtree b).any references.contains
  first.filter (p.declaresInline references)

/-- Adds a variable to those declared right before a statement. -/
def declareBefore (b : BlockRef) (v : BindingId) (c : Compilation) : Compilation :=
  let known := (c.blockDeclarations.get? b).getD []
  { c with blockDeclarations := c.blockDeclarations.insert b (known ++ [v]) }

/-- The statement in front of which a scope declares its variables. -/
def scopeHead? (s : Scope) : Option BlockRef :=
  s.statements.head?.or s.first

/-- Decides where a variable of a scope is declared. -/
def markSite (p : Program) (s : ScopeId) (c : Compilation) (v : BindingId) : Compilation :=
  if (c.binding v).declared.isSome then c
  else
    match p.inlineSite? c s v with
    | some b => c.updateBinding v ({ · with declared := some .assigned, first := some b })
    | none =>
      match scopeHead? (c.scope s) with
      | some b =>
        if s = Compilation.rootScope then { c with rootDeclarations := c.rootDeclarations ++ [v] }
        else declareBefore b v c
      | none => { c with rootDeclarations := c.rootDeclarations ++ [v] }

def markScope (p : Program) (c : Compilation) (s : ScopeId) : Compilation :=
  (c.scope s).declared.values.foldl (p.markSite s) c

def markAll (p : Program) (c : Compilation) : Compilation :=
  (List.range c.scopes.size).foldl p.markScope c

end Program

end BlockProgram
