import Desugar.Symbols.Table

/-!
# Scopes and bindings

Resolving a name climbs from a scope to its ancestors by the parent links.
Nothing keeps a table that was read from having parents that go round in a
circle, so that climbing may have no end.
-/

namespace Desugar
namespace SymbolTable

def binding? (table : SymbolTable) (id : BindingId) : Option Binding :=
  table.bindings[id.index]?

def scope? (table : SymbolTable) (id : ScopeId) : Option Scope :=
  table.scopes[id.index]?

def newScope (table : SymbolTable) (parent : ScopeId) : ScopeId × SymbolTable :=
  (⟨table.scopes.size⟩, { table with scopes := table.scopes.push ⟨some parent, []⟩ })

/-!
## Climbing
-/

def chainFrom (table : SymbolTable) : Nat → ScopeId → List ScopeId
  | 0, _ => []
  | n + 1, scope =>
      match (table.scope? scope).bind Scope.parent with
      | none => [scope]
      | some parent => scope :: table.chainFrom n parent

/-- A scope and its ancestors, innermost first, without repeating a round of
parents that goes round for ever. -/
def chain (table : SymbolTable) (scope : ScopeId) : List ScopeId :=
  table.chainFrom (table.scopes.size + 1) scope

def isWithin (table : SymbolTable) (inner outer : ScopeId) : Bool :=
  (table.chain inner).contains outer

/-- The scope some levels up. -/
def climb (table : SymbolTable) : Nat → ScopeId → Option ScopeId
  | 0, scope => some scope
  | n + 1, scope => ((table.scope? scope).bind Scope.parent).bind (table.climb n)

/-- Whether the parents of a scope go on for ever: they do once they are more
than there are scopes. -/
def isEndless (table : SymbolTable) (scope : ScopeId) : Bool :=
  (table.climb (table.scopes.size + 1) scope).isSome

/-- Whether {inner} is within {outer}, found out by climbing from {inner} until
{outer} is met or there is no parent.  A climb that never ends gives no
answer. -/
def isWithin? (table : SymbolTable) (inner outer : ScopeId) : Option Bool :=
  if table.isWithin inner outer then some true
  else if table.isEndless inner then none
  else some false

def lookupLocal (table : SymbolTable) (scope : ScopeId) (name : String) : Option BindingId :=
  (table.scope? scope).bind (fun found => found.find? name)

def lookup (table : SymbolTable) (scope : ScopeId) (name : String) : Option BindingId :=
  (table.chain scope).findSome? (fun scope => table.lookupLocal scope name)

/-!
## Declaring
-/

def pushBinding (table : SymbolTable) (binding : Binding) : BindingId × SymbolTable :=
  let id : BindingId := ⟨table.bindings.size⟩
  (id, { table with
    scopes := table.scopes.modify binding.scope.index (fun scope => scope.insert binding.name id)
    bindings := table.bindings.push binding })

def declare (table : SymbolTable) (scope : ScopeId) (name : String) (ty : Option TypeId)
    (kind : BindingKind) : BindingId × SymbolTable :=
  table.pushBinding ⟨name, ty, scope, kind, false⟩

def declareSynthetic (table : SymbolTable) (scope : ScopeId) (name : String) (ty : TypeId) :
    BindingId × SymbolTable :=
  table.pushBinding ⟨name, some ty, scope, .var, true⟩

/-!
## Fresh names
-/

def reserve (table : SymbolTable) (names : List String) : SymbolTable :=
  { table with reserved := names ++ table.reserved }

def takenNames (table : SymbolTable) : List String :=
  table.reserved ++ table.bindings.toList.map Binding.name

def candidate (stem : String) : Nat → String
  | 0 => stem
  | n + 1 => stem ++ toString (n + 1)

/-- The first free candidate from number {k} on, giving up after {fuel} taken
ones. -/
def firstFree (taken : List String) (stem : String) : Nat → Nat → String
  | 0, k => candidate stem k
  | fuel + 1, k =>
      if taken.contains (candidate stem k) then firstFree taken stem fuel (k + 1)
      else candidate stem k

def freshName (table : SymbolTable) (stem : String) : String × SymbolTable :=
  let taken := table.takenNames
  let name := firstFree taken stem taken.length 0
  (name, table.reserve [name])

end SymbolTable

/-!
## Scopes in force during a walk

Entering a node with a recorded scope pushes it, leaving the node pops it.  A
node without one leaves the stack as it is.
-/

structure ScopeStack where
  frames : List (NodeId × ScopeId)
deriving Inhabited

namespace ScopeStack

def empty : ScopeStack :=
  ⟨[]⟩

def enter (stack : ScopeStack) (table : SymbolTable) (node : NodeId) : ScopeStack :=
  match table.scopeOf[node]? with
  | none => stack
  | some scope => ⟨(node, scope) :: stack.frames⟩

def exit (stack : ScopeStack) (node : NodeId) : ScopeStack :=
  match stack.frames with
  | (top, _) :: rest => if top = node then ⟨rest⟩ else stack
  | [] => stack

/-- The innermost scope entered so far. -/
def current (stack : ScopeStack) : Option ScopeId :=
  stack.frames.head?.map Prod.snd

def depth (stack : ScopeStack) : Nat :=
  stack.frames.length

end ScopeStack
end Desugar
