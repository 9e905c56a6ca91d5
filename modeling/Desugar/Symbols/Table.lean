import Std.Data.ExtTreeMap
import Desugar.Symbols.Types

/-!
# The symbol table

What the checker knows about a tree: the arena of types, the facts recorded for
its nodes, the lexical scopes and the bindings declared in them.  The table
also remembers names that no new binding may take; those are a matter of one
run and are not part of a document.
-/

namespace Desugar

structure BindingId where
  index : Nat
deriving DecidableEq, Inhabited

structure ScopeId where
  index : Nat
deriving DecidableEq, Inhabited

inductive Selection where
  | field
  | method
deriving DecidableEq, Inhabited

inductive BindingKind where
  | var
  | const
  | typeName
  | func
  | package
  | builtin
  | nil
deriving DecidableEq, Inhabited

/-- A name declared in a scope.  A synthetic binding was introduced by a rule,
not by the checker. -/
structure Binding where
  name : String
  ty : Option TypeId
  scope : ScopeId
  kind : BindingKind
  synthetic : Bool
deriving DecidableEq, Inhabited

/-- A lexical scope: its parent and the names declared directly in it, in the
order of their first declaration. -/
structure Scope where
  parent : Option ScopeId
  names : List (String × BindingId)
deriving DecidableEq, Inhabited

namespace Scope

def find? (scope : Scope) (name : String) : Option BindingId :=
  (scope.names.find? (fun entry => entry.1 == name)).map Prod.snd

def setName (name : String) (binding : BindingId) :
    List (String × BindingId) → List (String × BindingId)
  | [] => [(name, binding)]
  | entry :: rest =>
      if entry.1 == name then (name, binding) :: rest else entry :: setName name binding rest

def insert (scope : Scope) (name : String) (binding : BindingId) : Scope :=
  { scope with names := setName name binding scope.names }

end Scope

/-!
## Facts keyed by node
-/

namespace NodeId

instance : Std.TransOrd NodeId where
  eq_swap {a _} := Std.OrientedOrd.eq_swap (a := a.val)
  isLE_trans {a b c} first second :=
    Std.TransOrd.isLE_trans (a := a.val) (b := b.val) (c := c.val) first second

instance : Std.LawfulEqOrd NodeId where
  eq_of_compare {a b} equal := by
    cases a
    cases b
    exact congrArg NodeId.mk (Std.LawfulEqOrd.eq_of_compare equal)

end NodeId

abbrev NodeMap (α : Type) :=
  Std.ExtTreeMap NodeId α

structure SymbolTable where
  types : Array Ty
  exprTypes : NodeMap TypeId
  defs : NodeMap BindingId
  uses : NodeMap BindingId
  selections : NodeMap Selection
  scopes : Array Scope
  scopeOf : NodeMap ScopeId
  bindings : Array Binding
  reserved : List String

namespace SymbolTable

/-- The table of an empty program: one scope, the universe, and nothing in it. -/
def empty : SymbolTable where
  types := #[]
  exprTypes := ∅
  defs := ∅
  uses := ∅
  selections := ∅
  scopes := #[⟨none, []⟩]
  scopeOf := ∅
  bindings := #[]
  reserved := []

def outermost : ScopeId :=
  ⟨0⟩

instance : Inhabited SymbolTable :=
  ⟨empty⟩

def bindingOf (table : SymbolTable) (node : NodeId) : Option BindingId :=
  table.defs[node]? <|> table.uses[node]?

def recordType (table : SymbolTable) (node : NodeId) (ty : TypeId) : SymbolTable :=
  { table with exprTypes := table.exprTypes.insert node ty }

def recordDef (table : SymbolTable) (node : NodeId) (binding : BindingId) : SymbolTable :=
  { table with uses := table.uses.erase node, defs := table.defs.insert node binding }

def recordUse (table : SymbolTable) (node : NodeId) (binding : BindingId) : SymbolTable :=
  { table with defs := table.defs.erase node, uses := table.uses.insert node binding }

def recordSelection (table : SymbolTable) (node : NodeId) (selection : Selection) : SymbolTable :=
  { table with selections := table.selections.insert node selection }

def attachScope (table : SymbolTable) (node : NodeId) (scope : ScopeId) : SymbolTable :=
  { table with scopeOf := table.scopeOf.insert node scope }

/-- Hand the scope of one node over to another, as when a new block takes over
the scope of the statement it wraps. -/
def moveScope (table : SymbolTable) (source target : NodeId) : Option ScopeId × SymbolTable :=
  match table.scopeOf[source]? with
  | none => (none, table)
  | some scope =>
      (some scope, { table with scopeOf := (table.scopeOf.erase source).insert target scope })

def copyEntry {α : Type} (source target : NodeId) (facts : NodeMap α) : NodeMap α :=
  match facts[source]? with
  | none => facts
  | some fact => facts.insert target fact

def copyFacts (table : SymbolTable) (source target : NodeId) : SymbolTable :=
  { table with
    exprTypes := copyEntry source target table.exprTypes
    defs := copyEntry source target table.defs
    uses := copyEntry source target table.uses
    selections := copyEntry source target table.selections
    scopeOf := copyEntry source target table.scopeOf }

/-- The largest node the table mentions, or zero. -/
def maxNode (table : SymbolTable) : NodeId :=
  [table.exprTypes.maxKey?, table.defs.maxKey?, table.uses.maxKey?, table.selections.maxKey?,
    table.scopeOf.maxKey?].foldl (fun largest key => key.elim largest largest.larger) ⟨0⟩

end SymbolTable
end Desugar
