import Desugar.Symbols.Scopes
import Desugar.Symbols.Arena

/-!
# Effects of expressions

What evaluating an expression may read, and whether it calls anything.  A call
may read and write everything; a read through a pointer, slice, map or field may
see any variable, since any variable may be aliased.
-/

namespace Desugar

/-- A place that an expression may read or an assignment may write: a variable,
a variable known by its name only, or anything reached through memory. -/
inductive Location where
  | binding (id : BindingId)
  | name (name : String)
  | memory
deriving DecidableEq, Inhabited

structure Effects where
  reads : List Location
  calls : Bool
deriving DecidableEq, Inhabited

namespace Effects

def none : Effects :=
  ⟨[], false⟩

def read (location : Location) : Effects :=
  ⟨[location], false⟩

instance : Append Effects where
  append a b := ⟨a.reads ++ b.reads, a.calls || b.calls⟩

end Effects

namespace SymbolTable

def variableAt (table : SymbolTable) (node : NodeId) (name : String) : Location :=
  match table.bindingOf node with
  | some binding => .binding binding
  | none => .name name

def bindingKind (table : SymbolTable) (e : Expr) : Option BindingKind :=
  ((table.bindingOf e.id).bind table.binding?).map Binding.kind

/-- Builtins that neither read nor write memory beyond their arguments. -/
def pureBuiltins : List String :=
  ["len", "cap", "new", "make", "complex", "real", "imag", "min", "max"]

def isPureCallee (table : SymbolTable) (callee : Expr) : Bool :=
  match callee.unparen with
  | .type _ _ => true
  | .ident id name =>
      match table.bindingKind (.ident id name) with
      | some .typeName => true
      | some .builtin => pureBuiltins.contains name
      | _ => false
  | _ => false

end SymbolTable

mutual

/-- The effects of evaluating an expression.  The body of a function literal is
not evaluated. -/
def Expr.effects (table : SymbolTable) : Expr → Effects
  | .ident id name => if name = blank then .none else .read (table.variableAt id name)
  | .lit _ _ => .none
  | .composite _ _ elts => Exprs.effects table elts
  | .keyValue _ key value => key.effects table ++ value.effects table
  | .funcLit _ _ _ => .none
  | .paren _ x => x.effects table
  | .selector id x _ =>
      (if table.selections[id]? = some .method then .none else .read .memory) ++
        (if table.bindingKind x = some .package then .none else x.effects table)
  | .index _ x index => .read .memory ++ x.effects table ++ index.effects table
  | .slice _ x low high max =>
      .read .memory ++ x.effects table ++ OptExpr.effects table low ++ OptExpr.effects table high ++
        OptExpr.effects table max
  | .typeAssert _ x _ => x.effects table
  | .call _ callee args _ =>
      (if table.isPureCallee callee then .none else ⟨[], true⟩ ++ callee.effects table) ++
        Exprs.effects table args
  | .star _ x => .read .memory ++ x.effects table
  | .unary _ _ x => x.effects table
  | .binary _ _ x y => x.effects table ++ y.effects table
  | .type _ _ => .none

def Exprs.effects (table : SymbolTable) : List Expr → Effects
  | [] => .none
  | e :: rest => e.effects table ++ Exprs.effects table rest

def OptExpr.effects (table : SymbolTable) : Option Expr → Effects
  | none => .none
  | some e => e.effects table

end

/-!
## Targets
-/

def Expr.targetEffects (table : SymbolTable) (target : Expr) : Effects :=
  match target.unparen with
  | .ident _ _ => .none
  | .index _ x i => x.effects table ++ i.effects table
  | .star _ x => x.effects table
  | .selector _ x _ => x.effects table
  | _ => target.effects table

def Expr.written (table : SymbolTable) (target : Expr) : Option Location :=
  match target.unparen with
  | .ident id name => if name = blank then none else some (table.variableAt id name)
  | _ => some .memory

def Location.disturbs (location : Location) (later : Effects) : Bool :=
  later.calls ||
    match location with
    | .memory => !later.reads.isEmpty
    | location => later.reads.any (fun read => read = location || read = .memory)

/-- Whether assigning pairs of target and source one after the other could
change a value that a later one evaluates. -/
def hazardous (table : SymbolTable) : List (Expr × Expr) → Bool
  | [] => false
  | (target, source) :: rest =>
      let later := rest.foldr
        (fun pair effects => pair.2.effects table ++ pair.1.targetEffects table ++ effects) .none
      (target.written table).any (fun location => location.disturbs later) ||
        ((source.effects table).calls &&
          rest.any (fun pair => !(pair.1.targetEffects table).reads.isEmpty)) ||
        hazardous table rest

end Desugar
