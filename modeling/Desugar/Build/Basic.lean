import Desugar.Symbols.Arena
import Desugar.Symbols.Scopes
import Desugar.Symbols.Spelling
import Desugar.Syntax.Supply

/-!
# Building typed trees

A builder makes a tree together with the symbol table a checker would produce
for it: every expression typed, every identifier resolved, every node that
introduces a scope mapped to its scope.  Parts of a construct that has a scope
are built while that scope is current.  Building fails only when identities run
out.
-/

namespace Desugar

structure Builder where
  table : SymbolTable
  ids : NodeSupply
  fileId : NodeId
  fileScope : ScopeId
  /-- Scopes opened inside the file scope, innermost first. -/
  inner : List ScopeId
  package : String
  path : String
  imports : List Import

abbrev Build (α : Type) := StateT Builder Option α

namespace Build

def start (package : String) (path : String) : Option Builder := do
  let ids ← NodeSupply.after? ⟨0⟩
  let (fileId, ids) ← ids.take?
  let (fileScope, table) := SymbolTable.empty.newScope SymbolTable.outermost
  return {
    table := table.attachScope fileId fileScope
    ids := ids
    fileId := fileId
    fileScope := fileScope
    inner := []
    package := package
    path := path
    imports := [] }

def freshId : Build NodeId := do
  let builder ← get
  let (id, ids) ← builder.ids.take?
  set { builder with ids := ids }
  return id

def getTable : Build SymbolTable :=
  return (← get).table

def modifyTable (f : SymbolTable → SymbolTable) : Build Unit :=
  modify fun builder => { builder with table := f builder.table }

def onTable {α : Type} (f : SymbolTable → α × SymbolTable) : Build α :=
  modifyGet fun builder =>
    let (a, table) := f builder.table
    (a, { builder with table := table })

def scope : Build ScopeId := do
  let builder ← get
  return builder.inner.headD builder.fileScope

def inScope {α : Type} (node : NodeId) (part : Build α) : Build α := do
  let outer ← scope
  let opened ← onTable (fun table => table.newScope outer)
  modifyTable (fun table => table.attachScope node opened)
  modify fun builder => { builder with inner := opened :: builder.inner }
  let result ← part
  modify fun builder => { builder with inner := builder.inner.tail }
  return result

def finish (decls : List TopDecl) : Build (File × SymbolTable) := do
  let builder ← get
  return (⟨builder.fileId, builder.package, builder.path, builder.imports, decls⟩, builder.table)

end Build
end Desugar
