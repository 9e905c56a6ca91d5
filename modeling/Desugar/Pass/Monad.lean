import Desugar.Problem
import Desugar.Symbols.Arena
import Desugar.Symbols.Scopes
import Desugar.Symbols.Spelling
import Desugar.Syntax.Supply

/-!
# Passes

A pass works on a file and its symbol table, draws fresh identities, and
reports problems.  A problem that is thrown leaves everything done before it in
place, so that a pass can catch it and go on.  Running out of identities or of
numbers to count with, or searching without an end, is not a problem of the
program and is never caught.
-/

namespace Desugar

inductive Fault where
  | problem (problem : Problem)
  | exhausted
  | endless
deriving DecidableEq, Inhabited

/-- What a pass works on.  The scopes in force and the number of changes belong
to the walk in progress; the number of applications is that of the walks
completed. -/
structure Pass where
  file : File
  table : SymbolTable
  ids : NodeSupply
  diagnostics : List Diagnostic
  scopes : ScopeStack
  changes : Nat
  applications : Nat

/-- What a pass is told: its rule, what the file can name, and the stem of the
names of temporaries. -/
structure PassEnv where
  rule : String
  view : PackageView
  tempStem : String

abbrev PassM (α : Type) := ReaderT PassEnv (ExceptT Fault (StateM Pass)) α

namespace PassM

variable {α : Type}

def raise (problem : Problem) : PassM α :=
  throw (.problem problem)

def require (value : Option α) (problem : Problem) : PassM α :=
  match value with
  | some a => pure a
  | none => raise problem

def freshId : PassM NodeId := do
  let pass ← get
  match pass.ids.take? with
  | some (id, ids) => do
      set { pass with ids := ids }
      return id
  | none => throw .exhausted

/-!
## The file and the table
-/

def getFile : PassM File :=
  return (← get).file

def setFile (file : File) : PassM Unit :=
  modify fun pass => { pass with file := file }

def getTable : PassM SymbolTable :=
  return (← get).table

def search (find : SymbolTable → Option α) : PassM α := do
  match find (← getTable) with
  | some a => return a
  | none => throw .endless

def modifyTable (f : SymbolTable → SymbolTable) : PassM Unit :=
  modify fun pass => { pass with table := f pass.table }

def onTable (f : SymbolTable → α × SymbolTable) : PassM α :=
  modifyGet fun pass =>
    let (a, table) := f pass.table
    (a, { pass with table := table })

/-!
## Problems that do not stop the pass
-/

def report (problem : Problem) (snippet : Option String) : PassM Unit := do
  let rule := (← read).rule
  modify fun pass =>
    { pass with diagnostics := pass.diagnostics ++ [problem.diagnose rule snippet] }

def tolerate (problem : Problem) (snippet : Option String) : PassM Unit :=
  if problem.severity = .declaration then report problem snippet else raise problem

/-- Do something for a single declaration.  When that has a problem of its own,
report it with the given source and fall back. -/
def orElseKeep (action : PassM α) (snippet : String) (fallback : PassM α) : PassM α :=
  tryCatch action fun
    | .problem problem => do
        tolerate problem (some snippet)
        fallback
    | fault => throw fault

/-!
## The walk in progress
-/

def startWalk : PassM Unit :=
  modify fun pass => { pass with scopes := .empty, changes := 0 }

def countChange : PassM Unit :=
  modify fun pass => { pass with changes := pass.changes + 1 }

def enter (node : NodeId) : PassM Unit :=
  modify fun pass => { pass with scopes := pass.scopes.enter pass.table node }

def exit (node : NodeId) : PassM Unit :=
  modify fun pass => { pass with scopes := pass.scopes.exit node }

def within (node : NodeId) (part : PassM α) : PassM α := do
  enter node
  let result ← part
  exit node
  return result

def scope? : PassM (Option ScopeId) :=
  return (← get).scopes.current

def scopeAt (node : NodeId) : PassM ScopeId := do
  require (← scope?) (.missingScope node "enclosing statement list")

end PassM
end Desugar
