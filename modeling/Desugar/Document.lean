import Desugar.Json.Writer
import Desugar.Pipeline.Run
import Desugar.Symbols.Decode
import Desugar.Syntax.Copy

/-!
# Documents

A document is a tree together with what the checker found out about it, as the
text in which both are exchanged.
-/

namespace Desugar

structure Document where
  file : File
  table : SymbolTable

namespace Document

def toJson (document : Document) : Json :=
  .obj [("file", document.file.toJson), ("table", document.table.toJson)]

def ofJson? (value : Json) : Option Document := do
  let fields ← Json.record? ["file", "table"] value
  let file ← fields.required "file" File.ofJson?
  let table ← fields.required "table" SymbolTable.ofJson?
  return ⟨file, table⟩

def write (document : Document) : String :=
  document.toJson.pretty

def parse? (text : String) : Option Document :=
  (Json.parseShallow? text).bind ofJson?

def violations (document : Document) : List Violation :=
  document.file.check document.table Property.all

def render (document : Document) : String :=
  document.file.render

def normalize (document : Document) (pipeline : Pipeline) : Except Fault (Report × Document) := do
  let outcome := pipeline.run document.file document.table
  let report ← outcome.result
  return (report, ⟨outcome.file, outcome.table⟩)

/-- Add a copy of a statement to the end of the function body it stands in.  The
copy has identities of its own.  There is no result when there is no such
statement. -/
def repeatStmt? (document : Document) (decl stmt : Nat) :
    Option (Except Fault (Stmt × Document)) := do
  let some (.func fn) := document.file.decls[decl]? | none
  let body ← fn.body
  let source ← body.stmts[stmt]?
  let copied := do
    let ids ← NodeSupply.after? (document.file.maxId.larger document.table.maxNode)
    source.refresh (ids, document.table)
  match copied with
  | none => return .error .exhausted
  | some (copy, _, table) =>
      let fn := { fn with body := some ⟨body.id, body.stmts ++ [copy]⟩ }
      let decls := document.file.decls.set decl (.func fn)
      return .ok (copy, ⟨{ document.file with decls := decls }, table⟩)

end Document
end Desugar
