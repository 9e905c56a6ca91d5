import Desugar.Document
import Desugar.Proofs.Runs
import Desugar.Proofs.TableReadback

/-!
# Documents written and read again

A document is recovered from its text when the text nests no deeper than can be
read, and is not read at all otherwise.  A run can make a document nest deeper than
that, so that what it writes cannot always be read again.
-/

namespace Desugar

open Json

namespace Document

theorem writable (document : Document) : document.toJson.Writable := by
  simp [toJson, document.file.writable, document.table.writable]

theorem recovers {document : Document} (h : document.table.Representable) (room : Nat) :
    Recovers ofJson? document.toJson room ⟨document.file, document.table.stored⟩ := by
  have hfile := document.file.recovers (room - 1)
  have htable := SymbolTable.recovers h (room - 1)
  simp [Recovers, ofJson?, toJson, fieldsDepth, hfile.eq, htable.eq]
  exact ite_none_congr (by omega)

theorem parse?_write {document : Document} (h : document.table.Representable) :
    parse? document.write =
      if document.toJson.depth ≤ Json.nestingLimit then
        some ⟨document.file, document.table.stored⟩
      else none := by
  have htext : parseShallow? document.write = some (document.toJson.seen Json.nestingLimit) := by
    rw [parseShallow?, write, parse?_pretty document.writable]
    rfl
  rw [parse?, htext, Option.bind_some]
  exact recovers h Json.nestingLimit

theorem parse?_write_of_depth_le {document : Document} (htable : document.table.Representable)
    (hdepth : document.toJson.depth ≤ 127) :
    parse? document.write =
      some { file := document.file, table := { document.table with reserved := [] } } := by
  rw [parse?_write htable]
  exact if_pos hdepth

/-- A document with unusual contents: a clause without types next to one with none,
an array as long as can be, a node with the last number, a name that has to be
escaped, and a name set aside. -/
def storedDocument : Document where
  file := ⟨⟨0⟩, "main", "main.go", [⟨none, "fmt"⟩], [.func ⟨⟨1⟩, ⟨⟨2⟩, "main"⟩,
    some ⟨[⟨⟨3⟩, "r"⟩], .pointer (.named "T")⟩, ⟨[], [], false⟩, some ⟨⟨4⟩,
      [.typeSwitch ⟨5⟩ none (.expr ⟨6⟩ (.typeAssert ⟨7⟩ (.ident ⟨8⟩ "x") none))
          [⟨⟨9⟩, none, [.empty ⟨10⟩]⟩, ⟨⟨11⟩, some [], []⟩],
        .defer ⟨12⟩ (.funcLit ⟨4294967295⟩ ⟨[], [], false⟩ ⟨⟨13⟩, []⟩)]⟩⟩]⟩
  table :=
    { SymbolTable.empty with
      types := #[.basic .int, .array 18446744073709551615 ⟨0⟩,
        .named (some ⟨"p/q", "q"⟩) "T" none [⟨1⟩]]
      exprTypes := ((∅ : NodeMap TypeId).insert ⟨4294967295⟩ ⟨1⟩).insert ⟨8⟩ ⟨4294967295⟩
      selections := (∅ : NodeMap Selection).insert ⟨7⟩ .field
      scopes := #[⟨none, [("\"", ⟨0⟩), ("x", ⟨0⟩)]⟩, ⟨some ⟨0⟩, []⟩]
      bindings := #[⟨"x", none, ⟨1⟩, .var, true⟩]
      reserved := ["tmp"] }

theorem parse?_write_storedDocument :
    storedDocument.table.Representable ∧ storedDocument.toJson.depth ≤ 127 ∧
      parse? storedDocument.write = some
        { file := storedDocument.file, table := { storedDocument.table with reserved := [] } } := by
  have htable : storedDocument.table.Representable := by decide +kernel
  have hdepth : storedDocument.toJson.depth ≤ 127 := by decide +kernel
  exact ⟨htable, hdepth, parse?_write_of_depth_le htable hdepth⟩

end Document
end Desugar
