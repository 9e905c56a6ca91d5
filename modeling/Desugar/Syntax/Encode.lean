import Desugar.Json.Basic
import Desugar.Syntax.Basic

/-!
# Trees as JSON values

A record is an object of all its fields, an absent optional field being null.
A variant that carries nothing is its tag; any other is an object with the tag
as its only member.
-/

namespace Desugar

def Json.tagWith (tag : String) (content : Json) : Json :=
  .obj [(tag, content)]

def Json.tagRecord (tag : String) (fields : List (String × Json)) : Json :=
  .obj [(tag, .obj fields)]

def NodeId.toJson (id : NodeId) : Json :=
  .ofNat id.val.toNat

def Ident.toJson (ident : Ident) : Json :=
  .obj [("id", ident.id.toJson), ("name", .str ident.name)]

/-!
## Keywords and literals
-/

def UnaryOp.tag : UnaryOp → String
  | .neg => "Neg"
  | .pos => "Pos"
  | .not => "Not"
  | .xor => "Xor"
  | .addr => "Addr"
  | .recv => "Recv"

def BinaryOp.tag : BinaryOp → String
  | .add => "Add"
  | .sub => "Sub"
  | .mul => "Mul"
  | .quo => "Quo"
  | .rem => "Rem"
  | .and => "And"
  | .or => "Or"
  | .xor => "Xor"
  | .shl => "Shl"
  | .shr => "Shr"
  | .andNot => "AndNot"
  | .logicalAnd => "LAnd"
  | .logicalOr => "LOr"
  | .eql => "Eql"
  | .neq => "Neq"
  | .lss => "Lss"
  | .leq => "Leq"
  | .gtr => "Gtr"
  | .geq => "Geq"

def BranchKind.tag : BranchKind → String
  | .break => "Break"
  | .continue => "Continue"
  | .goto => "Goto"
  | .fallthrough => "Fallthrough"

def DeclKind.tag : DeclKind → String
  | .var => "Var"
  | .const => "Const"
  | .type => "Type"

def ChanDir.tag : ChanDir → String
  | .both => "Both"
  | .send => "Send"
  | .recv => "Recv"

def AssignOp.toJson : AssignOp → Json
  | .assign => .str "Assign"
  | .define => .str "Define"
  | .compound op => .tagWith "Compound" (.str op.tag)

def Literal.toJson : Literal → Json
  | .int text => .tagWith "Int" (.str text)
  | .float text => .tagWith "Float" (.str text)
  | .imag text => .tagWith "Imag" (.str text)
  | .char text => .tagWith "Char" (.str text)
  | .string value => .tagWith "String" (.str value)
  | .bool value => .tagWith "Bool" (.bool value)
  | .nil => .str "Nil"

/-!
## Type expressions
-/

mutual

def TypeExpr.toJson : TypeExpr → Json
  | .named name => .tagWith "Named" (.str name)
  | .qualified package name =>
      .tagRecord "Qualified" [("package", .str package), ("name", .str name)]
  | .generic base args =>
      .tagRecord "Generic" [("base", base.toJson), ("args", .arr (TypeExprs.toJson args))]
  | .pointer elem => .tagWith "Pointer" elem.toJson
  | .slice elem => .tagWith "Slice" elem.toJson
  | .array len elem =>
      .tagRecord "Array"
        [("len", .ofOption (fun n => .ofNat n.toNat) len), ("elem", elem.toJson)]
  | .map key value => .tagRecord "Map" [("key", key.toJson), ("value", value.toJson)]
  | .chan dir elem => .tagRecord "Chan" [("dir", .str dir.tag), ("elem", elem.toJson)]
  | .func params results variadic =>
      .tagRecord "Func"
        [("params", .arr (TypeExprs.toJson params)), ("results", .arr (TypeExprs.toJson results)),
          ("variadic", .bool variadic)]
  | .struct fields => .tagWith "Struct" (.arr (FieldExprs.toJson fields))
  | .interface methods => .tagWith "Interface" (.arr (MethodExprs.toJson methods))

def TypeExprs.toJson : List TypeExpr → List Json
  | [] => []
  | ty :: rest => ty.toJson :: TypeExprs.toJson rest

def FieldExprs.toJson : List FieldExpr → List Json
  | [] => []
  | ⟨name, ty⟩ :: rest =>
      .obj [("name", .ofOption .str name), ("ty", ty.toJson)] :: FieldExprs.toJson rest

def MethodExprs.toJson : List MethodExpr → List Json
  | [] => []
  | ⟨name, sig⟩ :: rest =>
      .obj [("name", .str name), ("sig", sig.toJson)] :: MethodExprs.toJson rest

end

def Field.toJson (field : Field) : Json :=
  .obj [("names", .arr (field.names.map Ident.toJson)), ("ty", field.ty.toJson)]

def FuncType.toJson (sig : FuncType) : Json :=
  .obj [("params", .arr (sig.params.map Field.toJson)),
    ("results", .arr (sig.results.map Field.toJson)), ("variadic", .bool sig.variadic)]

def TypeSpec.toJson (spec : TypeSpec) : Json :=
  .obj [("name", spec.name.toJson), ("ty", spec.ty.toJson), ("alias", .bool spec.isAlias)]

/-!
## Expressions, statements and declarations
-/

def Json.node (id : NodeId) (kind : Json) : Json :=
  .obj [("id", id.toJson), ("kind", kind)]

mutual

def Expr.toJson : Expr → Json
  | .ident id name => .node id (.tagWith "Ident" (.str name))
  | .lit id value => .node id (.tagWith "Lit" value.toJson)
  | .composite id ty elts =>
      .node id (.tagRecord "CompositeLit"
        [("ty", .ofOption TypeExpr.toJson ty), ("elts", .arr (Exprs.toJson elts))])
  | .keyValue id key value =>
      .node id (.tagRecord "KeyValue" [("key", key.toJson), ("value", value.toJson)])
  | .funcLit id sig body =>
      .node id (.tagRecord "FuncLit" [("sig", sig.toJson), ("body", body.toJson)])
  | .paren id x => .node id (.tagWith "Paren" x.toJson)
  | .selector id x name =>
      .node id (.tagRecord "Selector" [("x", x.toJson), ("sel", .str name)])
  | .index id x index =>
      .node id (.tagRecord "Index" [("x", x.toJson), ("index", index.toJson)])
  | .slice id x low high max =>
      .node id (.tagRecord "Slice" [("x", x.toJson), ("low", OptExpr.toJson low),
        ("high", OptExpr.toJson high), ("max", OptExpr.toJson max)])
  | .typeAssert id x ty =>
      .node id (.tagRecord "TypeAssert" [("x", x.toJson), ("ty", .ofOption TypeExpr.toJson ty)])
  | .call id callee args spread =>
      .node id (.tagRecord "Call" [("fun", callee.toJson), ("args", .arr (Exprs.toJson args)),
        ("spread", .bool spread)])
  | .star id x => .node id (.tagWith "Star" x.toJson)
  | .unary id op x => .node id (.tagRecord "Unary" [("op", .str op.tag), ("x", x.toJson)])
  | .binary id op x y =>
      .node id (.tagRecord "Binary" [("op", .str op.tag), ("x", x.toJson), ("y", y.toJson)])
  | .type id ty => .node id (.tagWith "Type" ty.toJson)

def Exprs.toJson : List Expr → List Json
  | [] => []
  | e :: rest => e.toJson :: Exprs.toJson rest

def OptExpr.toJson : Option Expr → Json
  | none => .null
  | some e => e.toJson

def Stmt.toJson : Stmt → Json
  | .decl id decl => .node id (.tagWith "Decl" decl.toJson)
  | .assign id lhs op rhs =>
      .node id (.tagRecord "Assign" [("lhs", .arr (Exprs.toJson lhs)), ("op", op.toJson),
        ("rhs", .arr (Exprs.toJson rhs))])
  | .expr id x => .node id (.tagWith "Expr" x.toJson)
  | .incDec id x inc => .node id (.tagRecord "IncDec" [("x", x.toJson), ("inc", .bool inc)])
  | .send id chan value =>
      .node id (.tagRecord "Send" [("chan", chan.toJson), ("value", value.toJson)])
  | .go id call => .node id (.tagWith "Go" call.toJson)
  | .defer id call => .node id (.tagWith "Defer" call.toJson)
  | .ret id values => .node id (.tagWith "Return" (.arr (Exprs.toJson values)))
  | .branch id kind label =>
      .node id (.tagRecord "Branch" [("kind", .str kind.tag), ("label", .ofOption .str label)])
  | .block id body => .node id (.tagWith "Block" body.toJson)
  | .ifElse id init cond body els =>
      .node id (.tagRecord "If" [("init", OptStmt.toJson init), ("cond", cond.toJson),
        ("then", body.toJson), ("els", OptStmt.toJson els)])
  | .switch id init tag clauses =>
      .node id (.tagRecord "Switch" [("init", OptStmt.toJson init), ("tag", OptExpr.toJson tag),
        ("clauses", .arr (CaseClauses.toJson clauses))])
  | .typeSwitch id init guard clauses =>
      .node id (.tagRecord "TypeSwitch" [("init", OptStmt.toJson init), ("guard", guard.toJson),
        ("clauses", .arr (TypeClauses.toJson clauses))])
  | .select id clauses =>
      .node id (.tagRecord "Select" [("clauses", .arr (CommClauses.toJson clauses))])
  | .forLoop id init cond post body =>
      .node id (.tagRecord "For" [("init", OptStmt.toJson init), ("cond", OptExpr.toJson cond),
        ("post", OptStmt.toJson post), ("body", body.toJson)])
  | .range id key value define x body =>
      .node id (.tagRecord "Range" [("key", OptExpr.toJson key), ("value", OptExpr.toJson value),
        ("define", .bool define), ("x", x.toJson), ("body", body.toJson)])
  | .labeled id label stmt =>
      .node id (.tagRecord "Labeled" [("label", .str label), ("stmt", stmt.toJson)])
  | .empty id => .node id (.str "Empty")

def Stmts.toJson : List Stmt → List Json
  | [] => []
  | s :: rest => s.toJson :: Stmts.toJson rest

def OptStmt.toJson : Option Stmt → Json
  | none => .null
  | some s => s.toJson

def Block.toJson : Block → Json
  | ⟨id, stmts⟩ => .obj [("id", id.toJson), ("stmts", .arr (Stmts.toJson stmts))]

def CaseClauses.toJson : List CaseClause → List Json
  | [] => []
  | ⟨id, some list, body⟩ :: rest =>
      .obj [("id", id.toJson), ("list", .arr (Exprs.toJson list)),
        ("body", .arr (Stmts.toJson body))] :: CaseClauses.toJson rest
  | ⟨id, none, body⟩ :: rest =>
      .obj [("id", id.toJson), ("list", .null), ("body", .arr (Stmts.toJson body))] ::
        CaseClauses.toJson rest

def TypeClauses.toJson : List TypeClause → List Json
  | [] => []
  | ⟨id, types, body⟩ :: rest =>
      .obj [("id", id.toJson),
        ("types", .ofOption (fun types => .arr (TypeExprs.toJson types)) types),
        ("body", .arr (Stmts.toJson body))] :: TypeClauses.toJson rest

def CommClauses.toJson : List CommClause → List Json
  | [] => []
  | ⟨id, comm, body⟩ :: rest =>
      .obj [("id", id.toJson), ("comm", OptStmt.toJson comm),
        ("body", .arr (Stmts.toJson body))] :: CommClauses.toJson rest

def Decl.toJson : Decl → Json
  | ⟨id, kind, specs⟩ =>
      .obj [("id", id.toJson), ("kind", .str kind.tag), ("specs", .arr (Specs.toJson specs))]

def Specs.toJson : List Spec → List Json
  | [] => []
  | .value ⟨id, names, ty, values⟩ :: rest =>
      .tagRecord "Value" [("id", id.toJson), ("names", .arr (names.map Ident.toJson)),
        ("ty", .ofOption TypeExpr.toJson ty), ("values", .arr (Exprs.toJson values))] ::
        Specs.toJson rest
  | .type spec :: rest => .tagWith "Type" spec.toJson :: Specs.toJson rest

end

/-!
## Files
-/

def Func.toJson (fn : Func) : Json :=
  .obj [("id", fn.id.toJson), ("name", fn.name.toJson), ("recv", .ofOption Field.toJson fn.recv),
    ("sig", fn.sig.toJson), ("body", .ofOption Block.toJson fn.body)]

def TopDecl.toJson : TopDecl → Json
  | .decl d => .tagWith "Gen" d.toJson
  | .func fn => .tagWith "Func" fn.toJson

def Import.toJson (imported : Import) : Json :=
  .obj [("name", .ofOption .str imported.name), ("path", .str imported.path)]

def File.toJson (file : File) : Json :=
  .obj [("id", file.id.toJson), ("package", .str file.package), ("path", .str file.path),
    ("imports", .arr (file.imports.map Import.toJson)),
    ("decls", .arr (file.decls.map TopDecl.toJson))]

end Desugar
