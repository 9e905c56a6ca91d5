import Desugar.Json.Record
import Desugar.Syntax.Encode

/-!
# Trees from JSON values

Each reader undoes the encoding of its type.  A reader that can meet its own
type again inside a value counts down an allowance of nesting; the nesting of
the value itself is always enough, because every part lies deeper than the
whole.
-/

namespace Desugar

open Json (record? tagged? isUnit bool? str? list? nullable? word32? word64?)

def NodeId.ofJson? (value : Json) : Option NodeId :=
  value.word32?.map NodeId.mk

def Ident.ofJson? (value : Json) : Option Ident := do
  let fields ← record? ["id", "name"] value
  let id ← fields.required "id" NodeId.ofJson?
  let name ← fields.required "name" str?
  return ⟨id, name⟩

/-!
## Keywords and literals
-/

def UnaryOp.all : List UnaryOp :=
  [.neg, .pos, .not, .xor, .addr, .recv]

def UnaryOp.ofJson? : Json → Option UnaryOp :=
  tagged? (UnaryOp.all.map (fun op => (op.tag, op)))

def BinaryOp.all : List BinaryOp :=
  [.add, .sub, .mul, .quo, .rem, .and, .or, .xor, .shl, .shr, .andNot, .logicalAnd, .logicalOr,
    .eql, .neq, .lss, .leq, .gtr, .geq]

def BinaryOp.ofJson? : Json → Option BinaryOp :=
  tagged? (BinaryOp.all.map (fun op => (op.tag, op)))

def BranchKind.all : List BranchKind :=
  [.break, .continue, .goto, .fallthrough]

def BranchKind.ofJson? : Json → Option BranchKind :=
  tagged? (BranchKind.all.map (fun kind => (kind.tag, kind)))

def DeclKind.all : List DeclKind :=
  [.var, .const, .type]

def DeclKind.ofJson? : Json → Option DeclKind :=
  tagged? (DeclKind.all.map (fun kind => (kind.tag, kind)))

def ChanDir.all : List ChanDir :=
  [.both, .send, .recv]

def ChanDir.ofJson? : Json → Option ChanDir :=
  tagged? (ChanDir.all.map (fun dir => (dir.tag, dir)))

def AssignOp.ofJson? (value : Json) : Option AssignOp := do
  match ← value.variant? with
  | ("Assign", content) => if isUnit content then some .assign else none
  | ("Define", content) => if isUnit content then some .define else none
  | ("Compound", some content) => (BinaryOp.ofJson? content).map .compound
  | _ => none

def Literal.ofJson? (value : Json) : Option Literal := do
  match ← value.variant? with
  | ("Int", some content) => content.str?.map .int
  | ("Float", some content) => content.str?.map .float
  | ("Imag", some content) => content.str?.map .imag
  | ("Char", some content) => content.str?.map .char
  | ("String", some content) => content.str?.map .string
  | ("Bool", some content) => content.bool?.map .bool
  | ("Nil", content) => if isUnit content then some .nil else none
  | _ => none

/-!
## Type expressions
-/

mutual

def TypeExpr.read : Nat → Json → Option TypeExpr
  | 0, _ => none
  | n + 1, value => do
      match ← value.variant? with
      | ("Named", some content) => content.str?.map .named
      | ("Qualified", some content) => do
          let fields ← record? ["package", "name"] content
          let package ← fields.required "package" str?
          let name ← fields.required "name" str?
          return .qualified package name
      | ("Generic", some content) => do
          let fields ← record? ["base", "args"] content
          let base ← fields.required "base" (TypeExpr.read n)
          let args ← fields.required "args" (list? (TypeExpr.read n))
          return .generic base args
      | ("Pointer", some content) => (TypeExpr.read n content).map .pointer
      | ("Slice", some content) => (TypeExpr.read n content).map .slice
      | ("Array", some content) => do
          let fields ← record? ["len", "elem"] content
          let len ← fields.optional "len" word64?
          let elem ← fields.required "elem" (TypeExpr.read n)
          return .array len elem
      | ("Map", some content) => do
          let fields ← record? ["key", "value"] content
          let key ← fields.required "key" (TypeExpr.read n)
          let elem ← fields.required "value" (TypeExpr.read n)
          return .map key elem
      | ("Chan", some content) => do
          let fields ← record? ["dir", "elem"] content
          let dir ← fields.required "dir" ChanDir.ofJson?
          let elem ← fields.required "elem" (TypeExpr.read n)
          return .chan dir elem
      | ("Func", some content) => do
          let fields ← record? ["params", "results", "variadic"] content
          let params ← fields.required "params" (list? (TypeExpr.read n))
          let results ← fields.required "results" (list? (TypeExpr.read n))
          let variadic ← fields.required "variadic" bool?
          return .func params results variadic
      | ("Struct", some content) => (list? (FieldExpr.read n) content).map .struct
      | ("Interface", some content) => (list? (MethodExpr.read n) content).map .interface
      | _ => none

def FieldExpr.read : Nat → Json → Option FieldExpr
  | 0, _ => none
  | n + 1, value => do
      let fields ← record? ["name", "ty"] value
      let name ← fields.optional "name" str?
      let ty ← fields.required "ty" (TypeExpr.read n)
      return ⟨name, ty⟩

def MethodExpr.read : Nat → Json → Option MethodExpr
  | 0, _ => none
  | n + 1, value => do
      let fields ← record? ["name", "sig"] value
      let name ← fields.required "name" str?
      let sig ← fields.required "sig" (TypeExpr.read n)
      return ⟨name, sig⟩

end

def TypeExpr.ofJson? (value : Json) : Option TypeExpr :=
  TypeExpr.read (value.depth + 1) value

def Field.ofJson? (value : Json) : Option Field := do
  let fields ← record? ["names", "ty"] value
  let names ← fields.required "names" (list? Ident.ofJson?)
  let ty ← fields.required "ty" TypeExpr.ofJson?
  return ⟨names, ty⟩

def FuncType.ofJson? (value : Json) : Option FuncType := do
  let fields ← record? ["params", "results", "variadic"] value
  let params ← fields.required "params" (list? Field.ofJson?)
  let results ← fields.required "results" (list? Field.ofJson?)
  let variadic ← fields.defaulting "variadic" false bool?
  return ⟨params, results, variadic⟩

def TypeSpec.ofJson? (value : Json) : Option TypeSpec := do
  let fields ← record? ["name", "ty", "alias"] value
  let name ← fields.required "name" Ident.ofJson?
  let ty ← fields.required "ty" TypeExpr.ofJson?
  let isAlias ← fields.defaulting "alias" false bool?
  return ⟨name, ty, isAlias⟩

/-!
## Expressions, statements and declarations
-/

def Json.node? (value : Json) : Option (NodeId × Json) := do
  let fields ← record? ["id", "kind"] value
  let id ← fields.required "id" NodeId.ofJson?
  let kind ← fields.required "kind" some
  return (id, kind)

mutual

def Expr.read : Nat → Json → Option Expr
  | 0, _ => none
  | n + 1, value => do
      let (id, kind) ← value.node?
      match ← kind.variant? with
      | ("Ident", some content) => content.str?.map (.ident id)
      | ("Lit", some content) => (Literal.ofJson? content).map (.lit id)
      | ("CompositeLit", some content) => do
          let fields ← record? ["ty", "elts"] content
          let ty ← fields.optional "ty" TypeExpr.ofJson?
          let elts ← fields.required "elts" (list? (Expr.read n))
          return .composite id ty elts
      | ("KeyValue", some content) => do
          let fields ← record? ["key", "value"] content
          let key ← fields.required "key" (Expr.read n)
          let elem ← fields.required "value" (Expr.read n)
          return .keyValue id key elem
      | ("FuncLit", some content) => do
          let fields ← record? ["sig", "body"] content
          let sig ← fields.required "sig" FuncType.ofJson?
          let body ← fields.required "body" (Block.read n)
          return .funcLit id sig body
      | ("Paren", some content) => (Expr.read n content).map (.paren id)
      | ("Selector", some content) => do
          let fields ← record? ["x", "sel"] content
          let x ← fields.required "x" (Expr.read n)
          let name ← fields.required "sel" str?
          return .selector id x name
      | ("Index", some content) => do
          let fields ← record? ["x", "index"] content
          let x ← fields.required "x" (Expr.read n)
          let index ← fields.required "index" (Expr.read n)
          return .index id x index
      | ("Slice", some content) => do
          let fields ← record? ["x", "low", "high", "max"] content
          let x ← fields.required "x" (Expr.read n)
          let low ← fields.optional "low" (Expr.read n)
          let high ← fields.optional "high" (Expr.read n)
          let max ← fields.optional "max" (Expr.read n)
          return .slice id x low high max
      | ("TypeAssert", some content) => do
          let fields ← record? ["x", "ty"] content
          let x ← fields.required "x" (Expr.read n)
          let ty ← fields.optional "ty" TypeExpr.ofJson?
          return .typeAssert id x ty
      | ("Call", some content) => do
          let fields ← record? ["fun", "args", "spread"] content
          let callee ← fields.required "fun" (Expr.read n)
          let args ← fields.required "args" (list? (Expr.read n))
          let spread ← fields.defaulting "spread" false bool?
          return .call id callee args spread
      | ("Star", some content) => (Expr.read n content).map (.star id)
      | ("Unary", some content) => do
          let fields ← record? ["op", "x"] content
          let op ← fields.required "op" UnaryOp.ofJson?
          let x ← fields.required "x" (Expr.read n)
          return .unary id op x
      | ("Binary", some content) => do
          let fields ← record? ["op", "x", "y"] content
          let op ← fields.required "op" BinaryOp.ofJson?
          let x ← fields.required "x" (Expr.read n)
          let y ← fields.required "y" (Expr.read n)
          return .binary id op x y
      | ("Type", some content) => (TypeExpr.ofJson? content).map (.type id)
      | _ => none

def Stmt.read : Nat → Json → Option Stmt
  | 0, _ => none
  | n + 1, value => do
      let (id, kind) ← value.node?
      match ← kind.variant? with
      | ("Decl", some content) => (Decl.read n content).map (.decl id)
      | ("Assign", some content) => do
          let fields ← record? ["lhs", "op", "rhs"] content
          let lhs ← fields.required "lhs" (list? (Expr.read n))
          let op ← fields.required "op" AssignOp.ofJson?
          let rhs ← fields.required "rhs" (list? (Expr.read n))
          return .assign id lhs op rhs
      | ("Expr", some content) => (Expr.read n content).map (.expr id)
      | ("IncDec", some content) => do
          let fields ← record? ["x", "inc"] content
          let x ← fields.required "x" (Expr.read n)
          let inc ← fields.required "inc" bool?
          return .incDec id x inc
      | ("Send", some content) => do
          let fields ← record? ["chan", "value"] content
          let chan ← fields.required "chan" (Expr.read n)
          let sent ← fields.required "value" (Expr.read n)
          return .send id chan sent
      | ("Go", some content) => (Expr.read n content).map (.go id)
      | ("Defer", some content) => (Expr.read n content).map (.defer id)
      | ("Return", some content) => (list? (Expr.read n) content).map (.ret id)
      | ("Branch", some content) => do
          let fields ← record? ["kind", "label"] content
          let kind ← fields.required "kind" BranchKind.ofJson?
          let label ← fields.optional "label" str?
          return .branch id kind label
      | ("Block", some content) => (Block.read n content).map (.block id)
      | ("If", some content) => do
          let fields ← record? ["init", "cond", "then", "els"] content
          let init ← fields.optional "init" (Stmt.read n)
          let cond ← fields.required "cond" (Expr.read n)
          let body ← fields.required "then" (Block.read n)
          let els ← fields.optional "els" (Stmt.read n)
          return .ifElse id init cond body els
      | ("Switch", some content) => do
          let fields ← record? ["init", "tag", "clauses"] content
          let init ← fields.optional "init" (Stmt.read n)
          let tag ← fields.optional "tag" (Expr.read n)
          let clauses ← fields.required "clauses" (list? (CaseClause.read n))
          return .switch id init tag clauses
      | ("TypeSwitch", some content) => do
          let fields ← record? ["init", "guard", "clauses"] content
          let init ← fields.optional "init" (Stmt.read n)
          let guard ← fields.required "guard" (Stmt.read n)
          let clauses ← fields.required "clauses" (list? (TypeClause.read n))
          return .typeSwitch id init guard clauses
      | ("Select", some content) => do
          let fields ← record? ["clauses"] content
          let clauses ← fields.required "clauses" (list? (CommClause.read n))
          return .select id clauses
      | ("For", some content) => do
          let fields ← record? ["init", "cond", "post", "body"] content
          let init ← fields.optional "init" (Stmt.read n)
          let cond ← fields.optional "cond" (Expr.read n)
          let post ← fields.optional "post" (Stmt.read n)
          let body ← fields.required "body" (Block.read n)
          return .forLoop id init cond post body
      | ("Range", some content) => do
          let fields ← record? ["key", "value", "define", "x", "body"] content
          let key ← fields.optional "key" (Expr.read n)
          let elem ← fields.optional "value" (Expr.read n)
          let define ← fields.required "define" bool?
          let x ← fields.required "x" (Expr.read n)
          let body ← fields.required "body" (Block.read n)
          return .range id key elem define x body
      | ("Labeled", some content) => do
          let fields ← record? ["label", "stmt"] content
          let label ← fields.required "label" str?
          let stmt ← fields.required "stmt" (Stmt.read n)
          return .labeled id label stmt
      | ("Empty", content) => if isUnit content then some (.empty id) else none
      | _ => none

def Block.read : Nat → Json → Option Block
  | 0, _ => none
  | n + 1, value => do
      let fields ← record? ["id", "stmts"] value
      let id ← fields.required "id" NodeId.ofJson?
      let stmts ← fields.required "stmts" (list? (Stmt.read n))
      return ⟨id, stmts⟩

def CaseClause.read : Nat → Json → Option CaseClause
  | 0, _ => none
  | n + 1, value => do
      let fields ← record? ["id", "list", "body"] value
      let id ← fields.required "id" NodeId.ofJson?
      let list ← fields.optional "list" (list? (Expr.read n))
      let body ← fields.required "body" (list? (Stmt.read n))
      return ⟨id, list, body⟩

def TypeClause.read : Nat → Json → Option TypeClause
  | 0, _ => none
  | n + 1, value => do
      let fields ← record? ["id", "types", "body"] value
      let id ← fields.required "id" NodeId.ofJson?
      let types ← fields.optional "types" (list? TypeExpr.ofJson?)
      let body ← fields.required "body" (list? (Stmt.read n))
      return ⟨id, types, body⟩

def CommClause.read : Nat → Json → Option CommClause
  | 0, _ => none
  | n + 1, value => do
      let fields ← record? ["id", "comm", "body"] value
      let id ← fields.required "id" NodeId.ofJson?
      let comm ← fields.optional "comm" (Stmt.read n)
      let body ← fields.required "body" (list? (Stmt.read n))
      return ⟨id, comm, body⟩

def Decl.read : Nat → Json → Option Decl
  | 0, _ => none
  | n + 1, value => do
      let fields ← record? ["id", "kind", "specs"] value
      let id ← fields.required "id" NodeId.ofJson?
      let kind ← fields.required "kind" DeclKind.ofJson?
      let specs ← fields.required "specs" (list? (Spec.read n))
      return ⟨id, kind, specs⟩

def Spec.read : Nat → Json → Option Spec
  | 0, _ => none
  | n + 1, value => do
      match ← value.variant? with
      | ("Value", some content) => (ValueSpec.read n content).map .value
      | ("Type", some content) => (TypeSpec.ofJson? content).map .type
      | _ => none

def ValueSpec.read : Nat → Json → Option ValueSpec
  | 0, _ => none
  | n + 1, value => do
      let fields ← record? ["id", "names", "ty", "values"] value
      let id ← fields.required "id" NodeId.ofJson?
      let names ← fields.required "names" (list? Ident.ofJson?)
      let ty ← fields.optional "ty" TypeExpr.ofJson?
      let values ← fields.defaulting "values" [] (list? (Expr.read n))
      return ⟨id, names, ty, values⟩

end

def Expr.ofJson? (value : Json) : Option Expr :=
  Expr.read (value.depth + 1) value

def Stmt.ofJson? (value : Json) : Option Stmt :=
  Stmt.read (value.depth + 1) value

def Block.ofJson? (value : Json) : Option Block :=
  Block.read (value.depth + 1) value

def Decl.ofJson? (value : Json) : Option Decl :=
  Decl.read (value.depth + 1) value

/-!
## Files
-/

def Func.ofJson? (value : Json) : Option Func := do
  let fields ← record? ["id", "name", "recv", "sig", "body"] value
  let id ← fields.required "id" NodeId.ofJson?
  let name ← fields.required "name" Ident.ofJson?
  let recv ← fields.optional "recv" Field.ofJson?
  let sig ← fields.required "sig" FuncType.ofJson?
  let body ← fields.optional "body" Block.ofJson?
  return ⟨id, name, recv, sig, body⟩

def TopDecl.ofJson? (value : Json) : Option TopDecl := do
  match ← value.variant? with
  | ("Gen", some content) => (Decl.ofJson? content).map .decl
  | ("Func", some content) => (Func.ofJson? content).map .func
  | _ => none

def Import.ofJson? (value : Json) : Option Import := do
  let fields ← record? ["name", "path"] value
  let name ← fields.optional "name" str?
  let path ← fields.required "path" str?
  return ⟨name, path⟩

def File.ofJson? (value : Json) : Option File := do
  let fields ← record? ["id", "package", "path", "imports", "decls"] value
  let id ← fields.required "id" NodeId.ofJson?
  let package ← fields.required "package" str?
  let path ← fields.defaulting "path" "" str?
  let imports ← fields.defaulting "imports" [] (list? Import.ofJson?)
  let decls ← fields.required "decls" (list? TopDecl.ofJson?)
  return ⟨id, package, path, imports, decls⟩

end Desugar
