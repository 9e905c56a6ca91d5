/-!
# Syntax trees

The tree of one type-checked source file.  Every node the symbol table can talk
about carries an identity; type expressions carry none and may be copied
freely.  Expressions, statements, blocks, clauses and declarations are one
mutually recursive family, because function literals put statements inside
expressions.
-/

namespace Desugar

/-- Identity of a tree node, shared with the symbol table. -/
structure NodeId where
  val : UInt32
deriving DecidableEq, Inhabited

namespace NodeId

instance : Ord NodeId where
  compare a b := compare a.val b.val

instance : ToString NodeId where
  toString id := "#" ++ toString id.val.toNat

def larger (a b : NodeId) : NodeId :=
  if a.val < b.val then b else a

end NodeId

structure Ident where
  id : NodeId
  name : String
deriving DecidableEq, Inhabited

def blank : String :=
  "_"

namespace Ident

def isBlank (ident : Ident) : Bool :=
  ident.name == blank

end Ident

/-!
## Operators and keywords
-/

inductive UnaryOp where
  | neg
  | pos
  | not
  | xor
  | addr
  | recv
deriving DecidableEq, Inhabited

namespace UnaryOp

def symbol : UnaryOp → String
  | .neg => "-"
  | .pos => "+"
  | .not => "!"
  | .xor => "^"
  | .addr => "&"
  | .recv => "<-"

end UnaryOp

inductive BinaryOp where
  | add
  | sub
  | mul
  | quo
  | rem
  | and
  | or
  | xor
  | shl
  | shr
  | andNot
  | logicalAnd
  | logicalOr
  | eql
  | neq
  | lss
  | leq
  | gtr
  | geq
deriving DecidableEq, Inhabited

namespace BinaryOp

def symbol : BinaryOp → String
  | .add => "+"
  | .sub => "-"
  | .mul => "*"
  | .quo => "/"
  | .rem => "%"
  | .and => "&"
  | .or => "|"
  | .xor => "^"
  | .shl => "<<"
  | .shr => ">>"
  | .andNot => "&^"
  | .logicalAnd => "&&"
  | .logicalOr => "||"
  | .eql => "=="
  | .neq => "!="
  | .lss => "<"
  | .leq => "<="
  | .gtr => ">"
  | .geq => ">="

def precedence : BinaryOp → Nat
  | .mul | .quo | .rem | .shl | .shr | .and | .andNot => 5
  | .add | .sub | .or | .xor => 4
  | .eql | .neq | .lss | .leq | .gtr | .geq => 3
  | .logicalAnd => 2
  | .logicalOr => 1

def isPredicate : BinaryOp → Bool
  | .eql | .neq | .lss | .leq | .gtr | .geq | .logicalAnd | .logicalOr => true
  | _ => false

end BinaryOp

inductive AssignOp where
  | assign
  | define
  | compound (op : BinaryOp)
deriving DecidableEq, Inhabited

inductive BranchKind where
  | break
  | continue
  | goto
  | fallthrough
deriving DecidableEq, Inhabited

inductive DeclKind where
  | var
  | const
  | type
deriving DecidableEq, Inhabited

inductive ChanDir where
  | both
  | send
  | recv
deriving DecidableEq, Inhabited

namespace ChanDir

def keyword : ChanDir → String
  | .both => "chan "
  | .send => "chan<- "
  | .recv => "<-chan "

end ChanDir

inductive Literal where
  | int (text : String)
  | float (text : String)
  | imag (text : String)
  | char (text : String)
  | string (value : String)
  | bool (value : Bool)
  | nil
deriving DecidableEq, Inhabited

/-!
## Type expressions
-/

mutual

/-- A type as it is written. An array without a length is the form whose length
a composite literal determines. -/
inductive TypeExpr where
  | named (name : String)
  | qualified (package : String) (name : String)
  | generic (base : TypeExpr) (args : List TypeExpr)
  | pointer (elem : TypeExpr)
  | slice (elem : TypeExpr)
  | array (len : Option UInt64) (elem : TypeExpr)
  | map (key : TypeExpr) (value : TypeExpr)
  | chan (dir : ChanDir) (elem : TypeExpr)
  | func (params : List TypeExpr) (results : List TypeExpr) (variadic : Bool)
  | struct (fields : List FieldExpr)
  | interface (methods : List MethodExpr)

structure FieldExpr where
  name : Option String
  ty : TypeExpr

structure MethodExpr where
  name : String
  sig : TypeExpr

end

instance : Inhabited TypeExpr := ⟨.named ""⟩

structure Field where
  names : List Ident
  ty : TypeExpr

structure FuncType where
  params : List Field
  results : List Field
  variadic : Bool

structure TypeSpec where
  name : Ident
  ty : TypeExpr
  isAlias : Bool

/-!
## Expressions, statements and declarations
-/

mutual

inductive Expr where
  | ident (id : NodeId) (name : String)
  | lit (id : NodeId) (value : Literal)
  | composite (id : NodeId) (ty : Option TypeExpr) (elts : List Expr)
  | keyValue (id : NodeId) (key : Expr) (value : Expr)
  | funcLit (id : NodeId) (sig : FuncType) (body : Block)
  | paren (id : NodeId) (x : Expr)
  | selector (id : NodeId) (x : Expr) (name : String)
  | index (id : NodeId) (x : Expr) (index : Expr)
  | slice (id : NodeId) (x : Expr) (low : Option Expr) (high : Option Expr) (max : Option Expr)
  | typeAssert (id : NodeId) (x : Expr) (ty : Option TypeExpr)
  | call (id : NodeId) (callee : Expr) (args : List Expr) (spread : Bool)
  | star (id : NodeId) (x : Expr)
  | unary (id : NodeId) (op : UnaryOp) (x : Expr)
  | binary (id : NodeId) (op : BinaryOp) (x : Expr) (y : Expr)
  | type (id : NodeId) (ty : TypeExpr)

/-- A statement.  The initializer, post step, guard and communication of a
control statement are statements in its header. -/
inductive Stmt where
  | decl (id : NodeId) (decl : Decl)
  | assign (id : NodeId) (lhs : List Expr) (op : AssignOp) (rhs : List Expr)
  | expr (id : NodeId) (x : Expr)
  | incDec (id : NodeId) (x : Expr) (inc : Bool)
  | send (id : NodeId) (chan : Expr) (value : Expr)
  | go (id : NodeId) (call : Expr)
  | defer (id : NodeId) (call : Expr)
  | ret (id : NodeId) (values : List Expr)
  | branch (id : NodeId) (kind : BranchKind) (label : Option String)
  | block (id : NodeId) (body : Block)
  | ifElse (id : NodeId) (init : Option Stmt) (cond : Expr) (body : Block) (els : Option Stmt)
  | switch (id : NodeId) (init : Option Stmt) (tag : Option Expr) (clauses : List CaseClause)
  | typeSwitch (id : NodeId) (init : Option Stmt) (guard : Stmt) (clauses : List TypeClause)
  | select (id : NodeId) (clauses : List CommClause)
  | forLoop (id : NodeId) (init : Option Stmt) (cond : Option Expr) (post : Option Stmt)
      (body : Block)
  | range (id : NodeId) (key : Option Expr) (value : Option Expr) (define : Bool) (x : Expr)
      (body : Block)
  | labeled (id : NodeId) (label : String) (stmt : Stmt)
  | empty (id : NodeId)

/-- An ordered statement list that is a lexical scope. -/
structure Block where
  id : NodeId
  stmts : List Stmt

structure CaseClause where
  id : NodeId
  list : Option (List Expr)
  body : List Stmt

structure TypeClause where
  id : NodeId
  types : Option (List TypeExpr)
  body : List Stmt

structure CommClause where
  id : NodeId
  comm : Option Stmt
  body : List Stmt

structure Decl where
  id : NodeId
  kind : DeclKind
  specs : List Spec

inductive Spec where
  | value (spec : ValueSpec)
  | type (spec : TypeSpec)

structure ValueSpec where
  id : NodeId
  names : List Ident
  ty : Option TypeExpr
  values : List Expr

end

instance : Inhabited Expr := ⟨.ident default ""⟩
instance : Inhabited Stmt := ⟨.empty default⟩

structure Func where
  id : NodeId
  name : Ident
  recv : Option Field
  sig : FuncType
  body : Option Block

inductive TopDecl where
  | decl (decl : Decl)
  | func (func : Func)

structure Import where
  name : Option String
  path : String
deriving DecidableEq, Inhabited

/-- One source file: the unit of normalization. -/
structure File where
  id : NodeId
  package : String
  path : String
  imports : List Import
  decls : List TopDecl

namespace Import

def lastSegment (path : String) : String :=
  String.ofList (path.toList.reverse.takeWhile (fun c => c != '/')).reverse

def localName (imported : Import) : String :=
  match imported.name with
  | some name => name
  | none => lastSegment imported.path

end Import

/-!
## Small views
-/

namespace Expr

def id : Expr → NodeId
  | .ident id _ => id
  | .lit id _ => id
  | .composite id _ _ => id
  | .keyValue id _ _ => id
  | .funcLit id _ _ => id
  | .paren id _ => id
  | .selector id _ _ => id
  | .index id _ _ => id
  | .slice id _ _ _ _ => id
  | .typeAssert id _ _ => id
  | .call id _ _ _ => id
  | .star id _ => id
  | .unary id _ _ => id
  | .binary id _ _ _ => id
  | .type id _ => id

def name? : Expr → Option String
  | .ident _ name => some name
  | _ => none

def isBlank (e : Expr) : Bool :=
  e.name? == some blank

def isLiteral : Expr → Bool
  | .lit _ _ => true
  | _ => false

def isType : Expr → Bool
  | .type _ _ => true
  | _ => false

def unparen : Expr → Expr
  | .paren _ x => x.unparen
  | e => e

end Expr

namespace Stmt

def id : Stmt → NodeId
  | .decl id _ => id
  | .assign id _ _ _ => id
  | .expr id _ => id
  | .incDec id _ _ => id
  | .send id _ _ => id
  | .go id _ => id
  | .defer id _ => id
  | .ret id _ => id
  | .branch id _ _ => id
  | .block id _ => id
  | .ifElse id _ _ _ _ => id
  | .switch id _ _ _ => id
  | .typeSwitch id _ _ _ => id
  | .select id _ => id
  | .forLoop id _ _ _ _ => id
  | .range id _ _ _ _ _ => id
  | .labeled id _ _ => id
  | .empty id => id

/-- The statement with all its labels looked through. -/
def unlabeled : Stmt → Stmt
  | .labeled _ _ s => s.unlabeled
  | s => s

end Stmt

namespace Decl

def isVar (d : Decl) : Bool :=
  d.kind == .var

def valueSpecs (d : Decl) : List ValueSpec :=
  d.specs.filterMap fun
    | .value spec => some spec
    | .type _ => none

end Decl

end Desugar
