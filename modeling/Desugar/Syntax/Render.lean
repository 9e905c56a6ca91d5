import Desugar.Syntax.Basic

/-!
# Source text of trees

Trees are written out as source with four spaces for each level of nesting.
Parentheses are added exactly where an operand binds looser than its position
asks; parentheses that are nodes of the tree are always kept.  Comments and
positions are not part of a tree, so rendering is not meant to give back a text
the tree was read from.
-/

namespace Desugar

def indentation (indent : Nat) : String :=
  String.ofList (List.replicate (4 * indent) ' ')

def commaSeparated (parts : List String) : String :=
  ", ".intercalate parts

def parenthesized (text : String) : String :=
  "(" ++ text ++ ")"

def braced (text : String) : String :=
  "\x7b" ++ text ++ "\x7d"

/-!
## Literals
-/

def escapeSource (c : Char) : List Char :=
  if c = '"' then ['\\', '"']
  else if c = '\\' then ['\\', '\\']
  else if c = '\n' then ['\\', 'n']
  else if c = '\t' then ['\\', 't']
  else if c = '\r' then ['\\', 'r']
  else [c]

def quoteSource (value : String) : String :=
  String.ofList ('"' :: (value.toList.flatMap escapeSource ++ ['"']))

def Literal.render : Literal → String
  | .int text => text
  | .float text => text
  | .imag text => text
  | .char text => text
  | .string value => quoteSource value
  | .bool true => "true"
  | .bool false => "false"
  | .nil => "nil"

/-!
## Types
-/

def spreadLast : List String → List String
  | [] => []
  | [last] => ["..." ++ last]
  | first :: rest => first :: spreadLast rest

def funcTail (params results : List String) (variadic : Bool) : String :=
  parenthesized (commaSeparated (if variadic then spreadLast params else params)) ++
    match results with
    | [] => ""
    | [only] => " " ++ only
    | many => " " ++ parenthesized (commaSeparated many)

mutual

def TypeExpr.render : TypeExpr → String
  | .named name => name
  | .qualified package name => package ++ "." ++ name
  | .generic base args => base.render ++ "[" ++ commaSeparated (TypeExprs.render args) ++ "]"
  | .pointer elem => "*" ++ elem.render
  | .slice elem => "[]" ++ elem.render
  | .array (some len) elem => "[" ++ toString len.toNat ++ "]" ++ elem.render
  | .array none elem => "[...]" ++ elem.render
  | .map key value => "map[" ++ key.render ++ "]" ++ value.render
  | .chan dir elem => dir.keyword ++ elem.render
  | .func params results variadic =>
      "func" ++ funcTail (TypeExprs.render params) (TypeExprs.render results) variadic
  | .struct fields => "struct" ++ braced ("; ".intercalate (FieldExprs.render fields))
  | .interface methods => "interface" ++ braced ("; ".intercalate (MethodExprs.render methods))

def TypeExprs.render : List TypeExpr → List String
  | [] => []
  | ty :: rest => ty.render :: TypeExprs.render rest

def FieldExprs.render : List FieldExpr → List String
  | [] => []
  | ⟨some name, ty⟩ :: rest => (name ++ " " ++ ty.render) :: FieldExprs.render rest
  | ⟨none, ty⟩ :: rest => ty.render :: FieldExprs.render rest

def MethodExprs.render : List MethodExpr → List String
  | [] => []
  | ⟨name, .func params results variadic⟩ :: rest =>
      (name ++ funcTail (TypeExprs.render params) (TypeExprs.render results) variadic) ::
        MethodExprs.render rest
  | ⟨name, _⟩ :: rest => (name ++ "()") :: MethodExprs.render rest

end

def named (names : List Ident) (ty : String) : String :=
  if names.isEmpty then ty else commaSeparated (names.map Ident.name) ++ " " ++ ty

def Field.render (field : Field) : String :=
  named field.names field.ty.render

def renderParams (variadic : Bool) : List Field → List String
  | [] => []
  | [last] =>
      [named last.names (if variadic then "..." ++ last.ty.render else last.ty.render)]
  | first :: rest => first.render :: renderParams variadic rest

def FuncType.render (sig : FuncType) : String :=
  parenthesized (commaSeparated (renderParams sig.variadic sig.params)) ++
    match sig.results with
    | [] => ""
    | [⟨[], ty⟩] => " " ++ ty.render
    | many => " " ++ parenthesized (commaSeparated (many.map Field.render))

def TypeSpec.render (spec : TypeSpec) : String :=
  spec.name.name ++ (if spec.isAlias then " = " else " ") ++ spec.ty.render

/-!
## Precedence
-/

def unaryPrecedence : Nat := 6

def primaryPrecedence : Nat := 7

def Expr.precedence : Expr → Nat
  | .binary _ op _ _ => op.precedence
  | .unary _ _ _ => unaryPrecedence
  | .star _ _ => unaryPrecedence
  | _ => primaryPrecedence

def operandText (e : Expr) (least : Nat) (text : String) : String :=
  if e.precedence < least then parenthesized text else text

/-!
## Expressions and statements
-/

def AssignOp.symbol : AssignOp → String
  | .assign => "="
  | .define => ":="
  | .compound op => op.symbol ++ "="

def BranchKind.keyword : BranchKind → String
  | .break => "break"
  | .continue => "continue"
  | .goto => "goto"
  | .fallthrough => "fallthrough"

def DeclKind.keyword : DeclKind → String
  | .var => "var"
  | .const => "const"
  | .type => "type"

mutual

def Expr.renderAt (indent : Nat) : Expr → String
  | .ident _ name => name
  | .lit _ value => value.render
  | .composite _ ty elts =>
      ty.elim "" TypeExpr.render ++ braced (commaSeparated (Exprs.renderAt indent elts))
  | .keyValue _ key value => key.renderAt indent ++ ": " ++ value.renderAt indent
  | .funcLit _ sig body => "func" ++ sig.render ++ " " ++ body.renderAt indent
  | .paren _ x => parenthesized (x.renderAt indent)
  | .selector _ x name => operandText x primaryPrecedence (x.renderAt indent) ++ "." ++ name
  | .index _ x index =>
      operandText x primaryPrecedence (x.renderAt indent) ++ "[" ++ index.renderAt indent ++ "]"
  | .slice _ x low high none =>
      operandText x primaryPrecedence (x.renderAt indent) ++ "[" ++
        OptExpr.renderAt indent low ++ ":" ++ OptExpr.renderAt indent high ++ "]"
  | .slice _ x low high (some max) =>
      operandText x primaryPrecedence (x.renderAt indent) ++ "[" ++
        OptExpr.renderAt indent low ++ ":" ++ OptExpr.renderAt indent high ++ ":" ++
        max.renderAt indent ++ "]"
  | .typeAssert _ x ty =>
      operandText x primaryPrecedence (x.renderAt indent) ++ "." ++
        parenthesized (ty.elim "type" TypeExpr.render)
  | .call _ callee args spread =>
      operandText callee primaryPrecedence (callee.renderAt indent) ++
        parenthesized (commaSeparated (Exprs.renderAt indent args) ++
          (if spread then "..." else ""))
  | .star _ x => "*" ++ operandText x unaryPrecedence (x.renderAt indent)
  | .unary _ op x => op.symbol ++ operandText x unaryPrecedence (x.renderAt indent)
  | .binary _ op x y =>
      operandText x op.precedence (x.renderAt indent) ++ " " ++ op.symbol ++ " " ++
        operandText y (op.precedence + 1) (y.renderAt indent)
  | .type _ ty => ty.render

def Exprs.renderAt (indent : Nat) : List Expr → List String
  | [] => []
  | e :: rest => e.renderAt indent :: Exprs.renderAt indent rest

def OptExpr.renderAt (indent : Nat) : Option Expr → String
  | none => ""
  | some e => e.renderAt indent

def Stmt.renderAt (indent : Nat) : Stmt → String
  | .decl _ decl => decl.renderAt indent
  | .assign _ lhs op rhs =>
      commaSeparated (Exprs.renderAt indent lhs) ++ " " ++ op.symbol ++ " " ++
        commaSeparated (Exprs.renderAt indent rhs)
  | .expr _ x => x.renderAt indent
  | .incDec _ x inc => x.renderAt indent ++ (if inc then "++" else "--")
  | .send _ chan value => chan.renderAt indent ++ " <- " ++ value.renderAt indent
  | .go _ call => "go " ++ call.renderAt indent
  | .defer _ call => "defer " ++ call.renderAt indent
  | .ret _ [] => "return"
  | .ret _ values => "return " ++ commaSeparated (Exprs.renderAt indent values)
  | .branch _ kind none => kind.keyword
  | .branch _ kind (some label) => kind.keyword ++ " " ++ label
  | .block _ body => body.renderAt indent
  | .ifElse _ init cond body els =>
      "if " ++ OptStmt.renderInit indent init ++ cond.renderAt indent ++ " " ++
        body.renderAt indent ++ OptStmt.renderElse indent els
  | .switch _ init tag clauses =>
      "switch " ++ OptStmt.renderInit indent init ++
        (match tag with
        | none => ""
        | some tag => tag.renderAt indent ++ " ") ++
        "\x7b\n" ++ CaseClauses.renderAt indent clauses ++ indentation indent ++ "\x7d"
  | .typeSwitch _ init guard clauses =>
      "switch " ++ OptStmt.renderInit indent init ++ guard.renderAt indent ++
        " \x7b\n" ++ TypeClauses.renderAt indent clauses ++ indentation indent ++ "\x7d"
  | .select _ clauses =>
      "select \x7b\n" ++ CommClauses.renderAt indent clauses ++ indentation indent ++ "\x7d"
  | .forLoop _ none none none body => "for " ++ body.renderAt indent
  | .forLoop _ none (some cond) none body =>
      "for " ++ cond.renderAt indent ++ " " ++ body.renderAt indent
  | .forLoop _ init cond post body =>
      "for " ++ OptStmt.renderAt indent init ++ "; " ++ OptExpr.renderAt indent cond ++ "; " ++
        OptStmt.renderAt indent post ++ " " ++ body.renderAt indent
  | .range _ none none _ x body =>
      "for range " ++ x.renderAt indent ++ " " ++ body.renderAt indent
  | .range _ (some key) none define x body =>
      "for " ++ key.renderAt indent ++ (if define then " :=" else " =") ++ " range " ++
        x.renderAt indent ++ " " ++ body.renderAt indent
  | .range _ none (some value) define x body =>
      "for " ++ value.renderAt indent ++ (if define then " :=" else " =") ++ " range " ++
        x.renderAt indent ++ " " ++ body.renderAt indent
  | .range _ (some key) (some value) define x body =>
      "for " ++ key.renderAt indent ++ ", " ++ value.renderAt indent ++
        (if define then " :=" else " =") ++ " range " ++
        x.renderAt indent ++ " " ++ body.renderAt indent
  | .labeled _ label stmt => label ++ ": " ++ stmt.renderAt indent
  | .empty _ => ""

def Stmts.renderAt (indent : Nat) : List Stmt → String
  | [] => ""
  | s :: rest => indentation indent ++ s.renderAt indent ++ "\n" ++ Stmts.renderAt indent rest

def OptStmt.renderAt (indent : Nat) : Option Stmt → String
  | none => ""
  | some s => s.renderAt indent

def OptStmt.renderInit (indent : Nat) : Option Stmt → String
  | none => ""
  | some s => s.renderAt indent ++ "; "

def OptStmt.renderElse (indent : Nat) : Option Stmt → String
  | none => ""
  | some s => " else " ++ s.renderAt indent

def Block.renderAt (indent : Nat) : Block → String
  | ⟨_, []⟩ => braced ""
  | ⟨_, stmts⟩ => braced ("\n" ++ Stmts.renderAt (indent + 1) stmts ++ indentation indent)

def CaseClauses.renderAt (indent : Nat) : List CaseClause → String
  | [] => ""
  | ⟨_, some list, body⟩ :: rest =>
      indentation indent ++ "case " ++ commaSeparated (Exprs.renderAt indent list) ++ ":\n" ++
        Stmts.renderAt (indent + 1) body ++ CaseClauses.renderAt indent rest
  | ⟨_, none, body⟩ :: rest =>
      indentation indent ++ "default:\n" ++
        Stmts.renderAt (indent + 1) body ++ CaseClauses.renderAt indent rest

def TypeClauses.renderAt (indent : Nat) : List TypeClause → String
  | [] => ""
  | ⟨_, some types, body⟩ :: rest =>
      indentation indent ++ "case " ++ commaSeparated (types.map TypeExpr.render) ++ ":\n" ++
        Stmts.renderAt (indent + 1) body ++ TypeClauses.renderAt indent rest
  | ⟨_, none, body⟩ :: rest =>
      indentation indent ++ "default:\n" ++
        Stmts.renderAt (indent + 1) body ++ TypeClauses.renderAt indent rest

def CommClauses.renderAt (indent : Nat) : List CommClause → String
  | [] => ""
  | ⟨_, some comm, body⟩ :: rest =>
      indentation indent ++ "case " ++ comm.renderAt indent ++ ":\n" ++
        Stmts.renderAt (indent + 1) body ++ CommClauses.renderAt indent rest
  | ⟨_, none, body⟩ :: rest =>
      indentation indent ++ "default:\n" ++
        Stmts.renderAt (indent + 1) body ++ CommClauses.renderAt indent rest

/-- A single spec follows its keyword; any other number of specs is grouped. -/
def Decl.renderAt (indent : Nat) : Decl → String
  | ⟨_, kind, [spec]⟩ => kind.keyword ++ " " ++ spec.renderAt indent
  | ⟨_, kind, specs⟩ =>
      kind.keyword ++ " (\n" ++ Specs.renderAt (indent + 1) specs ++ indentation indent ++ ")"

def Specs.renderAt (indent : Nat) : List Spec → String
  | [] => ""
  | spec :: rest =>
      indentation indent ++ spec.renderAt indent ++ "\n" ++ Specs.renderAt indent rest

def Spec.renderAt (indent : Nat) : Spec → String
  | .value ⟨_, names, ty, []⟩ =>
      commaSeparated (names.map Ident.name) ++ ty.elim "" (fun ty => " " ++ ty.render)
  | .value ⟨_, names, ty, values⟩ =>
      commaSeparated (names.map Ident.name) ++ ty.elim "" (fun ty => " " ++ ty.render) ++
        " = " ++ commaSeparated (Exprs.renderAt indent values)
  | .type spec => spec.render

end

def Expr.render (e : Expr) : String :=
  e.renderAt 0

def Stmt.render (s : Stmt) : String :=
  s.renderAt 0

def Block.render (b : Block) : String :=
  b.renderAt 0

def Decl.render (d : Decl) : String :=
  d.renderAt 0

/-!
## Files
-/

def Func.render (fn : Func) : String :=
  "func " ++ fn.recv.elim "" (fun recv => parenthesized recv.render ++ " ") ++
    fn.name.name ++ fn.sig.render ++ fn.body.elim "" (fun body => " " ++ body.render)

def TopDecl.render : TopDecl → String
  | .decl d => d.render
  | .func fn => fn.render

def Import.render (imported : Import) : String :=
  "import " ++ imported.name.elim "" (fun name => name ++ " ") ++ quoteSource imported.path ++ "\n"

def File.render (file : File) : String :=
  "package " ++ file.package ++ "\n" ++
    (if file.imports.isEmpty then ""
      else "\n" ++ String.join (file.imports.map Import.render)) ++
    String.join (file.decls.map (fun decl => "\n" ++ decl.render ++ "\n"))

end Desugar
