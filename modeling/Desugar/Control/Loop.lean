import Desugar.Control.Initializer
import Desugar.NormalForm.Shapes
import Desugar.Syntax.Copy

/-!
# Loops with a condition only

A three-clause loop becomes a loop with a condition.  Its initializer moves into
an enclosing block, a missing condition becomes true, and its post step moves to
the end of the body; every continue of the loop runs a copy of it first.

When the body declares a name that the post step uses, the step cannot move
into the scope of the body.  The body then becomes a block in the loop, the
step follows it, and every continue of the loop jumps to the step.
-/

namespace Desugar

/-!
## The continues of a loop
-/

/-- Whether a continue with a label, so many loops down in the body of a loop
with the given labels, goes on with that loop. -/
def continues (labels : List String) (depth : Nat) : Option String → Bool
  | none => depth == 0
  | some label => labels.contains label

section

variable {m : Type → Type} [Monad m] (labels : List String)
  (replace : NodeId → Option String → m Stmt)

mutual

/-- Replace every continue of a loop inside its body.  Function literals are not
entered. -/
def Stmt.replaceContinues (depth : Nat) : Stmt → m Stmt
  | .branch id kind label =>
      if kind = .continue ∧ continues labels depth label then replace id label
      else return .branch id kind label
  | .block id body => do
      return .block id (← body.replaceContinues depth)
  | .ifElse id init cond body els => do
      let body ← body.replaceContinues depth
      return .ifElse id init cond body (← OptStmt.replaceContinues depth els)
  | .switch id init tag clauses => do
      return .switch id init tag (← CaseClauses.replaceContinues depth clauses)
  | .typeSwitch id init guard clauses => do
      return .typeSwitch id init guard (← TypeClauses.replaceContinues depth clauses)
  | .select id clauses => do
      return .select id (← CommClauses.replaceContinues depth clauses)
  | .forLoop id init cond post body => do
      return .forLoop id init cond post (← body.replaceContinues (depth + 1))
  | .range id key value define x body => do
      return .range id key value define x (← body.replaceContinues (depth + 1))
  | .labeled id label stmt => do
      return .labeled id label (← stmt.replaceContinues depth)
  | s => return s

def Stmts.replaceContinues (depth : Nat) : List Stmt → m (List Stmt)
  | [] => return []
  | s :: rest => do
      let s ← s.replaceContinues depth
      return s :: (← Stmts.replaceContinues depth rest)

def OptStmt.replaceContinues (depth : Nat) : Option Stmt → m (Option Stmt)
  | none => return none
  | some s => do
      return some (← s.replaceContinues depth)

def Block.replaceContinues (depth : Nat) : Block → m Block
  | ⟨id, stmts⟩ => do
      return ⟨id, ← Stmts.replaceContinues depth stmts⟩

def CaseClauses.replaceContinues (depth : Nat) : List CaseClause → m (List CaseClause)
  | [] => return []
  | ⟨id, list, body⟩ :: rest => do
      let body ← Stmts.replaceContinues depth body
      return ⟨id, list, body⟩ :: (← CaseClauses.replaceContinues depth rest)

def TypeClauses.replaceContinues (depth : Nat) : List TypeClause → m (List TypeClause)
  | [] => return []
  | ⟨id, types, body⟩ :: rest => do
      let body ← Stmts.replaceContinues depth body
      return ⟨id, types, body⟩ :: (← TypeClauses.replaceContinues depth rest)

def CommClauses.replaceContinues (depth : Nat) : List CommClause → m (List CommClause)
  | [] => return []
  | ⟨id, comm, body⟩ :: rest => do
      let body ← Stmts.replaceContinues depth body
      return ⟨id, comm, body⟩ :: (← CommClauses.replaceContinues depth rest)

end

end

namespace Loop

open PassM

/-!
## The post step
-/

/-- Whether the body declares, in any of its scopes, a name that the post step
refers to.  Nothing is known of a body without a scope. -/
def isShadowed (table : SymbolTable) (post : Stmt) (body : Block) : Option Bool :=
  match table.scopeOf[body.id]? with
  | none => some true
  | some bodyScope =>
      let names := post.ids.filterMap fun id =>
        ((table.bindingOf id).bind table.binding?).map Binding.name
      table.bindings.toList.anyM fun binding =>
        if names.contains binding.name then table.isWithin? binding.scope bodyScope
        else some false

def copy (s : Stmt) : PassM Stmt := do
  let pass ← get
  match s.refresh (pass.ids, pass.table) with
  | some (copied, ids, table) => do
      set { pass with ids := ids, table := table }
      return copied
  | none => throw .exhausted

def runPost (post : Stmt) (id : NodeId) (label : Option String) : PassM Stmt := do
  let step ← copy post
  let jump ← newStmt (fun id => .branch id .continue label)
  return .block id ⟨← freshId, [step, jump]⟩

def jumpTo (target : String) (id : NodeId) (_ : Option String) : StateM Nat Stmt := do
  modify (· + 1)
  return .branch id .goto (some target)

def absorbPost (labels : List String) (post : Stmt) (body : Block) : PassM Block := do
  if ← search (fun table => isShadowed table post body) then do
    let target ← onTable (fun table => table.freshName "next")
    let (body, jumps) := (body.replaceContinues labels (jumpTo target) 0).run 0
    let post ← if jumps > 0 then newStmt (fun id => .labeled id target post) else pure post
    let inner ← newStmt (fun id => .block id body)
    return ⟨← freshId, [inner, post]⟩
  else do
    let body ← body.replaceContinues labels (runPost post) 0
    return ⟨body.id, body.stmts ++ [post]⟩

/-!
## The loop
-/

def canonical (labels : List Label) (id : NodeId) (init : Option Stmt) (cond : Option Expr)
    (post : Option Stmt) (body : Block) : PassM Stmt := do
  let body ← match post with
    | some post => absorbPost (labels.map Label.name) post body
    | none => pure body
  let cond ← match cond with
    | some cond => pure cond
    | none => newTrue
  let loop := Stmt.forLoop id none (some cond) none body
  match init with
  | some init => Initializer.enclose labels init loop
  | none => return loop.label labels

def canonicalize (s : Stmt) : PassM (Option (List Stmt)) := do
  match s.unlabeled with
  | .forLoop id init cond post body =>
      if init.isSome || post.isSome then
        return some [← canonical s.labels id init cond post body]
      else return none
  | _ => return none

def transformer : Transformer where
  list _ stmts := Transformer.splice canonicalize stmts

end Loop
end Desugar
