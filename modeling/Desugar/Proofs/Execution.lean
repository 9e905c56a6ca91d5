import Desugar.Pass.Construct
import Desugar.Pass.Transformer

/-!
# Execution of passes

An action of a pass is run from an environment and a state.  The run of a
composite action is computed from the runs of its parts, one equation for each
way of composing them.
-/

namespace Desugar
namespace PassM

variable {α β : Type}

/-- The result of an action, and the state it leaves. -/
def exec (m : PassM α) (env : PassEnv) (p : Pass) : Except Fault α × Pass :=
  (m.run env).run.run p

@[simp] theorem exec_pure (a : α) (env : PassEnv) (p : Pass) :
    (pure a : PassM α).exec env p = (.ok a, p) := rfl

theorem exec_bind (m : PassM α) (f : α → PassM β) (env : PassEnv) (p : Pass) :
    (m >>= f).exec env p =
      match m.exec env p with
      | (.ok a, q) => (f a).exec env q
      | (.error fault, q) => (.error fault, q) := by
  show ExceptT.bindCont (fun a => (f a).run env) (m.exec env p).1 (m.exec env p).2 = _
  cases m.exec env p with
  | mk result q => cases result <;> rfl

theorem exec_bind_ok
    {m : PassM α} {f : α → PassM β} {env : PassEnv} {p q : Pass} {a : α}
    (h : m.exec env p = (.ok a, q)) :
    (m >>= f).exec env p = (f a).exec env q := by
  rw [exec_bind, h]

theorem exec_bind_error
    {m : PassM α} {f : α → PassM β} {env : PassEnv} {p q : Pass} {fault : Fault}
    (h : m.exec env p = (.error fault, q)) :
    (m >>= f).exec env p = (.error fault, q) := by
  rw [exec_bind, h]

@[simp] theorem exec_get (env : PassEnv) (p : Pass) :
    (get : PassM Pass).exec env p = (.ok p, p) := rfl

@[simp] theorem exec_set (q : Pass) (env : PassEnv) (p : Pass) :
    (set q : PassM PUnit).exec env p = (.ok ⟨⟩, q) := rfl

@[simp] theorem exec_modify (f : Pass → Pass) (env : PassEnv) (p : Pass) :
    (modify f : PassM PUnit).exec env p = (.ok ⟨⟩, f p) := rfl

@[simp] theorem exec_read (env : PassEnv) (p : Pass) :
    (read : PassM PassEnv).exec env p = (.ok env, p) := rfl

@[simp] theorem exec_throw (fault : Fault) (env : PassEnv) (p : Pass) :
    (throw fault : PassM α).exec env p = (.error fault, p) := rfl

@[simp] theorem exec_raise (problem : Problem) (env : PassEnv) (p : Pass) :
    (raise problem : PassM α).exec env p = (.error (.problem problem), p) := rfl

theorem exec_tryCatch (m : PassM α) (handle : Fault → PassM α) (env : PassEnv) (p : Pass) :
    (tryCatch m handle).exec env p =
      match m.exec env p with
      | (.ok a, q) => (.ok a, q)
      | (.error fault, q) => (handle fault).exec env q := by
  have unfolded : (tryCatch m handle).exec env p =
      ExceptT.tryCatch (m.run env) (fun fault => (handle fault).run env) p := rfl
  rw [unfolded]
  simp only [ExceptT.tryCatch, ExceptT.mk, bind, StateT.bind, exec, ReaderT.run, ExceptT.run,
    StateT.run]
  cases m env p with
  | mk result q => cases result <;> rfl

/-!
## Actions on the state
-/

@[simp] theorem exec_getTable (env : PassEnv) (p : Pass) :
    getTable.exec env p = (.ok p.table, p) := rfl

@[simp] theorem exec_getFile (env : PassEnv) (p : Pass) :
    getFile.exec env p = (.ok p.file, p) := rfl

@[simp] theorem exec_setFile (file : File) (env : PassEnv) (p : Pass) :
    (setFile file).exec env p = (.ok ⟨⟩, { p with file := file }) := rfl

@[simp] theorem exec_modifyTable (f : SymbolTable → SymbolTable) (env : PassEnv) (p : Pass) :
    (modifyTable f).exec env p = (.ok ⟨⟩, { p with table := f p.table }) := rfl

@[simp] theorem exec_onTable (f : SymbolTable → α × SymbolTable) (env : PassEnv) (p : Pass) :
    (onTable f).exec env p = (.ok (f p.table).1, { p with table := (f p.table).2 }) := rfl

@[simp] theorem exec_typeOf (x : Expr) (env : PassEnv) (p : Pass) :
    (typeOf x).exec env p = (.ok p.table.exprTypes[x.id]?, p) := rfl

@[simp] theorem exec_declaredType (name : Ident) (env : PassEnv) (p : Pass) :
    (declaredType name).exec env p =
      (.ok (((p.table.defs[name.id]?).bind p.table.binding?).bind Binding.ty), p) := rfl

@[simp] theorem exec_bindingName (binding : BindingId) (env : PassEnv) (p : Pass) :
    (bindingName binding).exec env p =
      (.ok (((p.table.binding? binding).map Binding.name).getD ""), p) := rfl

@[simp] theorem exec_countChange (env : PassEnv) (p : Pass) :
    countChange.exec env p = (.ok ⟨⟩, { p with changes := p.changes + 1 }) := rfl

@[simp] theorem exec_scope? (env : PassEnv) (p : Pass) :
    scope?.exec env p = (.ok p.scopes.current, p) := rfl

@[simp] theorem exec_enter (node : NodeId) (env : PassEnv) (p : Pass) :
    (enter node).exec env p =
      (.ok ⟨⟩, { p with scopes := p.scopes.enter p.table node }) := rfl

@[simp] theorem exec_exit (node : NodeId) (env : PassEnv) (p : Pass) :
    (exit node).exec env p = (.ok ⟨⟩, { p with scopes := p.scopes.exit node }) := rfl

@[simp] theorem exec_startWalk (env : PassEnv) (p : Pass) :
    startWalk.exec env p = (.ok ⟨⟩, { p with scopes := .empty, changes := 0 }) := rfl

@[simp] theorem exec_report (problem : Problem) (snippet : Option String) (env : PassEnv)
    (p : Pass) :
    (report problem snippet).exec env p =
      (.ok ⟨⟩, { p with
        diagnostics := p.diagnostics ++ [problem.diagnose env.rule snippet] }) := rfl

theorem exec_freshId (env : PassEnv) (p : Pass) :
    freshId.exec env p =
      match p.ids.take? with
      | some (id, ids) => (.ok id, { p with ids := ids })
      | none => (.error .exhausted, p) := by
  unfold freshId
  rw [exec_bind_ok (exec_get env p)]
  cases p.ids.take? <;> rfl

theorem exec_search {find : SymbolTable → Option α} {a : α} {p : Pass}
    (h : find p.table = some a) (env : PassEnv) : (search find).exec env p = (.ok a, p) := by
  unfold search
  rw [exec_bind_ok (exec_getTable env p), h]
  rfl

theorem exec_search_none {find : SymbolTable → Option α} {p : Pass}
    (h : find p.table = none) (env : PassEnv) :
    (search find).exec env p = (.error .endless, p) := by
  unfold search
  rw [exec_bind_ok (exec_getTable env p), h]
  rfl

theorem exec_orElseKeep (action fallback : PassM α) (snippet : String) (env : PassEnv)
    (p : Pass) :
    (orElseKeep action snippet fallback).exec env p =
      match action.exec env p with
      | (.ok a, q) => (.ok a, q)
      | (.error .exhausted, q) => (.error .exhausted, q)
      | (.error .endless, q) => (.error .endless, q)
      | (.error (.problem problem), q) =>
        if problem.severity = .declaration then
          fallback.exec env { q with
            diagnostics := q.diagnostics ++ [problem.diagnose env.rule (some snippet)] }
        else (.error (.problem problem), q) := by
  unfold orElseKeep
  rw [exec_tryCatch]
  cases action.exec env p with
  | mk result q =>
    cases result with
    | ok a => rfl
    | error fault =>
      cases fault with
      | exhausted | endless => rfl
      | problem problem =>
        by_cases hseverity : problem.severity = .declaration
        · simp only [tolerate, if_pos hseverity]
          exact exec_bind_ok (exec_report problem (some snippet) env q)
        · simp only [tolerate, if_neg hseverity]
          exact exec_bind_error (exec_raise problem env q)

end PassM
end Desugar
