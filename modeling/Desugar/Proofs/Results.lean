import Desugar.Proofs.Inventory
import Desugar.Proofs.Stages

/-!
# Results of actions

What can be said of the result of an action whatever the state, such as the form
of a new statement.
-/

namespace Desugar

variable {env : PassEnv} {p : Pass}

namespace PassM

variable {α β : Type}

/-- Whatever the state, the result of an action meets a condition. -/
def Gives (env : PassEnv) (m : PassM α) (post : α → Prop) : Prop :=
  ∀ (p q : Pass) (a : α), m.exec env p = (.ok a, q) → post a

namespace Gives

theorem any (m : PassM α) : Gives env m fun _ => True :=
  fun _ _ _ _ => trivial

theorem pure {a : α} {post : α → Prop} (h : post a) : Gives env (Pure.pure a) post := by
  intro p q b hexec
  cases hexec
  exact h

theorem mono {m : PassM α} {post post' : α → Prop} (h : Gives env m post)
    (himp : ∀ a, post a → post' a) : Gives env m post' :=
  fun p q a hexec => himp a (h p q a hexec)

theorem bind {m : PassM α} {f : α → PassM β} {mid : α → Prop} {post : β → Prop}
    (hm : Gives env m mid) (hf : ∀ a, mid a → Gives env (f a) post) :
    Gives env (m >>= f) post := by
  intro p q b hexec
  cases hfirst : m.exec env p with
  | mk result r =>
    cases result with
    | ok a =>
      rw [exec_bind_ok hfirst] at hexec
      exact hf a (hm p r a hfirst) r q b hexec
    | error fault =>
      rw [exec_bind_error hfirst] at hexec
      cases hexec

theorem after {m : PassM α} {f : α → PassM β} {post : β → Prop}
    (hf : ∀ a, Gives env (f a) post) : Gives env (m >>= f) post :=
  (any m).bind fun a _ => hf a

theorem and {m : PassM α} {post post' : α → Prop} (h : Gives env m post)
    (h' : Gives env m post') : Gives env m (fun a => post a ∧ post' a) :=
  fun p q a hexec => ⟨h p q a hexec, h' p q a hexec⟩

theorem map {m : PassM α} {post : α → Prop} {post' : β → Prop} (f : α → β) (h : Gives env m post)
    (himp : ∀ a, post a → post' (f a)) : Gives env (f <$> m) post' := by
  rw [← bind_pure_comp]
  exact h.bind fun a ha => .pure (himp a ha)

theorem mapM {f : α → PassM β} {post : β → Prop} (xs : List α)
    (h : ∀ a ∈ xs, Gives env (f a) post) :
    Gives env (xs.mapM f) (fun ys => ∀ b ∈ ys, post b) := by
  induction xs with
  | nil => exact .pure nofun
  | cons x rest ih =>
    rw [List.mapM_cons]
    refine (h x (.head _)).bind fun y hy => ?_
    refine (ih fun a ha => h a (.tail _ ha)).bind fun ys hys => .pure ?_
    exact List.forall_mem_cons.mpr ⟨hy, hys⟩

theorem newExpr (f : NodeId → Expr) (ty : Option TypeId) :
    Gives env (PassM.newExpr f ty) (fun e => ∃ id, e = f id) := by
  refine .after fun id => ?_
  cases ty with
  | none => exact .pure ⟨id, rfl⟩
  | some ty => exact .after fun _ => .pure ⟨id, rfl⟩

theorem newStmt (f : NodeId → Stmt) : Gives env (PassM.newStmt f) (fun s => ∃ id, s = f id) :=
  .after fun id => .pure ⟨id, rfl⟩

theorem newUse (binding : BindingId) :
    Gives env (PassM.newUse binding) (fun e => ∃ id name, e = .ident id name) := by
  refine .after fun table => ?_
  refine (newExpr _ _).bind ?_
  rintro e ⟨id, rfl⟩
  exact .after fun _ => .pure ⟨id, _, rfl⟩

theorem newDecl (spec : Spec) :
    Gives env (PassM.newDecl spec) (fun s => ∃ stmtId declId,
      s = .decl stmtId ⟨declId, .var, [spec]⟩) := by
  refine .after fun declId => ?_
  exact (newStmt _).mono fun s ⟨stmtId, hs⟩ => ⟨stmtId, declId, hs⟩

theorem newVar (name : Ident) (ty : Option TypeExpr) (values : List Expr) :
    Gives env (PassM.newVar name ty values) (fun s => ∃ stmtId declId specId,
      s = .decl stmtId ⟨declId, .var, [.value ⟨specId, [name], ty, values⟩]⟩) := by
  refine .after fun specId => ?_
  exact (newDecl _).mono fun s ⟨stmtId, declId, hs⟩ => ⟨stmtId, declId, specId, hs⟩

theorem newVarOf (binding : BindingId) (ty : Option TypeExpr) (values : List Expr) :
    Gives env (PassM.newVarOf binding ty values) (fun s => ∃ stmtId declId specId name,
      s = .decl stmtId ⟨declId, .var, [.value ⟨specId, [name], ty, values⟩]⟩) := by
  refine .after fun name => ?_
  exact (newVar name ty values).mono fun s ⟨stmtId, declId, specId, hs⟩ =>
    ⟨stmtId, declId, specId, name, hs⟩

end Gives

theorem exec_eq_some {m : PassM (Option α)}
    (h : (m.exec env p).1.toOption.join.isSome = true) :
    ∃ a q, m.exec env p = (.ok (some a), q) := by
  cases hexec : m.exec env p with
  | mk result q =>
    rw [hexec] at h
    rcases result with fault | found
    · cases h
    · cases found with
      | none => cases h
      | some a => exact ⟨a, q, rfl⟩

end PassM

end Desugar
