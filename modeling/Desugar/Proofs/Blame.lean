import Desugar.Assignment.Parallel
import Desugar.Declaration.Short
import Desugar.Declaration.Zero
import Desugar.Proofs.Stages

/-!
# Whom problems name

What an action does to the state of a pass, and the problems that it can raise, can often be
told from the action alone.  A problem of a single declaration names a node, and any other
problem that an action on declarations raises is a gap.
-/

namespace Desugar

/-- Problems of a table that lacks something, or of a declaration that is out of
balance. -/
def Problem.isGap : Problem → Bool
  | .missingType _ _ | .missingScope _ _ | .ambiguousRedeclaration _ _
  | .malformedDeclaration _ _ _ => true
  | _ => false

theorem Problem.severity_of_isGap {problem : Problem} (h : problem.isGap = true) :
    problem.severity ≠ .declaration := by
  cases problem with
  | missingType | missingScope | ambiguousRedeclaration | malformedDeclaration => nofun
  | _ => cases h

/-- What actions may do to the state of a pass, and the problems that they may raise. -/
structure Habit where
  step : Pass → Pass → Prop
  raises : Problem → Prop
  refl : ∀ p, step p p
  trans : ∀ {p q r : Pass}, step p q → step q r → step p r

namespace Habit

class Typing (H : Habit) : Prop where
  defaultType : ∀ p ty, H.step p { p with table := (p.table.defaultType ty).2 }
  newExpr : ∀ p e ty env, H.step p ((PassM.newExpr e ty).exec env p).2

class Silent (H : Habit) : Prop where
  silent : ∀ {p q : Pass}, q.diagnostics = p.diagnostics → H.step p q

class Gaps (H : Habit) : Prop where
  raises : ∀ {problem : Problem}, problem.isGap = true → H.raises problem

class Names (H : Habit) (node : NodeId) : Prop where
  raises : ∀ {problem : Problem}, problem.severity = .declaration → problem.node = some node →
    H.raises problem

/-- Nothing is reported, and every problem is a gap, or a problem of a single declaration that
names one of the given nodes. -/
def blaming (nodes : NodeId → Prop) : Habit where
  step p q := q.diagnostics = p.diagnostics
  raises problem := problem.isGap = true ∨
    problem.severity = .declaration ∧ ∃ id, problem.node = some id ∧ nodes id
  refl _ := rfl
  trans hpq hqr := hqr.trans hpq

instance (nodes : NodeId → Prop) : (blaming nodes).Silent := ⟨id⟩
instance (nodes : NodeId → Prop) : (blaming nodes).Gaps := ⟨.inl⟩
instance (node : NodeId) : (blaming (· = node)).Names node :=
  ⟨fun hseverity hnode => .inr ⟨hseverity, node, hnode, rfl⟩⟩

variable {H : Habit} {node : NodeId}

instance [H.Gaps] (text : String) : Fact (H.raises (.missingType node text)) := ⟨Gaps.raises rfl⟩
instance [H.Gaps] (text : String) : Fact (H.raises (.missingScope node text)) := ⟨Gaps.raises rfl⟩
instance [H.Gaps] (text : String) : Fact (H.raises (.ambiguousRedeclaration node text)) :=
  ⟨Gaps.raises rfl⟩
instance [H.Gaps] (names values : Nat) :
    Fact (H.raises (.malformedDeclaration node names values)) :=
  ⟨Gaps.raises rfl⟩
instance [H.Names node] (shown : String) : Fact (H.raises (.unspellableType node shown)) :=
  ⟨Names.raises rfl rfl⟩
instance [H.Names node] (name shown : String) :
    Fact (H.raises (.unsupportedZeroValue node name shown)) :=
  ⟨Names.raises rfl rfl⟩

end Habit

-- There are as many instances to find for an action as it has steps.
set_option synthInstance.maxSize 1000

namespace PassM

variable {α β : Type} {H : Habit} {env : PassEnv}

/-- An action that does only what is allowed, also when it fails. -/
class Obeys (H : Habit) (env : PassEnv) (m : PassM α) : Prop where
  keeps : ∀ p, H.step p (m.exec env p).2 ∧
    ∀ problem, (m.exec env p).1 = .error (.problem problem) → H.raises problem

namespace Obeys

variable {m n : PassM α} {f : α → PassM β}

theorem of_total (h : ∀ p, ∃ a q, m.exec env p = (.ok a, q) ∧ H.step p q) : Obeys H env m := by
  refine ⟨fun p => ?_⟩
  rcases h p with ⟨a, q, hexec, hstep⟩
  rw [hexec]
  exact ⟨hstep, fun problem hproblem => by cases hproblem⟩

theorem look (h : ∀ p, ∃ a, m.exec env p = (.ok a, p)) : Obeys H env m := by
  refine of_total fun p => ?_
  rcases h p with ⟨a, hexec⟩
  exact ⟨a, p, hexec, H.refl p⟩

instance pure (a : α) : Obeys H env (Pure.pure a) := look fun _ => ⟨_, rfl⟩
instance : Obeys H env (read : PassM PassEnv) := look fun _ => ⟨_, rfl⟩
instance : Obeys H env getTable := look fun _ => ⟨_, rfl⟩
instance : Obeys H env scope? := look fun _ => ⟨_, rfl⟩
instance (x : Expr) : Obeys H env (typeOf x) := look fun _ => ⟨_, rfl⟩
instance (name : Ident) : Obeys H env (declaredType name) := look fun _ => ⟨_, rfl⟩
instance (binding : BindingId) : Obeys H env (bindingName binding) := look fun _ => ⟨_, rfl⟩

instance (problem : Problem) [h : Fact (H.raises problem)] :
    Obeys H env (PassM.raise problem : PassM α) := by
  refine ⟨fun p => ⟨H.refl p, fun found hfound => ?_⟩⟩
  cases hfound
  exact h.out

instance bind [hm : Obeys H env m] [hf : ∀ a, Obeys H env (f a)] : Obeys H env (m >>= f) := by
  refine ⟨fun p => ?_⟩
  have hfirst := hm.keeps p
  cases hexec : m.exec env p with
  | mk result q =>
    rw [hexec] at hfirst
    cases result with
    | ok a =>
      rw [exec_bind_ok hexec]
      exact ⟨H.trans hfirst.1 ((hf a).keeps q).1, ((hf a).keeps q).2⟩
    | error fault =>
      rw [exec_bind_error hexec]
      refine ⟨hfirst.1, fun problem hproblem => ?_⟩
      cases hproblem
      exact hfirst.2 problem rfl

instance (g : α → β) [Obeys H env m] : Obeys H env (g <$> m) := by
  rw [map_eq_pure_bind]
  infer_instance

instance (xs : List α) [∀ a, Obeys H env (f a)] : Obeys H env (xs.mapM f) := by
  induction xs with
  | nil => exact pure _
  | cons x rest ih =>
    rw [List.mapM_cons]
    infer_instance

instance filterMapM {f : α → PassM (Option β)} (xs : List α) [∀ a, Obeys H env (f a)] :
    Obeys H env (xs.filterMapM f) := by
  induction xs with
  | nil => exact pure _
  | cons x rest ih =>
    rw [List.filterMapM_cons]
    refine @bind _ _ _ _ _ _ _ fun found => ?_
    cases found <;> infer_instance

instance {c : Prop} [Decidable c] [hm : Obeys H env m] [hn : Obeys H env n] :
    Obeys H env (if c then m else n) := by
  split
  · exact hm
  · exact hn

instance (value : Option α) (problem : Problem) [Fact (H.raises problem)] :
    Obeys H env (require value problem) := by
  unfold require
  split <;> infer_instance

instance (find : SymbolTable → Option α) : Obeys H env (search find) := by
  refine ⟨fun p => ?_⟩
  cases hfound : find p.table with
  | none =>
    rw [exec_search_none hfound]
    exact ⟨H.refl p, fun problem hproblem => by cases hproblem⟩
  | some a =>
    rw [exec_search hfound]
    exact ⟨H.refl p, fun problem hproblem => by cases hproblem⟩

/-!
## New nodes
-/

instance (e : NodeId → Expr) (ty : Option TypeId) [hH : H.Typing] : Obeys H env (newExpr e ty) := by
  refine ⟨fun p => ⟨hH.newExpr p e ty env, fun problem h => ?_⟩⟩
  have hdraws := newExpr_drawsOne e ty env p
  unfold DrawsOne at hdraws
  rw [hdraws] at h
  split at h <;> cases h

instance (ty : TypeId) [hH : H.Typing] : Obeys H env (defaultType ty) :=
  of_total fun p => ⟨_, _, rfl, hH.defaultType p ty⟩

section

variable [hH : H.Silent]

instance freshId : Obeys H env freshId := by
  refine ⟨fun p => ?_⟩
  rw [exec_freshId]
  split <;> exact ⟨hH.silent rfl, fun problem h => by cases h⟩

instance (g : SymbolTable → SymbolTable) : Obeys H env (modifyTable g) :=
  of_total fun _ => ⟨_, _, rfl, hH.silent rfl⟩

instance (g : SymbolTable → α × SymbolTable) : Obeys H env (onTable g) :=
  of_total fun _ => ⟨_, _, rfl, hH.silent rfl⟩

instance : H.Typing where
  defaultType _ _ := hH.silent rfl
  newExpr p e ty env := by
    have h : Obeys H env (newExpr e ty) := by
      unfold newExpr
      cases ty <;> infer_instance
    exact (h.keeps p).1

instance (s : NodeId → Stmt) : Obeys H env (newStmt s) := by unfold newStmt; infer_instance
instance (lhs rhs : List Expr) : Obeys H env (newAssign lhs rhs) := by
  unfold newAssign
  infer_instance
instance : Obeys H env newBlank := by unfold newBlank; infer_instance
instance (binding : BindingId) : Obeys H env (newUse binding) := by unfold newUse; infer_instance
instance (scope : ScopeId) (ty : TypeId) : Obeys H env (newTemp scope ty) := by
  unfold newTemp
  infer_instance
instance (spec : Spec) : Obeys H env (newDecl spec) := by unfold newDecl; infer_instance
instance (name : Ident) (ty : Option TypeExpr) (values : List Expr) :
    Obeys H env (newVar name ty values) := by
  unfold newVar
  infer_instance
instance (binding : BindingId) (ty : Option TypeExpr) (values : List Expr) :
    Obeys H env (newVarOf binding ty values) := by
  unfold newVarOf newBinder
  infer_instance

end

instance (node : NodeId) [H.Gaps] : Obeys H env (scopeAt node) := by unfold scopeAt; infer_instance

instance spelled (ty : TypeId) (node : NodeId) [H.Names node] : Obeys H env (spell ty node) := by
  unfold spell
  refine @bind _ _ _ _ _ _ _ fun table => @bind _ _ _ _ _ _ _ fun _ => ?_
  split <;> infer_instance

instance (ty : TypeId) (name : String) (node : NodeId) [H.Typing] [H.Names node] :
    Obeys H env (zeroValue ty name node) := by
  unfold zeroValue
  refine @bind _ _ _ _ _ _ _ fun ty => @bind _ _ _ _ _ _ _ fun table => ?_
  dsimp only
  split <;> infer_instance

end Obeys
end PassM

/-!
## Declarations
-/

open PassM

variable {H : Habit} {env : PassEnv} [H.Gaps]

namespace Split

instance (name : Ident) (value : Expr) [H.Typing] : Obeys H env (temporaryType name value) := by
  unfold temporaryType
  refine @Obeys.bind _ _ _ _ _ _ _ fun declared => ?_
  cases declared <;> infer_instance

instance (owner : NodeId) (spec : ValueSpec) [H.Silent] : Obeys H env (splitList owner spec) := by
  unfold splitList
  infer_instance

instance (names : List Ident) : Obeys H env (bindingsOf names) := by
  unfold bindingsOf
  infer_instance

instance (binding : Option BindingId) [H.Silent] : Obeys H env (target binding) := by
  cases binding <;> unfold target <;> infer_instance

end Split

namespace Short

instance (binding : BindingId) (node : NodeId) : Obeys H env (bindingType binding node) := by
  unfold bindingType
  infer_instance

instance (node : NodeId) (targets : List Target) [H.Typing] [H.Names node] :
    Obeys H env (freshDecls node targets) := by
  unfold freshDecls
  refine @Obeys.filterMapM _ _ _ _ _ _ fun target => ?_
  cases target <;> infer_instance

instance (target : Target) (value : Expr) [H.Typing] : Obeys H env (heldType target value) := by
  unfold heldType
  cases target <;> infer_instance

instance (owner node : NodeId) (targets : List Target) (values : List Expr) [H.Silent]
    [H.Names node] : Obeys H env (hold owner node targets values) := by
  unfold hold holdList
  split
  · infer_instance
  · split
    · unfold holdTuple
      dsimp only
      refine @Obeys.bind _ _ _ _ _ _ _ fun known => @Obeys.bind _ _ _ _ _ _ _ fun tuple =>
        @Obeys.bind _ _ _ _ _ _ _ fun table => ?_
      split <;> infer_instance
    · infer_instance

theorem problem_of_classify {table : SymbolTable} {scope : ScopeId} {e : Expr} {problem : Problem}
    (h : classify table scope e = .error problem) :
    problem = .ambiguousRedeclaration e.id e.render := by
  unfold classify at h
  dsimp only at h
  repeat' split at h
  all_goals cases h
  all_goals rfl

theorem obeys_classified (H : Habit) [H.Gaps] (env : PassEnv) (table : SymbolTable)
    (scope : ScopeId) (e : Expr) : Obeys H env (match classify table scope e with
      | .ok target => return target
      | .error problem => raise problem) := by
  split
  · infer_instance
  · rename_i problem hclass
    rw [problem_of_classify hclass]
    infer_instance

theorem obeys_assigned (H : Habit) [H.Silent] (env : PassEnv) (target : Target) :
    Obeys H env (match target with
      | .fresh _ _ binding => newUse binding
      | .blank e => return e
      | .existing e => return e) := by
  cases target <;> infer_instance

instance (owner node : NodeId) (lhs rhs : List Expr) [H.Silent] [H.Names node] :
    Obeys H env (eliminate owner node lhs rhs) := by
  have hclassified := obeys_classified H env
  have hassigned := obeys_assigned H env
  unfold eliminate
  dsimp only
  infer_instance

end Short

end Desugar
