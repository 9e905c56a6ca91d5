import Desugar.Catalog
import Desugar.Proofs.ControlStatements
import Desugar.Proofs.IdleWalks
import Desugar.Proofs.Layout

/-!
# Rules that find nothing to do

When all nodes of a file have the traits that the rules establish, every rule
leaves the file and its table as they are and counts no change.
-/

namespace Desugar

open PassM (Rests)

def Pass.IsDone (p : Pass) : Prop :=
  ∀ n ∈ p.file.nodes, ∀ trait : Trait, 0 < trait.stage → trait.Holds p n

namespace Pass.IsDone

variable {p : Pass}

theorem on_stmt (h : p.IsDone) {s : Stmt}
    (hs : .stmt s ∈ p.file.nodes ∨ .header s ∈ p.file.nodes) (trait : Trait)
    (hstage : 0 < trait.stage) : ∃ header, trait.OnStmt p header s := by
  rcases hs with hs | hs
  · exact (h _ hs trait hstage).on_stmt rfl
  · exact (h _ hs trait hstage).on_stmt rfl

theorem on_unlabeled (h : p.IsDone) {s : Stmt} (hs : .stmt s ∈ p.file.nodes) (trait : Trait)
    (hstage : 0 < trait.stage) : trait.OnStmt p false s.unlabeled :=
  h _ (File.unlabeled_mem hs) trait hstage

end Pass.IsDone

namespace Transformer

variable {env : PassEnv} {table : SymbolTable} {property : Node → Prop}

theorem idle_of_list {list : NodeId → List Stmt → PassM (List Stmt)}
    (h : ∀ owner stmts, (∀ s ∈ stmts, property (.stmt s)) →
      Rests env table (list owner stmts) stmts) :
    Idle { list := list } env table property where
  expr e _ := .pure e
  stmt s _ := .pure s
  decl d _ _ := .pure d
  list := h
  missingTag _ _ _ _ := .pure none

theorem idle_of_decl {decl : Decl → PassM Decl}
    (h : ∀ d topLevel, property (.decl d topLevel) → Rests env table (decl d) d) :
    Idle { decl := decl } env table property where
  expr e _ := .pure e
  stmt s _ := .pure s
  decl := h
  list _ stmts _ := .pure stmts
  missingTag _ _ _ _ := .pure none

theorem Idle.exec_run {t : Transformer} {p : Pass} (h : t.Idle env p.table (· ∈ p.file.nodes)) :
    ∃ scopes, t.run.exec env p = (.ok 0, { p with scopes := scopes, changes := 0 }) := by
  rcases p.file.rests h (fun _ hn => hn) { p with scopes := .empty, changes := 0 } rfl with
    ⟨scopes, hwalk⟩
  exists scopes
  unfold run
  rw [PassM.exec_bind_ok (PassM.exec_startWalk env p), PassM.exec_bind_ok (PassM.exec_getFile _ _),
    PassM.exec_bind_ok hwalk]
  rfl

end Transformer

section

variable {p : Pass} {env : PassEnv}

/-!
## Operands and control statements
-/

namespace Dereference

variable {table : SymbolTable}

theorem rests_operandType {x : Expr} {ty : TypeId} (h : table.exprTypes[x.id]? = some ty) :
    Rests env table (operandType x) ty :=
  (Rests.typeOf x).bind (.require h _)

theorem rests_isPointerToArray {x : Expr} (h : x.isType = true ∨
    ∃ ty, table.exprTypes[x.id]? = some ty ∧ table.isPointerToArray ty = false) :
    Rests env table (isPointerToArray x) false := by
  unfold isPointerToArray
  by_cases htype : x.isType = true
  · rw [if_pos htype]
    exact .pure false
  · rw [if_neg htype]
    rcases h.resolve_left htype with ⟨ty, hty, hform⟩
    exact (rests_operandType hty).bind (Rests.getTable.bind (.pure_of_eq hform))

theorem rests_isImplicit {e : Expr} (h : e.Explicit table) :
    Rests env table (isImplicit e) false := by
  cases e with
  | index id x i | slice id x low high max => exact rests_isPointerToArray h
  | selector id x name =>
    apply Rests.getTable.bind
    cases hselection : table.selections[id]? with
    | none => exact .pure false
    | some selection =>
      cases selection with
      | field =>
        rcases h hselection with ⟨ty, hty, hform⟩
        exact (rests_operandType hty).bind (Rests.getTable.bind (.pure_of_eq hform))
      | method => exact .pure false
  | _ => exact .pure false

theorem idle (h : p.IsDone) : transformer.Idle env p.table (· ∈ p.file.nodes) where
  expr e he := by
    have hexplicit : e.Explicit p.table := h _ he .explicitDeref (Nat.succ_pos _)
    exact (rests_isImplicit hexplicit).bind (.pure e)
  stmt s _ := .pure s
  decl d _ _ := .pure d
  list _ stmts _ := .pure stmts
  missingTag _ _ _ _ := .pure none

end Dereference

theorem SwitchTag.idle (h : p.IsDone) : transformer.Idle env p.table (· ∈ p.file.nodes) where
  expr e _ := .pure e
  stmt s _ := .pure s
  decl d _ _ := .pure d
  list _ stmts _ := .pure stmts
  missingTag id init clauses hs := by
    rcases h.on_stmt hs .taggedSwitch (Nat.succ_pos _) with ⟨_, htag⟩
    cases htag

namespace Initializer

theorem rests_hoistElse (h : ∀ n ∈ p.file.nodes, Trait.noControlInit.Holds p n) {s : Stmt}
    (hs : .stmt s ∈ p.file.nodes ∨ .header s ∈ p.file.nodes) :
    Rests env p.table (hoistElse s) s := by
  cases s with
  | ifElse id init cond body els =>
    cases els with
    | none => exact .pure _
    | some els =>
      have hels : .stmt els ∈ p.file.nodes :=
        File.parts_subset hs (List.mem_append_right _ (.head _))
      cases els with
      | ifElse inner start test first rest =>
        cases start with
        | none => exact .pure _
        | some start =>
          rcases (h _ hels).on_stmt rfl with ⟨_, hinit⟩
          cases hinit
      | _ => exact .pure _
  | _ => exact .pure _

theorem rests_hoist (h : ∀ n ∈ p.file.nodes, Trait.noControlInit.Holds p n) {s : Stmt}
    (hs : .stmt s ∈ p.file.nodes) : Rests env p.table (hoist s) none := by
  have hinit : s.unlabeled.hasControlInit = false := h _ (File.unlabeled_mem hs)
  unfold hoist
  rw [(Stmt.takeInit?_eq_none_iff _).mpr hinit]
  exact .pure none

theorem idle (h : ∀ n ∈ p.file.nodes, Trait.noControlInit.Holds p n) :
    transformer.Idle env p.table (· ∈ p.file.nodes) where
  expr e _ := .pure e
  stmt _ hs := rests_hoistElse h hs
  decl d _ _ := .pure d
  list _ _ hstmts := .splice fun s hs => rests_hoist h (hstmts s hs)
  missingTag _ _ _ _ := .pure none

end Initializer

namespace Loop

theorem rests_canonicalize (h : p.IsDone) {s : Stmt} (hs : .stmt s ∈ p.file.nodes) :
    Rests env p.table (canonicalize s) none := by
  have hloop : s.unlabeled.isThreeClauseLoop = false :=
    h.on_unlabeled hs .conditionLoop (Nat.succ_pos _)
  unfold canonicalize
  cases hform : s.unlabeled with
  | forLoop id init cond post body =>
    rw [hform] at hloop
    have hclauses : (init.isSome || post.isSome) = false := hloop
    simp only [hclauses]
    exact .pure none
  | _ => exact .pure none

theorem idle (h : p.IsDone) : transformer.Idle env p.table (· ∈ p.file.nodes) :=
  Transformer.idle_of_list fun _ _ hstmts =>
    .splice fun s hs => rests_canonicalize h (hstmts s hs)

end Loop

/-!
## Declarations
-/

theorem Decl.mem_nodes (d : Decl) (topLevel : Bool) : .decl d topLevel ∈ d.nodes topLevel := by
  cases d
  exact .head _

namespace Split

theorem rests_splitStmt (h : p.IsDone) (owner : NodeId) {s : Stmt} (hs : .stmt s ∈ p.file.nodes) :
    Rests env p.table (splitStmt owner s) none := by
  have hunlabeled := File.unlabeled_mem hs
  unfold splitStmt
  cases hform : s.unlabeled with
  | decl id d =>
    rw [hform] at hunlabeled
    have hd : .decl d false ∈ p.file.nodes :=
      File.parts_subset (.inl hunlabeled) (d.mem_nodes false)
    have hsplit : needsSplit d = false := h _ hd .singleName (Nat.succ_pos _)
    simp only [hsplit]
    exact .pure none
  | _ => exact .pure none

theorem rests_splitPackageDecl (h : p.IsDone) {d : TopDecl} (hd : d ∈ p.file.decls) :
    Rests env p.table (splitPackageDecl d) [d] := by
  cases d with
  | decl d =>
    have hnode : .decl d true ∈ p.file.nodes :=
      List.mem_flatMap.mpr ⟨_, hd, d.mem_nodes true⟩
    have hsplit : needsSplit d = false := h _ hnode .singleName (Nat.succ_pos _)
    unfold splitPackageDecl
    simp only [hsplit]
    exact .pure _
  | func fn => exact .pure _

theorem idle (h : p.IsDone) : transformer.Idle env p.table (· ∈ p.file.nodes) :=
  Transformer.idle_of_list fun owner _ hstmts =>
    .splice fun s hs => rests_splitStmt h owner (hstmts s hs)

theorem exec_run (h : p.IsDone) :
    ∃ scopes, run.exec env p = (.ok 0, { p with scopes := scopes, changes := 0 }) := by
  have hdecls : Rests env p.table (p.file.decls.mapM splitPackageDecl)
      (p.file.decls.map fun d => [d]) :=
    .mapM fun d hd => rests_splitPackageDecl h hd
  have hwalk : Rests env p.table (p.file.transform transformer) p.file :=
    p.file.rests (idle h) fun _ hn => hn
  rcases hdecls { p with scopes := .empty, changes := 0 } rfl with ⟨scopes, hdecls⟩
  rcases hwalk { p with scopes := scopes, changes := 0 } rfl with ⟨scopes', hwalk⟩
  have hflat : (p.file.decls.map fun d => [d]).flatten = p.file.decls :=
    (List.flatMap_def ..).symm.trans (List.flatMap_singleton' _)
  exists scopes'
  unfold run
  rw [PassM.exec_bind_ok (PassM.exec_startWalk env p), PassM.exec_bind_ok (PassM.exec_getFile _ _),
    PassM.exec_bind_ok hdecls]
  simp only [hflat]
  rw [PassM.exec_bind_ok hwalk]
  rfl

end Split

namespace Annotations

theorem rests_onVarSpecs {table : SymbolTable} {change : ValueSpec → PassM ValueSpec} {d : Decl}
    (h : d.isVar = true → ∀ spec ∈ d.valueSpecs, Rests env table (change spec) spec) :
    Rests env table (onVarSpecs change d) d := by
  unfold onVarSpecs
  by_cases hvar : d.isVar = true
  · rw [if_pos hvar]
    apply Rests.bind (a := d.specs)
    · apply Rests.mapM_self
      intro spec hspec
      cases spec with
      | value spec =>
        have hvalue : spec ∈ d.valueSpecs := List.mem_filterMap.mpr ⟨_, hspec, rfl⟩
        exact (h hvar spec hvalue).map Spec.value
      | type spec => exact .pure _
    · cases d
      exact .pure _
  · rw [if_neg hvar]
    exact .pure d

theorem idle (h : p.IsDone) : transformer.Idle env p.table (· ∈ p.file.nodes) := by
  apply Transformer.idle_of_decl
  intro d topLevel hd
  apply rests_onVarSpecs
  intro hvar spec hspec
  have hty : spec.ty.isSome = true := h _ hd .typedDecl (Nat.succ_pos _) hvar spec hspec
  unfold annotate
  rw [if_pos hty]
  exact .pure spec

end Annotations

theorem Zero.idle (h : p.IsDone) : transformer.Idle env p.table (· ∈ p.file.nodes) := by
  apply Transformer.idle_of_decl
  intro d topLevel hd
  apply Annotations.rests_onVarSpecs
  intro hvar spec hspec
  have hvalues : spec.values ≠ [] := h _ hd .initializedDecl (Nat.succ_pos _) hvar spec hspec
  unfold giveZeros
  rw [if_neg fun hempty => hvalues (List.isEmpty_iff.mp hempty)]
  exact .pure spec

namespace Short

theorem rests_eliminateStmt (h : p.IsDone) (owner : NodeId) {s : Stmt}
    (hs : .stmt s ∈ p.file.nodes) : Rests env p.table (eliminateStmt owner s) none := by
  have hshort : s.unlabeled.isShortDecl = false :=
    h.on_unlabeled hs .noShortDecl (Nat.succ_pos _) rfl
  unfold eliminateStmt
  cases hform : s.unlabeled with
  | assign id lhs op rhs =>
    rw [hform] at hshort
    cases op with
    | define => cases hshort
    | _ => exact .pure none
  | _ => exact .pure none

theorem idle (h : p.IsDone) : transformer.Idle env p.table (· ∈ p.file.nodes) :=
  Transformer.idle_of_list fun owner _ hstmts =>
    .splice fun s hs => rests_eliminateStmt h owner (hstmts s hs)

end Short

/-!
## Assignments
-/

namespace Parallel

theorem rests_splitStmt (h : p.IsDone) (owner : NodeId) {s : Stmt} (hs : .stmt s ∈ p.file.nodes) :
    Rests env p.table (splitStmt owner s) none := by
  have hsingle := h.on_unlabeled hs .singleTarget (Nat.succ_pos _)
  unfold splitStmt
  cases hform : s.unlabeled with
  | assign id lhs op rhs =>
    rw [hform] at hsingle
    cases op with
    | assign =>
      have hnot : ¬ (1 < lhs.length ∧ lhs.length = rhs.length) := hsingle rfl
      have hcond : (lhs.length > 1 && lhs.length == rhs.length) = false := by
        simpa using hnot
      simp only [hcond]
      exact .pure none
    | _ => exact .pure none
  | _ => exact .pure none

theorem idle (h : p.IsDone) : transformer.Idle env p.table (· ∈ p.file.nodes) :=
  Transformer.idle_of_list fun owner _ hstmts =>
    .splice fun s hs => rests_splitStmt h owner (hstmts s hs)

end Parallel

namespace Discard

theorem rests_expand (h : p.IsDone) {s : Stmt} (hs : .stmt s ∈ p.file.nodes) :
    Rests env p.table (expand s) s := by
  have hdiscard := h.on_unlabeled hs .explicitDiscard (Nat.succ_pos _)
  unfold expand
  cases hform : s.unlabeled with
  | expr id x =>
    rw [hform] at hdiscard
    rcases hdiscard rfl with ⟨ty, hty, hempty⟩
    have harity : Rests env p.table (arity x) 0 := by
      apply (Rests.typeOf x).bind
      apply (Rests.require hty _).bind
      apply Rests.getTable.bind
      rw [hempty]
      exact .pure 0
    exact harity.bind (.pure s)
  | _ => exact .pure s

theorem idle (h : p.IsDone) : transformer.Idle env p.table (· ∈ p.file.nodes) :=
  Transformer.idle_of_list fun _ _ hstmts =>
    .mapM_self fun s hs => rests_expand h (hstmts s hs)

end Discard

/-!
## All rules
-/

theorem Rule.exec_apply_of_isDone (h : p.IsDone) {rule : Rule} (hrule : rule ∈ catalog) :
    ∃ scopes, rule.apply.exec env p = (.ok 0, { p with scopes := scopes, changes := 0 }) := by
  simp only [catalog, List.mem_cons, List.not_mem_nil, or_false] at hrule
  rcases hrule with rfl | rfl | rfl | rfl | rfl | rfl | rfl | rfl | rfl | rfl
  · exact (Dereference.idle h).exec_run
  · exact (SwitchTag.idle h).exec_run
  · exact (Initializer.idle fun n hn => h n hn .noControlInit (Nat.succ_pos _)).exec_run
  · exact (Loop.idle h).exec_run
  · exact Split.exec_run h
  · exact (Annotations.idle h).exec_run
  · exact (Zero.idle h).exec_run
  · exact (Short.idle h).exec_run
  · exact (Parallel.idle h).exec_run
  · exact (Discard.idle h).exec_run

end

end Desugar
