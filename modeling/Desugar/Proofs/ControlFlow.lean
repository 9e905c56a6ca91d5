import Desugar.Proofs.Jumps

/-!
# Control flow

How statements run, over any state and any reading of the simple statements, the
conditions and the headers in them.  A statement ends by falling through, by
returning or by a jump.  A list resolves the gotos to its own statements, a loop
and the clauses of a switch or select resolve breaks, and a loop resolves continues.

What is read of syntax is its text without identities, and the binding that the
table knows for each of them.
-/

namespace Desugar

/-!
## Runs
-/

inductive Ending where
  | done
  | returned
  | jump (kind : BranchKind) (label : Option String)
deriving DecidableEq

namespace Ending

def resumes (labels : List String) : Ending → Bool
  | .done | .jump .continue none => true
  | .jump .continue (some label) => labels.contains label
  | _ => false

def breaks (labels : List String) : Ending → Bool
  | .jump .break none => true
  | .jump .break (some label) => labels.contains label
  | _ => false

def outside (labels : List String) (o : Ending) : Ending :=
  if o.breaks labels then .done else o

theorem eq_jump_of_outside {labels : List String} {o : Ending} {kind : BranchKind}
    {label : Option String} (h : .jump kind label = o.outside labels) : o = .jump kind label := by
  unfold outside at h
  split at h
  · cases h
  · exact h.symm

def falls : Ending → Bool
  | .jump .fallthrough _ => true
  | _ => false

end Ending

/-- The runs of a statement: the state it starts in, how it ends, and the state it leaves. -/
abbrev Behavior (S : Type) : Type :=
  S → Ending → S → Prop

structure Step (S : Type) where
  labels : List String
  run : Behavior S

namespace Behavior

variable {S : Type}

def ends (o : Ending) (change : S → S → Prop) : Behavior S :=
  fun σ o' σ' => o' = o ∧ change σ σ'

def after (change : S → S → Prop) (rest : Behavior S) : Behavior S :=
  fun σ o σ' => ∃ mid, change σ mid ∧ rest mid o σ'

def andThen (first second : Behavior S) : Behavior S :=
  fun σ o σ' => o ≠ .done ∧ first σ o σ' ∨ ∃ mid, first σ .done mid ∧ second mid o σ'

def fork (test : S → Bool → S → Prop) (yes no : Behavior S) : Behavior S :=
  fun σ o σ' => ∃ mid, test σ true mid ∧ yes mid o σ' ∨ test σ false mid ∧ no mid o σ'

/-!
### Lists
-/

def sequence : List (Step S) → Behavior S
  | [] => ends .done Eq
  | step :: rest => step.run.andThen (sequence rest)

def entry (label : String) : List (Step S) → Option (List (Step S))
  | [] => none
  | step :: rest => if step.labels.contains label then some (step :: rest) else entry label rest

/-- The runs through a list from some statement on, gotos among the statements included. -/
inductive Runs (all : List (Step S)) : List (Step S) → Behavior S where
  | leave {rest : List (Step S)} {σ σ' : S} {o : Ending} (hrun : sequence rest σ o σ')
      (hleave : ∀ label, o = .jump .goto (some label) → entry label all = none) :
      Runs all rest σ o σ'
  | goto {rest next : List (Step S)} {σ mid σ' : S} {o : Ending} {label : String}
      (hrun : sequence rest σ (.jump .goto (some label)) mid) (hentry : entry label all = some next)
      (hnext : Runs all next mid o σ') : Runs all rest σ o σ'

def list (steps : List (Step S)) : Behavior S :=
  Runs steps steps

/-!
### Clauses
-/

def fallingThrough : List (Behavior S) → Behavior S
  | [] => ends .done Eq
  | clause :: rest => fun σ o σ' => o.falls = false ∧ clause σ o σ' ∨
      ∃ label mid, clause σ (.jump .fallthrough label) mid ∧ fallingThrough rest mid o σ'

def clauses (labels : List String) (pick : S → Option Nat → S → Prop)
    (all : List (Behavior S)) : Behavior S :=
  fun σ o σ' => pick σ none σ' ∧ o = .done ∨
    ∃ i mid o', pick σ (some i) mid ∧ fallingThrough (all.drop i) mid o' σ' ∧ o = o'.outside labels

/-!
### Loops
-/

inductive Rounds (labels : List String) (test : S → Bool → S → Prop) (body : Behavior S)
    (post : S → S → Prop) : Behavior S where
  | stop {σ σ' : S} (htest : test σ false σ') : Rounds labels test body post σ .done σ'
  | exit {σ mid σ' : S} {o : Ending} (htest : test σ true mid) (hbody : body mid o σ')
      (hexit : o.resumes labels = false) : Rounds labels test body post σ (o.outside labels) σ'
  | again {σ mid after next σ' : S} {o o' : Ending} (htest : test σ true mid)
      (hbody : body mid o after) (hresumes : o.resumes labels = true) (hpost : post after next)
      (hnext : Rounds labels test body post next o' σ') : Rounds labels test body post σ o' σ'

end Behavior

/-!
## Statements
-/

structure Reading (α : Type) where
  text : α
  bindings : List (Option BindingId)

def NodeId.blank (_ : NodeId) : Id NodeId :=
  pure default

def Expr.reading (table : SymbolTable) (e : Expr) : Reading Expr :=
  ⟨Id.run (e.mapIds NodeId.blank), e.ids.map table.bindingOf⟩

def Stmt.reading (table : SymbolTable) (s : Stmt) : Reading Stmt :=
  ⟨Id.run (s.mapIds NodeId.blank), s.ids.map table.bindingOf⟩

/-- The meaning of the parts without control flow.  The header of a switch or select is read as
the statement with empty clauses, and that of a range as the statement with an empty body. -/
structure Interpretation (S : Type) where
  act : Reading Stmt → S → S → Prop
  test : Reading Expr → S → Bool → S → Prop
  pick : Reading Stmt → S → Option Nat → S → Prop
  start : Reading Stmt → S → S → Prop
  next : Reading Stmt → S → Bool → S → Prop
  test_true : ∀ bindings σ b σ',
    test ⟨.lit default (.bool true), bindings⟩ σ b σ' ↔ b = true ∧ σ' = σ

instance (S : Type) : Inhabited (Interpretation S) where
  default :=
    { act := fun _ => Eq
      test := fun _ σ b σ' => b = true ∧ σ' = σ
      pick := fun _ σ _ σ' => σ' = σ
      start := fun _ => Eq
      next := fun _ σ _ σ' => σ' = σ
      test_true := fun _ _ _ _ => Iff.rfl }

def CaseClause.header (c : CaseClause) : CaseClause :=
  ⟨c.id, c.list, []⟩

def TypeClause.header (c : TypeClause) : TypeClause :=
  ⟨c.id, c.types, []⟩

def CommClause.header (c : CommClause) : CommClause :=
  ⟨c.id, c.comm, []⟩

section

variable {S : Type} (I : Interpretation S) (table : SymbolTable)

def Interpretation.optional : Option Stmt → S → S → Prop
  | none => Eq
  | some s => I.act (s.reading table)

def Interpretation.condition : Option Expr → S → Bool → S → Prop
  | none => fun σ b σ' => b = true ∧ σ' = σ
  | some cond => I.test (cond.reading table)

mutual

/-- The runs of a statement behind some labels. -/
def Stmt.behavior (labels : List String) : Stmt → Behavior S
  | .branch _ kind label => .ends (.jump kind label) Eq
  | .ret id values => .ends .returned (I.act (Stmt.reading table (.ret id values)))
  | .block _ body => body.behavior
  | .ifElse _ init cond body els =>
      .after (I.optional table init)
        (.fork (I.test (cond.reading table)) body.behavior (OptStmt.behavior els))
  | .switch id init tag clauses =>
      .after (I.optional table init) (.clauses labels
        (I.pick (Stmt.reading table (.switch id none tag (clauses.map CaseClause.header))))
        (CaseClauses.behaviors clauses))
  | .typeSwitch id init guard clauses =>
      .after (I.optional table init) (.clauses labels
        (I.pick (Stmt.reading table (.typeSwitch id none guard (clauses.map TypeClause.header))))
        (TypeClauses.behaviors clauses))
  | .select id clauses =>
      .clauses labels (I.pick (Stmt.reading table (.select id (clauses.map CommClause.header))))
        (CommClauses.behaviors clauses)
  | .forLoop _ init cond post body =>
      .after (I.optional table init)
        (.Rounds labels (I.condition table cond) body.behavior (I.optional table post))
  | .range id key value define x body =>
      .after (I.start (Stmt.reading table (.range id key value define x ⟨body.id, []⟩)))
        (.Rounds labels (I.next (Stmt.reading table (.range id key value define x ⟨body.id, []⟩)))
          body.behavior Eq)
  | .labeled _ label stmt => stmt.behavior (labels ++ [label])
  | s => .ends .done (I.act (s.reading table))

def Stmts.steps : List Stmt → List (Step S)
  | [] => []
  | s :: rest => ⟨s.labelNames, s.behavior []⟩ :: Stmts.steps rest

def OptStmt.behavior : Option Stmt → Behavior S
  | none => .ends .done Eq
  | some s => s.behavior []

def Block.behavior : Block → Behavior S
  | ⟨_, stmts⟩ => .list (Stmts.steps stmts)

def CaseClauses.behaviors : List CaseClause → List (Behavior S)
  | [] => []
  | ⟨_, _, body⟩ :: rest => .list (Stmts.steps body) :: CaseClauses.behaviors rest

def TypeClauses.behaviors : List TypeClause → List (Behavior S)
  | [] => []
  | ⟨_, _, body⟩ :: rest => .list (Stmts.steps body) :: TypeClauses.behaviors rest

def CommClauses.behaviors : List CommClause → List (Behavior S)
  | [] => []
  | ⟨_, _, body⟩ :: rest => .list (Stmts.steps body) :: CommClauses.behaviors rest

end

end

/-!
## What is read

A statement runs alike in two tables that know the same bindings for its identities.
-/

section

variable {table table' : SymbolTable}

theorem Expr.reading_congr {e : Expr} (h : ∀ id ∈ e.ids, table.bindingOf id = table'.bindingOf id) :
    e.reading table = e.reading table' :=
  congrArg (Reading.mk _) (List.map_congr_left h)

theorem Stmt.reading_congr {s : Stmt} (h : ∀ id ∈ s.ids, table.bindingOf id = table'.bindingOf id) :
    s.reading table = s.reading table' :=
  congrArg (Reading.mk _) (List.map_congr_left h)

theorem CaseClauses.ids_headers (clauses : List CaseClause) :
    CaseClauses.ids (clauses.map CaseClause.header) ⊆ CaseClauses.ids clauses := by
  induction clauses with
  | nil => exact List.nil_subset _
  | cons clause rest ih =>
    rcases clause with ⟨id, _ | list, body⟩
    all_goals
      simp only [List.map_cons, CaseClause.header, CaseClauses.ids, Stmts.ids]
      grind

theorem TypeClauses.ids_headers (clauses : List TypeClause) :
    TypeClauses.ids (clauses.map TypeClause.header) ⊆ TypeClauses.ids clauses := by
  induction clauses with
  | nil => exact List.nil_subset _
  | cons clause rest ih =>
    rcases clause with ⟨id, types, body⟩
    simp only [List.map_cons, TypeClause.header, TypeClauses.ids, Stmts.ids]
    grind

theorem CommClauses.ids_headers (clauses : List CommClause) :
    CommClauses.ids (clauses.map CommClause.header) ⊆ CommClauses.ids clauses := by
  induction clauses with
  | nil => exact List.nil_subset _
  | cons clause rest ih =>
    rcases clause with ⟨id, comm, body⟩
    simp only [List.map_cons, CommClause.header, CommClauses.ids, Stmts.ids]
    grind

variable {S : Type} (I : Interpretation S)

theorem Interpretation.optional_congr {s : Option Stmt}
    (h : ∀ id ∈ OptStmt.ids s, table.bindingOf id = table'.bindingOf id) :
    I.optional table s = I.optional table' s := by
  cases s with
  | none => rfl
  | some s => exact congrArg I.act (Stmt.reading_congr h)

theorem Interpretation.condition_congr {cond : Option Expr}
    (h : ∀ id ∈ OptExpr.ids cond, table.bindingOf id = table'.bindingOf id) :
    I.condition table cond = I.condition table' cond := by
  cases cond with
  | none => rfl
  | some cond => exact congrArg I.test (Expr.reading_congr h)

mutual

theorem Stmt.behavior_congr (s : Stmt) (labels : List String)
    (h : ∀ id ∈ s.ids, table.bindingOf id = table'.bindingOf id) :
    s.behavior I table labels = s.behavior I table' labels := by
  cases s with
  | branch id kind label => rfl
  | ret id values => exact congrArg (Behavior.ends _) (congrArg I.act (Stmt.reading_congr h))
  | block id body =>
    exact body.behavior_congr fun id hid => h id (List.mem_cons_of_mem _ hid)
  | ifElse id init cond body els =>
    have hinit := I.optional_congr (s := init) fun id hid => h id (by simp [Stmt.ids, hid])
    have hcond := Expr.reading_congr (e := cond) fun id hid => h id (by simp [Stmt.ids, hid])
    have hbody := body.behavior_congr fun id hid => h id (by simp [Stmt.ids, hid])
    have hels := OptStmt.behavior_congr els fun id hid => h id (by simp [Stmt.ids, hid])
    rw [Stmt.behavior, Stmt.behavior, hinit, hcond, hbody, hels]
  | switch id init tag clauses =>
    have hinit := I.optional_congr (s := init) fun id hid => h id (by simp [Stmt.ids, hid])
    have hhead : Stmt.reading table (.switch id none tag (clauses.map CaseClause.header)) =
        Stmt.reading table' (.switch id none tag (clauses.map CaseClause.header)) := by
      refine Stmt.reading_congr fun id hid => h id ?_
      have hsubset := CaseClauses.ids_headers clauses
      simp only [Stmt.ids, OptStmt.ids] at hid ⊢
      grind
    have hclauses := CaseClauses.behaviors_congr clauses
      fun id hid => h id (by simp [Stmt.ids, hid])
    rw [Stmt.behavior, Stmt.behavior, hinit, hhead, hclauses]
  | typeSwitch id init guard clauses =>
    have hinit := I.optional_congr (s := init) fun id hid => h id (by simp [Stmt.ids, hid])
    have hhead : Stmt.reading table (.typeSwitch id none guard (clauses.map TypeClause.header)) =
        Stmt.reading table' (.typeSwitch id none guard (clauses.map TypeClause.header)) := by
      refine Stmt.reading_congr fun id hid => h id ?_
      have hsubset := TypeClauses.ids_headers clauses
      simp only [Stmt.ids, OptStmt.ids] at hid ⊢
      grind
    have hclauses := TypeClauses.behaviors_congr clauses
      fun id hid => h id (by simp [Stmt.ids, hid])
    rw [Stmt.behavior, Stmt.behavior, hinit, hhead, hclauses]
  | select id clauses =>
    have hhead : Stmt.reading table (.select id (clauses.map CommClause.header)) =
        Stmt.reading table' (.select id (clauses.map CommClause.header)) := by
      refine Stmt.reading_congr fun id hid => h id ?_
      have hsubset := CommClauses.ids_headers clauses
      simp only [Stmt.ids] at hid ⊢
      grind
    have hclauses := CommClauses.behaviors_congr clauses
      fun id hid => h id (by simp [Stmt.ids, hid])
    rw [Stmt.behavior, Stmt.behavior, hhead, hclauses]
  | forLoop id init cond post body =>
    have hinit := I.optional_congr (s := init) fun id hid => h id (by simp [Stmt.ids, hid])
    have hcond : I.condition table cond = I.condition table' cond :=
      I.condition_congr fun id hid => h id (by simp [Stmt.ids, hid])
    have hpost := I.optional_congr (s := post) fun id hid => h id (by simp [Stmt.ids, hid])
    have hbody := body.behavior_congr fun id hid => h id (by simp [Stmt.ids, hid])
    rw [Stmt.behavior, Stmt.behavior, hinit, hcond, hpost, hbody]
  | range id key value define x body =>
    have hhead : Stmt.reading table (.range id key value define x ⟨body.id, []⟩) =
        Stmt.reading table' (.range id key value define x ⟨body.id, []⟩) := by
      refine Stmt.reading_congr fun id hid => h id ?_
      rcases body with ⟨bodyId, stmts⟩
      simp only [Stmt.ids, Block.ids, Stmts.ids] at hid ⊢
      grind
    have hbody := body.behavior_congr fun id hid => h id (by simp [Stmt.ids, hid])
    rw [Stmt.behavior, Stmt.behavior, hhead, hbody]
  | labeled id label stmt =>
    exact stmt.behavior_congr _ fun id hid => h id (List.mem_cons_of_mem _ hid)
  | decl | assign | expr | incDec | send | go | defer | empty =>
    exact congrArg (Behavior.ends _) (congrArg I.act (Stmt.reading_congr h))

theorem Stmts.steps_congr (stmts : List Stmt)
    (h : ∀ id ∈ Stmts.ids stmts, table.bindingOf id = table'.bindingOf id) :
    Stmts.steps I table stmts = Stmts.steps I table' stmts := by
  cases stmts with
  | nil => rfl
  | cons s rest =>
    rw [Stmts.steps, Stmts.steps,
      s.behavior_congr [] fun id hid => h id (List.mem_append_left _ hid),
      Stmts.steps_congr rest fun id hid => h id (List.mem_append_right _ hid)]

theorem OptStmt.behavior_congr (s : Option Stmt)
    (h : ∀ id ∈ OptStmt.ids s, table.bindingOf id = table'.bindingOf id) :
    OptStmt.behavior I table s = OptStmt.behavior I table' s := by
  cases s with
  | none => rfl
  | some s => exact s.behavior_congr [] h

theorem Block.behavior_congr (b : Block)
    (h : ∀ id ∈ b.ids, table.bindingOf id = table'.bindingOf id) :
    b.behavior I table = b.behavior I table' := by
  cases b with
  | mk id stmts =>
    exact congrArg Behavior.list
      (Stmts.steps_congr stmts fun id hid => h id (List.mem_cons_of_mem _ hid))

theorem CaseClauses.behaviors_congr (clauses : List CaseClause)
    (h : ∀ id ∈ CaseClauses.ids clauses, table.bindingOf id = table'.bindingOf id) :
    CaseClauses.behaviors I table clauses = CaseClauses.behaviors I table' clauses := by
  cases clauses with
  | nil => rfl
  | cons clause rest =>
    cases clause with
    | mk id list body =>
      have hsubset : Stmts.ids body ⊆ CaseClauses.ids (⟨id, list, body⟩ :: rest) ∧
          CaseClauses.ids rest ⊆ CaseClauses.ids (⟨id, list, body⟩ :: rest) := by
        cases list <;> simp only [CaseClauses.ids] <;> grind
      rw [CaseClauses.behaviors, CaseClauses.behaviors,
        Stmts.steps_congr body fun id hid => h id (hsubset.1 hid),
        CaseClauses.behaviors_congr rest fun id hid => h id (hsubset.2 hid)]

theorem TypeClauses.behaviors_congr (clauses : List TypeClause)
    (h : ∀ id ∈ TypeClauses.ids clauses, table.bindingOf id = table'.bindingOf id) :
    TypeClauses.behaviors I table clauses = TypeClauses.behaviors I table' clauses := by
  cases clauses with
  | nil => rfl
  | cons clause rest =>
    cases clause with
    | mk id types body =>
      rw [TypeClauses.behaviors, TypeClauses.behaviors,
        Stmts.steps_congr body fun id hid => h id (by simp [TypeClauses.ids, hid]),
        TypeClauses.behaviors_congr rest fun id hid => h id (by simp [TypeClauses.ids, hid])]

theorem CommClauses.behaviors_congr (clauses : List CommClause)
    (h : ∀ id ∈ CommClauses.ids clauses, table.bindingOf id = table'.bindingOf id) :
    CommClauses.behaviors I table clauses = CommClauses.behaviors I table' clauses := by
  cases clauses with
  | nil => rfl
  | cons clause rest =>
    cases clause with
    | mk id comm body =>
      rw [CommClauses.behaviors, CommClauses.behaviors,
        Stmts.steps_congr body fun id hid => h id (by simp [CommClauses.ids, hid]),
        CommClauses.behaviors_congr rest fun id hid => h id (by simp [CommClauses.ids, hid])]

end

end

/-!
## Gotos that leave

A goto that ends a statement is one of those which leave it.
-/

namespace Behavior

variable {S : Type} {names : List String}

def GotosIn (names : List String) (r : Behavior S) : Prop :=
  ∀ σ name σ', r σ (.jump .goto (some name)) σ' → name ∈ names

namespace GotosIn

theorem mono {names' : List String} {r : Behavior S} (h : GotosIn names r)
    (hsubset : names ⊆ names') : GotosIn names' r :=
  fun σ name σ' hrun => hsubset (h σ name σ' hrun)

theorem ends {o : Ending} {change : S → S → Prop}
    (ho : ∀ name, o = .jump .goto (some name) → name ∈ names) : GotosIn names (ends o change) :=
  fun _ name _ hrun => ho name hrun.1.symm

theorem after {change : S → S → Prop} {r : Behavior S} (h : GotosIn names r) :
    GotosIn names (after change r) := by
  rintro σ name σ' ⟨mid, _, hrun⟩
  exact h mid name σ' hrun

theorem andThen {first second : Behavior S} (hfirst : GotosIn names first)
    (hsecond : GotosIn names second) : GotosIn names (first.andThen second) := by
  rintro σ name σ' (⟨_, hrun⟩ | ⟨mid, _, hrun⟩)
  · exact hfirst σ name σ' hrun
  · exact hsecond mid name σ' hrun

theorem fork {test : S → Bool → S → Prop} {yes no : Behavior S} (hyes : GotosIn names yes)
    (hno : GotosIn names no) : GotosIn names (fork test yes no) := by
  rintro σ name σ' ⟨mid, ⟨_, hrun⟩ | ⟨_, hrun⟩⟩
  · exact hyes mid name σ' hrun
  · exact hno mid name σ' hrun

theorem sequence {steps : List (Step S)} (h : ∀ step ∈ steps, GotosIn names step.run) :
    GotosIn names (sequence steps) := by
  induction steps with
  | nil => exact ends fun name hname => by cases hname
  | cons step rest ih =>
    exact andThen (h step (.head _)) (ih fun other hother => h other (.tail _ hother))

end GotosIn

theorem mem_of_entry {label : String} {steps next : List (Step S)}
    (h : entry label steps = some next) : next ⊆ steps := by
  induction steps with
  | nil => cases h
  | cons step rest ih =>
    rw [entry] at h
    split at h
    · cases h
      exact List.Subset.refl _
    · exact List.subset_cons_of_subset _ (ih h)

theorem entry_eq_none_iff {label : String} {steps : List (Step S)} :
    entry label steps = none ↔ ∀ step ∈ steps, label ∉ step.labels := by
  induction steps with
  | nil => simp [entry]
  | cons step rest ih =>
    rw [entry, List.forall_mem_cons]
    by_cases hlabel : label ∈ step.labels
    · simp [hlabel]
    · simp [hlabel, ih]

namespace GotosIn

theorem list {steps : List (Step S)} (h : ∀ step ∈ steps, GotosIn names step.run) :
    GotosIn (names.filter fun name => !(steps.flatMap Step.labels).contains name)
      (list steps) := by
  intro σ name σ' hruns
  suffices hrest : ∀ rest σ o σ', Runs steps rest σ o σ' → rest ⊆ steps →
      o = .jump .goto (some name) → name ∈ names ∧ entry name steps = none by
    rcases hrest steps σ _ σ' hruns (List.Subset.refl _) rfl with ⟨hname, hentry⟩
    refine List.mem_filter.mpr ⟨hname, ?_⟩
    simp only [Bool.not_eq_true', List.contains_eq_mem, decide_eq_false_iff_not, List.mem_flatMap,
      not_exists, not_and]
    exact entry_eq_none_iff.mp hentry
  intro rest σ o σ' hruns
  induction hruns with
  | leave hrun hleave =>
    rintro hsubset rfl
    have hsequence := sequence fun step hstep => h step (hsubset hstep)
    exact ⟨hsequence _ name _ hrun, hleave name rfl⟩
  | goto _ hentry _ ih =>
    intro _ ho
    exact ih (mem_of_entry hentry) ho

theorem fallingThrough {all : List (Behavior S)} (h : ∀ clause ∈ all, GotosIn names clause) :
    GotosIn names (fallingThrough all) := by
  induction all with
  | nil => exact ends fun name hname => by cases hname
  | cons clause rest ih =>
    rintro σ name σ' (⟨_, hrun⟩ | ⟨label, mid, _, hrun⟩)
    · exact h clause (.head _) σ name σ' hrun
    · exact ih (fun other hother => h other (.tail _ hother)) mid name σ' hrun

theorem clauses {labels : List String} {pick : S → Option Nat → S → Prop}
    {all : List (Behavior S)} (h : ∀ clause ∈ all, GotosIn names clause) :
    GotosIn names (clauses labels pick all) := by
  rintro σ name σ' (⟨_, ho⟩ | ⟨i, mid, o, _, hrun, ho⟩)
  · cases ho
  · rw [Ending.eq_jump_of_outside ho] at hrun
    exact fallingThrough (fun clause hclause => h clause (List.mem_of_mem_drop hclause))
      mid name σ' hrun

theorem rounds {labels : List String} {test : S → Bool → S → Prop} {body : Behavior S}
    {post : S → S → Prop} (h : GotosIn names body) :
    GotosIn names (Rounds labels test body post) := by
  intro σ name σ' hrounds
  generalize ho : Ending.jump .goto (some name) = o at hrounds
  induction hrounds with
  | stop _ => cases ho
  | exit _ hbody _ =>
    rw [Ending.eq_jump_of_outside ho] at hbody
    exact h _ name _ hbody
  | again _ _ _ _ _ ih => exact ih ho

end GotosIn
end Behavior

section

open Behavior (GotosIn)

variable {S : Type} (I : Interpretation S) (table : SymbolTable)

theorem Stmts.labels_steps (stmts : List Stmt) :
    (Stmts.steps I table stmts).flatMap Step.labels = stmts.flatMap Stmt.labelNames := by
  induction stmts with
  | nil => rfl
  | cons s rest ih => rw [Stmts.steps, List.flatMap_cons, List.flatMap_cons, ih]

theorem Jumps.labels_underAll (labels : List String) (jumps : Jumps) :
    (jumps.underAll labels).labels = labels ++ jumps.labels := by
  induction labels with
  | nil => rfl
  | cons label rest ih => exact congrArg (List.cons label) ih

theorem Stmts.labelNames_subset_jumps {marks : Stmt → List String} (stmts : List Stmt) :
    stmts.flatMap Stmt.labelNames ⊆ (Stmts.jumps marks stmts).labels := by
  induction stmts with
  | nil => exact List.nil_subset _
  | cons s rest ih =>
    rw [List.flatMap_cons, Stmts.jumps, s.jumps_eq_underAll]
    refine List.append_subset.mpr ⟨?_, List.subset_append_of_subset_right _ ih⟩
    apply List.subset_append_of_subset_left
    rw [Jumps.labels_underAll]
    exact List.subset_append_left _ _

theorem Stmts.gotosIn_list {stmts : List Stmt}
    (h : ∀ step ∈ Stmts.steps I table stmts,
      GotosIn (Stmts.jumps Stmt.labelNames stmts).gotos step.run) :
    GotosIn ((Stmts.jumps Stmt.labelNames stmts).among (stmts.flatMap Stmt.labelNames)).gotos
      (.list (Stmts.steps I table stmts)) := by
  have hlist := GotosIn.list h
  rw [Stmts.labels_steps] at hlist
  exact hlist

mutual

theorem Stmt.gotosIn_behavior (s : Stmt) (labels : List String) :
    GotosIn (s.jumps Stmt.labelNames).gotos (s.behavior I table labels) := by
  cases s with
  | branch id kind label =>
    refine .ends fun name hname => ?_
    cases hname
    exact .head _
  | ret id values => exact .ends fun name hname => by cases hname
  | block id body => exact body.gotosIn_behavior
  | ifElse id init cond body els =>
    have hbody := body.gotosIn_behavior
    have hels := OptStmt.gotosIn_behavior els
    rw [Stmt.jumps]
    exact .after (.fork (hbody.mono (List.subset_append_left _ _))
      (hels.mono (List.subset_append_right _ _)))
  | switch id init tag clauses =>
    exact .after (.clauses (CaseClauses.gotosIn_behaviors clauses))
  | typeSwitch id init guard clauses =>
    exact .after (.clauses (TypeClauses.gotosIn_behaviors clauses))
  | select id clauses => exact .clauses (CommClauses.gotosIn_behaviors clauses)
  | forLoop id init cond post body => exact .after (.rounds body.gotosIn_behavior)
  | range id key value define x body => exact .after (.rounds body.gotosIn_behavior)
  | labeled id label stmt => exact stmt.gotosIn_behavior _
  | decl | assign | expr | incDec | send | go | defer | empty =>
    exact .ends fun name hname => by cases hname

theorem Stmts.gotosIn_steps (stmts : List Stmt) : ∀ step ∈ Stmts.steps I table stmts,
    GotosIn (Stmts.jumps Stmt.labelNames stmts).gotos step.run := by
  cases stmts with
  | nil => simp [Stmts.steps]
  | cons s rest =>
    have hs := s.gotosIn_behavior []
    have hrest := Stmts.gotosIn_steps rest
    rw [Stmts.steps, Stmts.jumps]
    refine List.forall_mem_cons.mpr ⟨hs.mono (List.subset_append_left _ _), ?_⟩
    exact fun step hstep => (hrest step hstep).mono (List.subset_append_right _ _)

theorem OptStmt.gotosIn_behavior (s : Option Stmt) :
    GotosIn (OptStmt.jumps Stmt.labelNames s).gotos (OptStmt.behavior I table s) := by
  cases s with
  | none => exact .ends fun name hname => by cases hname
  | some s => exact s.gotosIn_behavior []

theorem Block.gotosIn_behavior (b : Block) :
    GotosIn (b.jumps Stmt.labelNames).gotos (b.behavior I table) := by
  cases b with
  | mk id stmts => exact Stmts.gotosIn_list I table (Stmts.gotosIn_steps stmts)

theorem CaseClauses.gotosIn_behaviors (clauses : List CaseClause) :
    ∀ clause ∈ CaseClauses.behaviors I table clauses,
      GotosIn (CaseClauses.jumps Stmt.labelNames clauses).gotos clause := by
  cases clauses with
  | nil => simp [CaseClauses.behaviors]
  | cons clause rest =>
    cases clause with
    | mk id list body =>
      have hbody := Stmts.gotosIn_list I table (Stmts.gotosIn_steps body)
      have hrest := CaseClauses.gotosIn_behaviors rest
      rw [CaseClauses.behaviors, CaseClauses.jumps]
      refine List.forall_mem_cons.mpr ⟨hbody.mono (List.subset_append_left _ _), ?_⟩
      exact fun r hr => (hrest r hr).mono (List.subset_append_right _ _)

theorem TypeClauses.gotosIn_behaviors (clauses : List TypeClause) :
    ∀ clause ∈ TypeClauses.behaviors I table clauses,
      GotosIn (TypeClauses.jumps Stmt.labelNames clauses).gotos clause := by
  cases clauses with
  | nil => simp [TypeClauses.behaviors]
  | cons clause rest =>
    cases clause with
    | mk id types body =>
      have hbody := Stmts.gotosIn_list I table (Stmts.gotosIn_steps body)
      have hrest := TypeClauses.gotosIn_behaviors rest
      rw [TypeClauses.behaviors, TypeClauses.jumps]
      refine List.forall_mem_cons.mpr ⟨hbody.mono (List.subset_append_left _ _), ?_⟩
      exact fun r hr => (hrest r hr).mono (List.subset_append_right _ _)

theorem CommClauses.gotosIn_behaviors (clauses : List CommClause) :
    ∀ clause ∈ CommClauses.behaviors I table clauses,
      GotosIn (CommClauses.jumps Stmt.labelNames clauses).gotos clause := by
  cases clauses with
  | nil => simp [CommClauses.behaviors]
  | cons clause rest =>
    cases clause with
    | mk id comm body =>
      have hbody := Stmts.gotosIn_list I table (Stmts.gotosIn_steps body)
      have hrest := CommClauses.gotosIn_behaviors rest
      rw [CommClauses.behaviors, CommClauses.jumps]
      refine List.forall_mem_cons.mpr ⟨hbody.mono (List.subset_append_left _ _), ?_⟩
      exact fun r hr => (hrest r hr).mono (List.subset_append_right _ _)

end

end

end Desugar
