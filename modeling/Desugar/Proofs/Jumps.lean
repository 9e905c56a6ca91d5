import Desugar.Proofs.Faces
import Desugar.Proofs.Growth
import Desugar.Syntax.Labels

/-!
# Jumps

What can be told of the jumps of a part of a body from outside: the labels in it,
and the labels of the jumps that leave it.  The jumps of a body are valid when its
labels are distinct and no jump leaves it.  A break or continue stays inside the
statement that it names, and a goto goes to a statement of a list around it.
-/

namespace Desugar

/-- The labels inside a part of a body, the labels of the breaks and continues that
leave statements around it, and the labels of the gotos that go to lists around it. -/
structure Jumps where
  labels : List String
  exits : List String
  gotos : List String
deriving DecidableEq

namespace Jumps

def none : Jumps :=
  ⟨[], [], []⟩

instance : Append Jumps where
  append first second := ⟨first.labels ++ second.labels, first.exits ++ second.exits,
    first.gotos ++ second.gotos⟩

def under (label : String) (jumps : Jumps) : Jumps :=
  ⟨label :: jumps.labels, jumps.exits.filter (· != label), jumps.gotos⟩

def underAll (labels : List String) (jumps : Jumps) : Jumps :=
  labels.foldr under jumps

def among (marks : List String) (jumps : Jumps) : Jumps :=
  ⟨jumps.labels, jumps.exits, jumps.gotos.filter (!marks.contains ·)⟩

structure Valid (jumps : Jumps) : Prop where
  labels : jumps.labels.Nodup
  exits : jumps.exits = []
  gotos : jumps.gotos = []

instance (jumps : Jumps) : Decidable jumps.Valid :=
  decidable_of_iff (jumps.labels.Nodup ∧ jumps.exits = [] ∧ jumps.gotos = [])
    ⟨fun ⟨hlabels, hexits, hgotos⟩ => ⟨hlabels, hexits, hgotos⟩,
      fun h => ⟨h.labels, h.exits, h.gotos⟩⟩

end Jumps

/-!
## The jumps of a body
-/

def Stmt.labelNames (s : Stmt) : List String :=
  s.labels.map Label.name

def Stmt.startsWithInit : Stmt → Bool
  | .ifElse _ init _ _ _ => init.isSome
  | .switch _ init _ _ => init.isSome
  | .typeSwitch _ init _ _ => init.isSome
  | .forLoop _ init _ _ _ => init.isSome
  | _ => false

def BranchKind.jumps (kind : BranchKind) (label : Option String) : Jumps :=
  match kind with
  | .break | .continue => ⟨[], label.toList, []⟩
  | .goto => ⟨[], [], label.toList⟩
  | .fallthrough => .none

section

variable (marks : Stmt → List String)

mutual

/-- The jumps of a statement.  Headers are left out, for simple statements do not
jump.  The labels by which a goto can go to a statement are a parameter. -/
def Stmt.jumps : Stmt → Jumps
  | .branch _ kind label => kind.jumps label
  | .block _ body => body.jumps
  | .ifElse _ _ _ body els => body.jumps ++ OptStmt.jumps els
  | .switch _ _ _ clauses => CaseClauses.jumps clauses
  | .typeSwitch _ _ _ clauses => TypeClauses.jumps clauses
  | .select _ clauses => CommClauses.jumps clauses
  | .forLoop _ _ _ _ body => body.jumps
  | .range _ _ _ _ _ body => body.jumps
  | .labeled _ label stmt => stmt.jumps.under label
  | _ => .none

def Stmts.jumps : List Stmt → Jumps
  | [] => .none
  | s :: rest => s.jumps ++ Stmts.jumps rest

def OptStmt.jumps : Option Stmt → Jumps
  | none => .none
  | some s => s.jumps

def Block.jumps : Block → Jumps
  | ⟨_, stmts⟩ => (Stmts.jumps stmts).among (stmts.flatMap marks)

def CaseClauses.jumps : List CaseClause → Jumps
  | [] => .none
  | ⟨_, _, body⟩ :: rest =>
    (Stmts.jumps body).among (body.flatMap marks) ++ CaseClauses.jumps rest

def TypeClauses.jumps : List TypeClause → Jumps
  | [] => .none
  | ⟨_, _, body⟩ :: rest =>
    (Stmts.jumps body).among (body.flatMap marks) ++ TypeClauses.jumps rest

def CommClauses.jumps : List CommClause → Jumps
  | [] => .none
  | ⟨_, _, body⟩ :: rest =>
    (Stmts.jumps body).among (body.flatMap marks) ++ CommClauses.jumps rest

end

end

def Node.body? : Node → Option Block
  | .func fn => fn.body
  | .expr (.funcLit _ _ body) => some body
  | _ => none

def File.JumpsValid (marks : Stmt → List String) (file : File) : Prop :=
  ∀ n ∈ file.nodes, ∀ body ∈ n.body?, (body.jumps marks).Valid

/-!
## Labels
-/

namespace Stmt

theorem labelNames_label (s : Stmt) (labels : List Label) :
    (s.label labels).labelNames = labels.map Label.name ++ s.labelNames := by
  induction labels with
  | nil => rfl
  | cons label rest ih => exact congrArg (label.name :: ·) ih

end Stmt

section

variable {marks : Stmt → List String}

theorem Stmt.jumps_label (s : Stmt) (labels : List Label) :
    (s.label labels).jumps marks = (s.jumps marks).underAll (labels.map Label.name) := by
  induction labels with
  | nil => rfl
  | cons label rest ih =>
    rw [Stmt.label, Stmt.jumps, ih]
    rfl

theorem Stmt.jumps_eq_underAll (s : Stmt) :
    s.jumps marks = (s.unlabeled.jumps marks).underAll s.labelNames := by
  rw [Stmt.labelNames, ← Stmt.jumps_label, Stmt.label_labels_unlabeled]

end

end Desugar
