import Desugar.Assignment.Effects
import Desugar.Proofs.Growth
import Desugar.Syntax.Ids
import Desugar.Syntax.Labels
import Mathlib.Data.List.Forall2
import Mathlib.Logic.Function.Basic

/-!
# Assignments as changes of memory

Memory has a cell for every variable and further cells without a name.  Pointers and
slices lead to cells of either kind, so any cell may be reached in several ways.  An
expression without calls and receives has a value, which changes nothing, and an
assignment to several targets takes place in two phases: it finds all targets and
evaluates all sources, and then writes from left to right.
-/

namespace Desugar

inductive Cell where
  | var (binding : BindingId)
  | unnamed (address : Nat)
deriving DecidableEq

inductive Value (δ : Type) where
  | data (datum : δ)
  | pointer (cell : Cell)
  | slice (cells : List Cell)
  | map (map : Nat)
deriving DecidableEq

structure Memory (δ : Type) where
  cells : Cell → Option (Value δ)
  entries : Nat → Value δ → Option (Value δ)

structure Meaning (δ : Type) where
  literal : Literal → Value δ
  unary : UnaryOp → Value δ → Option (Value δ)
  binary : BinaryOp → Value δ → Value δ → Option (Value δ)
  /-- The result that the left operand alone decides. -/
  shortcut : BinaryOp → Value δ → Option (Value δ)
  position : Value δ → Option Nat
  /-- What is read for a key without an entry. -/
  absent : Nat → Value δ → Option (Value δ)
  /-- Whether a map takes an entry for a key. -/
  accepts : Nat → Value δ → Bool

variable {δ : Type}

namespace Memory

def write (σ : Memory δ) (cell : Cell) (v : Value δ) : Memory δ :=
  { σ with cells := Function.update σ.cells cell (some v) }

def writeEntry [DecidableEq δ] (σ : Memory δ) (map : Nat) (key v : Value δ) : Memory δ :=
  { σ with entries := Function.update σ.entries map (Function.update (σ.entries map) key (some v)) }

@[simp] theorem write_cells_self (σ : Memory δ) (cell : Cell) (v : Value δ) :
    (σ.write cell v).cells cell = some v :=
  Function.update_self ..

theorem write_cells_of_ne (σ : Memory δ) {cell other : Cell} (v : Value δ) (h : other ≠ cell) :
    (σ.write cell v).cells other = σ.cells other :=
  Function.update_of_ne h ..

end Memory

/-!
## Where a target is
-/

/-- A target whose operands have been evaluated. -/
inductive Spot (δ : Type) where
  | discard
  | var (binding : BindingId)
  | pointee (pointer : Value δ)
  | element (container : Value δ) (key : Value δ)

namespace Spot

variable (I : Meaning δ)

def cell? : Spot δ → Option Cell
  | .var binding => some (.var binding)
  | .pointee (.pointer cell) => some cell
  | .element (.slice cells) key => (I.position key).bind fun i => cells[i]?
  | _ => none

def read (σ : Memory δ) : Spot δ → Option (Value δ)
  | .element (.map map) key => (σ.entries map key).or (I.absent map key)
  | spot => (spot.cell? I).bind σ.cells

/-- A write needs a cell that exists, or a map that takes the key. -/
def assign [DecidableEq δ] (spot : Spot δ) (v : Value δ) (σ : Memory δ) : Option (Memory δ) :=
  match spot with
  | .discard => some σ
  | .element (.map map) key => if I.accepts map key then some (σ.writeEntry map key v) else none
  | spot =>
    (spot.cell? I).bind fun cell => if (σ.cells cell).isSome then some (σ.write cell v) else none

end Spot

/-!
## Expressions
-/

mutual

/-- The value of an expression without calls and receives.  An identifier is read
through its binding. -/
def Expr.value (table : SymbolTable) (I : Meaning δ) (σ : Memory δ) : Expr → Option (Value δ)
  | .ident id _ => (table.bindingOf id).bind fun binding => σ.cells (.var binding)
  | .lit _ value => some (I.literal value)
  | .paren _ x => x.value table I σ
  | .unary _ op x =>
    match op with
    | .addr => (x.spot table I σ).bind fun spot => (spot.cell? I).map .pointer
    | .recv => none
    | op => (x.value table I σ).bind (I.unary op)
  | .binary _ op x y =>
    (x.value table I σ).bind fun left =>
      match I.shortcut op left with
      | some v => some v
      | none => (y.value table I σ).bind (I.binary op left)
  | .star _ x => (x.value table I σ).bind fun pointer => (Spot.pointee pointer).read I σ
  | .index _ x i =>
    (x.value table I σ).bind fun container =>
      (i.value table I σ).bind fun key => (Spot.element container key).read I σ
  | _ => none

def Expr.spot (table : SymbolTable) (I : Meaning δ) (σ : Memory δ) : Expr → Option (Spot δ)
  | .ident id name => if name = blank then some .discard else (table.bindingOf id).map .var
  | .paren _ x => x.spot table I σ
  | .star _ x => (x.value table I σ).map .pointee
  | .index _ x i =>
    (x.value table I σ).bind fun container => (i.value table I σ).map (.element container)
  | _ => none

end

/-- An expression of identifiers, literals, parentheses, operators, addresses,
dereferences and indexing. -/
def Expr.isOperand : Expr → Bool
  | .ident _ name => name != blank
  | .lit _ _ => true
  | .paren _ x => x.isOperand
  | .unary _ op x => op != .recv && x.isOperand
  | .binary _ _ x y => x.isOperand && y.isOperand
  | .star _ x => x.isOperand
  | .index _ x i => x.isOperand && i.isOperand
  | _ => false

/-- An identifier, a blank, a dereference or an element, possibly in parentheses. -/
def Expr.isTarget : Expr → Bool
  | .ident _ _ => true
  | .paren _ x => x.isTarget
  | .star _ x => x.isOperand
  | .index _ x i => x.isOperand && i.isOperand
  | _ => false

/-!
## Statements
-/

def declareAll (table : SymbolTable) :
    List (Ident × Value δ) → Memory δ → Option (Memory δ)
  | [], σ => some σ
  | (name, v) :: rest, σ =>
    (table.bindingOf name.id).bind fun binding =>
      declareAll table rest (σ.write (.var binding) v)

def Spec.run (table : SymbolTable) (I : Meaning δ) (σ : Memory δ) : Spec → Option (Memory δ)
  | .value spec =>
    (spec.values.mapM (Expr.value table I σ)).bind fun values =>
      if spec.names.length = values.length then declareAll table (spec.names.zip values) σ else none
  | .type _ => none

variable [DecidableEq δ]

def assignAll (I : Meaning δ) : List (Spot δ × Value δ) → Memory δ → Option (Memory δ)
  | [], σ => some σ
  | (spot, v) :: rest, σ => (spot.assign I v σ).bind (assignAll I rest)

mutual

/-- Run an assignment, a declaration of variables, or a block of such statements. -/
def Stmt.run (table : SymbolTable) (I : Meaning δ) (σ : Memory δ) : Stmt → Option (Memory δ)
  | .assign _ lhs .assign rhs =>
    (lhs.mapM (Expr.spot table I σ)).bind fun spots =>
      (rhs.mapM (Expr.value table I σ)).bind fun values =>
        if spots.length = values.length then assignAll I (spots.zip values) σ else none
  | .decl _ ⟨_, .var, [spec]⟩ => spec.run table I σ
  | .block _ ⟨_, stmts⟩ => Stmts.run table I stmts σ
  | .labeled _ _ s => s.run table I σ
  | _ => none

def Stmts.run (table : SymbolTable) (I : Meaning δ) : List Stmt → Memory δ → Option (Memory δ)
  | [], σ => some σ
  | s :: rest, σ => (s.run table I σ).bind (Stmts.run table I rest)

end

/-!
## Faults

A statement that does not go through leaves the memory of the moment at which it
fails.  Finding targets and evaluating sources changes nothing; a write that is not
possible fails after the writes before it.
-/

def Memory.orFault (σ : Memory δ) : Option (Memory δ) → Except (Memory δ) (Memory δ)
  | some τ => .ok τ
  | none => .error σ

def assignEach (I : Meaning δ) :
    List (Spot δ × Value δ) → Memory δ → Except (Memory δ) (Memory δ)
  | [], σ => .ok σ
  | (spot, v) :: rest, σ => (σ.orFault (spot.assign I v σ)).bind (assignEach I rest)

mutual

def Stmt.attempt (table : SymbolTable) (I : Meaning δ) (σ : Memory δ) :
    Stmt → Except (Memory δ) (Memory δ)
  | .assign _ lhs .assign rhs =>
    match lhs.mapM (Expr.spot table I σ), rhs.mapM (Expr.value table I σ) with
    | some spots, some values =>
      if spots.length = values.length then assignEach I (spots.zip values) σ else .error σ
    | _, _ => .error σ
  | .block _ ⟨_, stmts⟩ => Stmts.attempt table I stmts σ
  | .labeled _ _ s => s.attempt table I σ
  | s => σ.orFault (s.run table I σ)

def Stmts.attempt (table : SymbolTable) (I : Meaning δ) :
    List Stmt → Memory δ → Except (Memory δ) (Memory δ)
  | [], σ => .ok σ
  | s :: rest, σ => (s.attempt table I σ).bind (Stmts.attempt table I rest)

end

theorem assignEach_eq_ok_iff {I : Meaning δ} {found : List (Spot δ × Value δ)} {σ τ : Memory δ} :
    assignEach I found σ = .ok τ ↔ assignAll I found σ = some τ := by
  induction found generalizing σ with
  | nil => simp [assignEach, assignAll]
  | cons pair rest ih =>
    rw [assignEach, assignAll]
    cases pair.1.assign I pair.2 σ with
    | none => simp [Memory.orFault, Except.bind]
    | some σ' => exact ih

mutual

theorem Stmt.attempt_eq_ok_iff (table : SymbolTable) (I : Meaning δ) {σ τ : Memory δ} (s : Stmt) :
    s.attempt table I σ = .ok τ ↔ s.run table I σ = some τ := by
  have hother : σ.orFault (s.run table I σ) = .ok τ ↔ s.run table I σ = some τ := by
    cases s.run table I σ <;> simp [Memory.orFault]
  cases s with
  | assign id lhs op rhs =>
    cases op with
    | assign =>
      rw [Stmt.attempt, Stmt.run]
      cases lhs.mapM (Expr.spot table I σ) with
      | none => simp
      | some spots =>
        cases rhs.mapM (Expr.value table I σ) with
        | none => simp
        | some values =>
          simp only [Option.bind_some]
          split
          · exact assignEach_eq_ok_iff
          · simp
    | define | compound op => exact hother
  | block id block =>
    rcases block with ⟨blockId, stmts⟩
    exact Stmts.attempt_eq_ok_iff table I stmts
  | labeled id label s => exact Stmt.attempt_eq_ok_iff table I s
  | _ => exact hother

theorem Stmts.attempt_eq_ok_iff (table : SymbolTable) (I : Meaning δ) {σ τ : Memory δ}
    (stmts : List Stmt) : Stmts.attempt table I stmts σ = .ok τ ↔
      Stmts.run table I stmts σ = some τ := by
  cases stmts with
  | nil => simp [Stmts.attempt, Stmts.run]
  | cons s rest =>
    rw [Stmts.attempt, Stmts.run]
    have hs := fun σ' => Stmt.attempt_eq_ok_iff table I (σ := σ) (τ := σ') s
    cases hattempt : s.attempt table I σ with
    | ok σ' =>
      rw [(hs σ').mp hattempt]
      exact Stmts.attempt_eq_ok_iff table I rest
    | error σ' =>
      cases hrun : s.run table I σ with
      | none => simp [Except.bind]
      | some τ' =>
        rw [(hs τ').mpr hrun] at hattempt
        cases hattempt

end

theorem Stmts.run_append (table : SymbolTable) (I : Meaning δ) (first second : List Stmt)
    (σ : Memory δ) :
    Stmts.run table I (first ++ second) σ =
      (Stmts.run table I first σ).bind (Stmts.run table I second) := by
  induction first generalizing σ with
  | nil => rfl
  | cons s rest ih =>
    rw [List.cons_append, Stmts.run, Stmts.run, Option.bind_assoc]
    congr
    funext σ'
    exact ih σ'

theorem Stmt.run_label (table : SymbolTable) (I : Meaning δ) (σ : Memory δ) (s : Stmt)
    (labels : List Label) : (s.label labels).run table I σ = s.run table I σ := by
  induction labels with
  | nil => rfl
  | cons label rest ih => rw [Stmt.label, Stmt.run, ih]

theorem Stmts.run_labelFirst (table : SymbolTable) (I : Meaning δ) (labels : List Label)
    (stmts : List Stmt) (σ : Memory δ) :
    Stmts.run table I (Stmts.labelFirst labels stmts) σ = Stmts.run table I stmts σ := by
  cases stmts with
  | nil => rfl
  | cons s rest => rw [Stmts.labelFirst, Stmts.run, Stmts.run, Stmt.run_label]

/-!
## What a value depends on
-/

section Carrying

omit [DecidableEq δ]

structure Memory.Within (σ σ' : Memory δ) : Prop where
  cells : ∀ (cell : Cell) (v : Value δ), σ.cells cell = some v → σ'.cells cell = some v
  entries : σ'.entries = σ.entries

theorem Memory.Within.refl (σ : Memory δ) : σ.Within σ :=
  ⟨fun _ _ h => h, rfl⟩

def Location.Carries (σ σ' : Memory δ) : Location → Prop
  | .binding id => ∀ v, σ.cells (.var id) = some v → σ'.cells (.var id) = some v
  | .name _ => True
  | .memory => σ.Within σ'

theorem Memory.Within.carries {σ σ' : Memory δ} (h : σ.Within σ') (location : Location) :
    location.Carries σ σ' := by
  cases location with
  | binding id => exact h.cells (.var id)
  | name text => trivial
  | memory => exact h

theorem Spot.read_of_within {I : Meaning δ} {σ σ' : Memory δ} (h : σ.Within σ') {spot : Spot δ}
    {v : Value δ} (hread : spot.read I σ = some v) : spot.read I σ' = some v := by
  have hcell : ∀ spot : Spot δ, (spot.cell? I).bind σ.cells = some v →
      (spot.cell? I).bind σ'.cells = some v := by
    intro spot hspot
    rcases Option.bind_eq_some_iff.mp hspot with ⟨cell, hcell, hv⟩
    exact Option.bind_eq_some_iff.mpr ⟨cell, hcell, h.cells cell v hv⟩
  cases spot with
  | element container key =>
    cases container with
    | map map =>
      rw [Spot.read] at hread ⊢
      rw [h.entries]
      exact hread
    | data datum => exact hcell (.element (.data datum) key) hread
    | pointer cell => exact hcell (.element (.pointer cell) key) hread
    | slice cells => exact hcell (.element (.slice cells) key) hread
  | discard => exact hcell .discard hread
  | var binding => exact hcell (.var binding) hread
  | pointee pointer => exact hcell (.pointee pointer) hread

@[simp] theorem Effects.reads_append (a b : Effects) : (a ++ b).reads = a.reads ++ b.reads :=
  rfl

theorem Expr.targetEffects_reads_subset (table : SymbolTable) {e : Expr} (he : e.isTarget = true) :
    (e.targetEffects table).reads ⊆ (e.effects table).reads := by
  cases e with
  | paren id x => exact targetEffects_reads_subset table (e := x) he
  | ident id name => exact List.nil_subset _
  | index id x i =>
    show (x.effects table ++ i.effects table).reads ⊆ _
    simp only [Expr.effects, Effects.reads_append, List.append_assoc]
    exact List.subset_append_right _ _
  | star id x =>
    simp only [Expr.effects, Effects.reads_append]
    exact List.subset_append_right _ _
  | _ => cases he

theorem Expr.isTarget_of_spot {table : SymbolTable} {I : Meaning δ} {σ : Memory δ} {e : Expr}
    {spot : Spot δ} (he : e.isOperand = true) (hspot : e.spot table I σ = some spot) :
    e.isTarget = true := by
  cases e with
  | ident id name => rfl
  | paren id x => exact isTarget_of_spot (e := x) he hspot
  | star id x | index id x i => exact he
  | _ => cases hspot

variable {table table' : SymbolTable} {I : Meaning δ} {σ σ' : Memory δ}

mutual

theorem Expr.value_carries {e : Expr} {v : Value δ} (he : e.isOperand = true)
    (hids : ∀ id ∈ e.ids, table'.bindingOf id = table.bindingOf id)
    (hreads : ∀ location ∈ (e.effects table).reads, location.Carries σ σ')
    (hv : e.value table I σ = some v) : e.value table' I σ' = some v := by
  cases e with
  | ident id name =>
    have hname : name ≠ blank := bne_iff_ne.mp he
    rcases Option.bind_eq_some_iff.mp hv with ⟨binding, hbinding, hcell⟩
    have hcarries := hreads (.binding binding) (by
      simp [Expr.effects, hname, SymbolTable.variableAt, hbinding, Effects.read])
    rw [Expr.value, hids id (.head _), hbinding]
    exact hcarries v hcell
  | lit id value => exact hv
  | paren id x =>
    simp only [Expr.ids, List.forall_mem_cons] at hids
    exact Expr.value_carries (e := x) he hids.2 hreads hv
  | unary id op x =>
    simp only [Expr.isOperand, Bool.and_eq_true] at he
    simp only [Expr.ids, List.forall_mem_cons] at hids
    cases op with
    | recv => cases hv
    | addr =>
      rw [Expr.value] at hv ⊢
      rcases Option.bind_eq_some_iff.mp hv with ⟨spot, hspot, hcell⟩
      have htarget := Expr.isTarget_of_spot he.2 hspot
      have hlocating : ∀ location ∈ (x.targetEffects table).reads, location.Carries σ σ' :=
        fun location hlocation =>
          hreads location (Expr.targetEffects_reads_subset table htarget hlocation)
      rw [Expr.spot_carries htarget hids.2 hlocating hspot]
      exact hcell
    | neg | pos | not | xor =>
      simp only [Expr.value] at hv ⊢
      rcases Option.bind_eq_some_iff.mp hv with ⟨operand, hoperand, hresult⟩
      rw [Expr.value_carries he.2 hids.2 hreads hoperand]
      exact hresult
  | binary id op x y =>
    simp only [Expr.isOperand, Bool.and_eq_true] at he
    simp only [Expr.ids, List.forall_mem_cons, List.forall_mem_append] at hids
    simp only [Expr.effects, Effects.reads_append, List.forall_mem_append] at hreads
    rw [Expr.value] at hv ⊢
    rcases Option.bind_eq_some_iff.mp hv with ⟨left, hleft, hresult⟩
    rw [Expr.value_carries he.1 hids.2.1 hreads.1 hleft]
    show (match I.shortcut op left with
      | some v => some v
      | none => (y.value table' I σ').bind (I.binary op left)) = some v
    cases hshort : I.shortcut op left with
    | some early =>
      rw [hshort] at hresult
      exact hresult
    | none =>
      rw [hshort] at hresult
      rcases Option.bind_eq_some_iff.mp hresult with ⟨right, hright, hresult⟩
      rw [Expr.value_carries he.2 hids.2.2 hreads.2 hright]
      exact hresult
  | star id x =>
    simp only [Expr.ids, List.forall_mem_cons] at hids
    simp only [Expr.effects, Effects.reads_append, List.forall_mem_append] at hreads
    rw [Expr.value] at hv ⊢
    rcases Option.bind_eq_some_iff.mp hv with ⟨pointer, hpointer, hread⟩
    rw [Expr.value_carries (e := x) he hids.2 hreads.2 hpointer]
    exact Spot.read_of_within (hreads.1 .memory (.head _)) hread
  | index id x i =>
    simp only [Expr.isOperand, Bool.and_eq_true] at he
    simp only [Expr.ids, List.forall_mem_cons, List.forall_mem_append] at hids
    simp only [Expr.effects, Effects.reads_append, List.forall_mem_append] at hreads
    rw [Expr.value] at hv ⊢
    rcases Option.bind_eq_some_iff.mp hv with ⟨container, hcontainer, hrest⟩
    rcases Option.bind_eq_some_iff.mp hrest with ⟨key, hkey, hread⟩
    rw [Expr.value_carries he.1 hids.2.1 hreads.1.2 hcontainer]
    show (Option.bind _ _) = _
    rw [Expr.value_carries he.2 hids.2.2 hreads.2 hkey]
    exact Spot.read_of_within (hreads.1.1 .memory (.head _)) hread
  | _ => cases hv

theorem Expr.spot_carries {e : Expr} {spot : Spot δ} (he : e.isTarget = true)
    (hids : ∀ id ∈ e.ids, table'.bindingOf id = table.bindingOf id)
    (hreads : ∀ location ∈ (e.targetEffects table).reads, location.Carries σ σ')
    (hspot : e.spot table I σ = some spot) : e.spot table' I σ' = some spot := by
  cases e with
  | ident id name =>
    rw [Expr.spot] at hspot ⊢
    rw [hids id (.head _)]
    exact hspot
  | paren id x =>
    simp only [Expr.ids, List.forall_mem_cons] at hids
    exact Expr.spot_carries (e := x) he hids.2 hreads hspot
  | star id x =>
    simp only [Expr.ids, List.forall_mem_cons] at hids
    rw [Expr.spot] at hspot ⊢
    rcases Option.map_eq_some_iff.mp hspot with ⟨pointer, hpointer, rfl⟩
    rw [Expr.value_carries (e := x) he hids.2 hreads hpointer]
    rfl
  | index id x i =>
    simp only [Expr.isTarget, Bool.and_eq_true] at he
    simp only [Expr.ids, List.forall_mem_cons, List.forall_mem_append] at hids
    have hboth := List.forall_mem_append.mp hreads
    rw [Expr.spot] at hspot ⊢
    rcases Option.bind_eq_some_iff.mp hspot with ⟨container, hcontainer, hrest⟩
    rcases Option.map_eq_some_iff.mp hrest with ⟨key, hkey, rfl⟩
    rw [Expr.value_carries he.1 hids.2.1 hboth.1 hcontainer]
    show Option.map _ _ = _
    rw [Expr.value_carries he.2 hids.2.2 hboth.2 hkey]
    rfl
  | _ => cases hspot

end

end Carrying

end Desugar
