import Desugar.Proofs.TwoPhases

/-!
# Conversions of slices

A conversion of a slice to a string or to an array copies the elements of the slice.
The effects of an expression count the variables that the operand of a conversion
reads, but not the elements.  So an assignment is split directly also when a slice
leads to a variable that is assigned, and the conversion then copies its new value.
Where no conversion copies a variable that is assigned before it, a direct split keeps
the meaning of the assignment.
-/

namespace Desugar

variable {δ : Type}

structure Conversion (δ : Type) where
  copies : Expr → Bool
  elements : Expr → List (Value δ) → Option (Value δ)
  value : Expr → Value δ → Option (Value δ)

namespace Conversion

variable (C : Conversion δ)

def copied (callee : Expr) : Value δ → List Cell
  | .slice cells => if C.copies callee then cells else []
  | _ => []

def apply (σ : Memory δ) (callee : Expr) : Value δ → Option (Value δ)
  | .slice cells =>
    if C.copies callee then (cells.mapM σ.cells).bind (C.elements callee)
    else C.value callee (.slice cells)
  | v => C.value callee v

theorem apply_of_copied {C : Conversion δ} {σ σ' : Memory δ} {callee : Expr} {v w : Value δ}
    (hcells : ∀ cell ∈ C.copied callee v, σ'.cells cell = σ.cells cell)
    (h : C.apply σ callee v = some w) : C.apply σ' callee v = some w := by
  cases v with
  | slice cells =>
    simp only [apply] at h ⊢
    cases hcopies : C.copies callee with
    | false =>
      rw [hcopies] at h
      exact h
    | true =>
      simp only [copied, hcopies, if_true] at hcells h ⊢
      rcases Option.bind_eq_some_iff.mp h with ⟨values, hvalues, hresult⟩
      have hkept := (List.forall₂_and_left _ _).mpr ⟨hcells, mapM_eq_some_iff_forall₂.mp hvalues⟩
      rw [mapM_eq_some_iff_forall₂.mpr (hkept.imp fun _ _ hcell => hcell.1.trans hcell.2)]
      exact hresult
  | data datum | pointer cell | map map => exact h

end Conversion

def SymbolTable.isConversion (table : SymbolTable) (callee : Expr) : Bool :=
  match callee.unparen with
  | .type _ _ => true
  | .ident id name => table.bindingKind (.ident id name) == some .typeName
  | _ => false

theorem SymbolTable.isPureCallee_of_isConversion {table : SymbolTable} {callee : Expr}
    (h : table.isConversion callee = true) : table.isPureCallee callee = true := by
  revert h
  unfold isConversion isPureCallee
  cases callee.unparen with
  | type id ty => exact fun _ => rfl
  | ident id name =>
    intro h
    dsimp only
    rw [beq_iff_eq.mp h]
  | _ =>
    intro h
    cases h

namespace Expr

def valueWith (table : SymbolTable) (I : Meaning δ) (C : Conversion δ) (σ : Memory δ) :
    Expr → Option (Value δ)
  | .ident id _ => (table.bindingOf id).bind fun binding => σ.cells (.var binding)
  | .lit _ value => some (I.literal value)
  | .paren _ x => x.valueWith table I C σ
  | .unary _ op x =>
    match op with
    | .addr => (x.spot table I σ).bind fun spot => (spot.cell? I).map .pointer
    | .recv => none
    | op => (x.valueWith table I C σ).bind (I.unary op)
  | .binary _ op x y =>
    (x.valueWith table I C σ).bind fun left =>
      match I.shortcut op left with
      | some v => some v
      | none => (y.valueWith table I C σ).bind (I.binary op left)
  | .star _ x => (x.valueWith table I C σ).bind fun pointer => (Spot.pointee pointer).read I σ
  | .index _ x i =>
    (x.valueWith table I C σ).bind fun container =>
      (i.valueWith table I C σ).bind fun key => (Spot.element container key).read I σ
  | .call _ callee [x] _ => (x.valueWith table I C σ).bind (C.apply σ callee)
  | _ => none

/-- An operand in which values may be converted. -/
def isConverted (table : SymbolTable) : Expr → Bool
  | .ident _ name => name != blank
  | .lit _ _ => true
  | .paren _ x => x.isConverted table
  | .unary _ op x => if op = .addr then x.isOperand else op != .recv && x.isConverted table
  | .binary _ _ x y => x.isConverted table && y.isConverted table
  | .star _ x => x.isConverted table
  | .index _ x i => x.isConverted table && i.isConverted table
  | .call _ callee [x] _ => table.isConversion callee && x.isConverted table
  | _ => false

/-- Whatever cells are copied when the conversions in an expression take place. -/
def Copies (table : SymbolTable) (I : Meaning δ) (C : Conversion δ) (σ : Memory δ)
    (P : Cell → Prop) : Expr → Prop
  | .paren _ x => x.Copies table I C σ P
  | .unary _ _ x => x.Copies table I C σ P
  | .binary _ _ x y => x.Copies table I C σ P ∧ y.Copies table I C σ P
  | .star _ x => x.Copies table I C σ P
  | .index _ x i => x.Copies table I C σ P ∧ i.Copies table I C σ P
  | .call _ callee [x] _ => x.Copies table I C σ P ∧
      ∀ v, x.valueWith table I C σ = some v → ∀ cell ∈ C.copied callee v, P cell
  | _ => True

variable {table table' : SymbolTable} {I : Meaning δ} {C : Conversion δ} {σ σ' : Memory δ}

theorem Copies.and {P Q R : Cell → Prop} (himp : ∀ cell, P cell → Q cell → R cell) {e : Expr}
    (hP : e.Copies table I C σ P) (hQ : e.Copies table I C σ Q) : e.Copies table I C σ R := by
  fun_induction Expr.Copies table I C σ P e with
  | case1 id x ih | case2 id op x ih | case4 id x ih => exact ih hP hQ
  | case3 id op x y ihx ihy | case5 id x y ihx ihy => exact ⟨ihx hP.1 hQ.1, ihy hP.2 hQ.2⟩
  | case6 id callee x spread ih =>
    exact ⟨ih hP.1 hQ.1, fun v hv cell hcell =>
      himp cell (hP.2 v hv cell hcell) (hQ.2 v hv cell hcell)⟩
  | case7 e => simp_all [Copies]

theorem Copies.of_forall {P : Cell → Prop} (h : ∀ cell, P cell) (e : Expr) :
    e.Copies table I C σ P := by
  fun_induction Expr.Copies table I C σ P e with
  | case1 id x ih | case2 id op x ih | case4 id x ih => exact ih
  | case3 id op x y ihx ihy | case5 id x y ihx ihy => exact ⟨ihx, ihy⟩
  | case6 id callee x spread ih => exact ⟨ih, fun v _ cell _ => h cell⟩
  | case7 e => trivial

theorem valueWith_carries {e : Expr} {v : Value δ} (he : e.isConverted table = true)
    (hids : ∀ id ∈ e.ids, table'.bindingOf id = table.bindingOf id)
    (hreads : ∀ location ∈ (e.effects table).reads, location.Carries σ σ')
    (hcopies : e.Copies table I C σ fun cell => σ'.cells cell = σ.cells cell)
    (hv : e.valueWith table I C σ = some v) : e.valueWith table' I C σ' = some v := by
  cases e with
  | ident id name =>
    have hname : name ≠ blank := bne_iff_ne.mp he
    rcases Option.bind_eq_some_iff.mp hv with ⟨binding, hbinding, hcell⟩
    have hcarries := hreads (.binding binding) (by
      simp [Expr.effects, hname, SymbolTable.variableAt, hbinding, Effects.read])
    rw [valueWith, hids id (.head _), hbinding]
    exact hcarries v hcell
  | lit id value => exact hv
  | paren id x =>
    exact valueWith_carries (e := x) he (List.forall_mem_cons.mp hids).2 hreads hcopies hv
  | unary id op x =>
    have hidsx := (List.forall_mem_cons.mp hids).2
    cases op with
    | recv => cases hv
    | addr =>
      simp only [valueWith] at hv ⊢
      rcases Option.bind_eq_some_iff.mp hv with ⟨spot, hspot, hcell⟩
      have htarget := isTarget_of_spot he hspot
      have hlocating : ∀ location ∈ (x.targetEffects table).reads, location.Carries σ σ' :=
        fun location hlocation =>
          hreads location (targetEffects_reads_subset table htarget hlocation)
      rw [spot_carries htarget hidsx hlocating hspot]
      exact hcell
    | neg | pos | not | xor =>
      simp only [valueWith] at hv ⊢
      rcases Option.bind_eq_some_iff.mp hv with ⟨operand, hoperand, hresult⟩
      rw [valueWith_carries (e := x) he hidsx hreads hcopies hoperand]
      exact hresult
  | binary id op x y =>
    simp only [isConverted, Bool.and_eq_true] at he
    rcases List.forall_mem_append.mp (List.forall_mem_cons.mp hids).2 with ⟨hidsx, hidsy⟩
    simp only [effects, Effects.reads_append, List.forall_mem_append] at hreads
    rw [valueWith] at hv ⊢
    rcases Option.bind_eq_some_iff.mp hv with ⟨left, hleft, hresult⟩
    rw [valueWith_carries he.1 hidsx hreads.1 hcopies.1 hleft]
    show (match I.shortcut op left with
      | some v => some v
      | none => (y.valueWith table' I C σ').bind (I.binary op left)) = some v
    cases hshort : I.shortcut op left with
    | some early =>
      rw [hshort] at hresult
      exact hresult
    | none =>
      rw [hshort] at hresult
      rcases Option.bind_eq_some_iff.mp hresult with ⟨right, hright, hresult⟩
      rw [valueWith_carries he.2 hidsy hreads.2 hcopies.2 hright]
      exact hresult
  | star id x =>
    simp only [effects, Effects.reads_append, List.forall_mem_append] at hreads
    rw [valueWith] at hv ⊢
    rcases Option.bind_eq_some_iff.mp hv with ⟨pointer, hpointer, hread⟩
    rw [valueWith_carries (e := x) he (List.forall_mem_cons.mp hids).2 hreads.2 hcopies hpointer]
    exact Spot.read_of_within (hreads.1 .memory (.head _)) hread
  | index id x i =>
    simp only [isConverted, Bool.and_eq_true] at he
    rcases List.forall_mem_append.mp (List.forall_mem_cons.mp hids).2 with ⟨hidsx, hidsi⟩
    simp only [effects, Effects.reads_append, List.forall_mem_append] at hreads
    rw [valueWith] at hv ⊢
    rcases Option.bind_eq_some_iff.mp hv with ⟨container, hcontainer, hrest⟩
    rcases Option.bind_eq_some_iff.mp hrest with ⟨key, hkey, hread⟩
    rw [valueWith_carries he.1 hidsx hreads.1.2 hcopies.1 hcontainer]
    show (Option.bind _ _) = _
    rw [valueWith_carries he.2 hidsi hreads.2 hcopies.2 hkey]
    exact Spot.read_of_within (hreads.1.1 .memory (.head _)) hread
  | call id callee args spread =>
    rcases args with _ | ⟨x, _ | ⟨_, _⟩⟩
    · cases hv
    · simp only [isConverted, Bool.and_eq_true] at he
      have hidsx : ∀ id ∈ x.ids, table'.bindingOf id = table.bindingOf id := by
        intro id' hid
        apply hids id'
        simp [Expr.ids, Exprs.ids, hid]
      simp only [effects, Exprs.effects, SymbolTable.isPureCallee_of_isConversion he.1,
        if_true] at hreads
      have hreadsx : ∀ location ∈ (x.effects table).reads, location.Carries σ σ' := by
        intro location hlocation
        apply hreads location
        simp [hlocation]
      rw [valueWith] at hv ⊢
      rcases Option.bind_eq_some_iff.mp hv with ⟨operand, hoperand, hresult⟩
      rw [valueWith_carries he.2 hidsx hreadsx hcopies.1 hoperand]
      exact Conversion.apply_of_copied (hcopies.2 operand hoperand) hresult
    · cases hv
  | _ => cases hv

end Expr

/-!
## Assignments
-/

variable [DecidableEq δ]

/-- Run an assignment whose sources may have conversions, in two phases. -/
def Stmt.runWith (table : SymbolTable) (I : Meaning δ) (C : Conversion δ) (σ : Memory δ) :
    Stmt → Option (Memory δ)
  | .assign _ lhs .assign rhs =>
    (lhs.mapM (Expr.spot table I σ)).bind fun spots =>
      (rhs.mapM (Expr.valueWith table I C σ)).bind fun values =>
        if spots.length = values.length then assignAll I (spots.zip values) σ else none
  | .labeled _ _ s => s.runWith table I C σ
  | _ => none

def Stmts.runWith (table : SymbolTable) (I : Meaning δ) (C : Conversion δ) :
    List Stmt → Memory δ → Option (Memory δ)
  | [], σ => some σ
  | s :: rest, σ => (s.runWith table I C σ).bind (Stmts.runWith table I C rest)

variable {table table' : SymbolTable} {I : Meaning δ} {C : Conversion δ} {σ τ : Memory δ}

theorem Stmt.runWith_label (s : Stmt) (labels : List Label) :
    (s.label labels).runWith table I C σ = s.runWith table I C σ := by
  induction labels with
  | nil => rfl
  | cons label rest ih => rw [Stmt.label, Stmt.runWith, ih]

theorem Stmts.runWith_labelFirst (labels : List Label) (stmts : List Stmt) :
    Stmts.runWith table I C (Stmts.labelFirst labels stmts) σ =
      Stmts.runWith table I C stmts σ := by
  cases stmts with
  | nil => rfl
  | cons s rest => rw [Stmts.labelFirst, Stmts.runWith, Stmts.runWith, Stmt.runWith_label]

def Expr.isVariable (e : Expr) : Bool :=
  match e.unparen with
  | .ident _ _ => true
  | _ => false

/-- The cell of the variable that a target names. -/
def Expr.cell? (table : SymbolTable) (target : Expr) : Option Cell :=
  match target.unparen with
  | .ident id name => if name = blank then none else (table.bindingOf id).map .var
  | _ => none

omit [DecidableEq δ] in
theorem Location.Carries.trans {ρ : Memory δ} {location : Location}
    (h : location.Carries σ τ) (h' : location.Carries τ ρ) : location.Carries σ ρ := by
  cases location with
  | binding id => exact fun v hv => h' v (h v hv)
  | name text => trivial
  | memory =>
    exact ⟨fun cell v hv => h'.cells cell v (h.cells cell v hv), h'.entries.trans h.entries⟩

namespace Expr

omit [DecidableEq δ] in
theorem isTarget_of_isVariable {target : Expr} (h : target.isVariable = true) :
    target.isTarget = true := by
  cases target with
  | paren id x =>
    have hx : x.isVariable = true := h
    have hinner := isTarget_of_isVariable hx
    exact hinner
  | ident id name => rfl
  | _ => cases h

omit [DecidableEq δ] in
theorem targetEffects_of_isVariable {target : Expr} (h : target.isVariable = true) :
    target.targetEffects table = .none := by
  unfold isVariable at h
  unfold targetEffects
  split at h
  · rename_i heq
    rw [heq]
  · cases h

theorem cells_of_assign {target : Expr} {spot : Spot δ} {v : Value δ}
    (htarget : target.isVariable = true) (hspot : target.spot table I σ = some spot)
    (hassign : spot.assign I v σ = some τ) {cell : Cell} (hcell : target.cell? table ≠ some cell) :
    τ.cells cell = σ.cells cell := by
  cases target with
  | paren id x =>
    have hx : x.isVariable = true := htarget
    have hinner := cells_of_assign hx hspot hassign hcell
    exact hinner
  | ident id name =>
    simp only [Expr.spot] at hspot
    simp only [Expr.cell?, Expr.unparen] at hcell
    by_cases hname : name = blank
    · rw [if_pos hname] at hspot
      cases hspot
      cases hassign
      rfl
    · rw [if_neg hname] at hspot hcell
      rcases Option.map_eq_some_iff.mp hspot with ⟨binding, hbinding, rfl⟩
      rw [hbinding] at hcell
      rw [Spot.assign_of_cell rfl] at hassign
      split at hassign
      · cases hassign
        exact Memory.write_cells_of_ne _ _ fun heq => hcell (heq ▸ rfl)
      · cases hassign
  | _ => cases htarget

end Expr

def KeptFor (table : SymbolTable) (I : Meaning δ) (C : Conversion δ) (σ τ : Memory δ)
    (pairs : List (Expr × Expr)) : Prop :=
  ∀ pair ∈ pairs, (∀ location ∈ (pair.2.effects table).reads, location.Carries σ τ) ∧
    pair.2.Copies table I C σ fun cell => τ.cells cell = σ.cells cell

theorem Stmts.runWith_singles {ρ : Memory δ} {pairs : List (Expr × Expr)} {stmts : List Stmt}
    {found : List (Spot δ × Value δ)}
    (hstmts : List.Forall₂ (fun pair s => ∃ id, s = .assign id [pair.1] .assign [pair.2])
      pairs stmts)
    (hpairs : ∀ pair ∈ pairs, pair.1.isVariable = true ∧ pair.2.isConverted table = true)
    (hids : ∀ pair ∈ pairs, ∀ id ∈ pair.1.ids ++ pair.2.ids,
      table'.bindingOf id = table.bindingOf id)
    (hsafe : hazardous table pairs = false)
    (hapart : pairs.Pairwise fun earlier later =>
      later.2.Copies table I C σ fun cell => earlier.1.cell? table ≠ some cell)
    (hfound : List.Forall₂ (fun pair found => pair.1.spot table I σ = some found.1 ∧
      pair.2.valueWith table I C σ = some found.2) pairs found)
    (hkept : KeptFor table I C σ ρ pairs) (hassign : assignAll I found ρ = some τ) :
    Stmts.runWith table' I C stmts ρ = some τ := by
  induction hstmts generalizing ρ found with
  | nil =>
    cases hfound
    exact hassign
  | @cons pair s pairs stmts hs _ ih =>
    cases hfound with
    | @cons _ head _ rest hpair hrest =>
      rcases hs with ⟨id, rfl⟩
      rcases List.forall_mem_cons.mp hpairs with ⟨⟨htarget, hsource⟩, hpairs⟩
      rcases List.forall_mem_cons.mp hids with ⟨hpairIds, hids⟩
      rcases List.forall_mem_append.mp hpairIds with ⟨htargetIds, hsourceIds⟩
      rcases List.forall_mem_cons.mp hkept with ⟨⟨hreads, hcopies⟩, hkept⟩
      rcases List.pairwise_cons.mp hapart with ⟨hhead, hapart⟩
      simp only [hazardous, Bool.or_eq_false_iff] at hsafe
      rcases Option.bind_eq_some_iff.mp hassign with ⟨ρ', hstep, hassign⟩
      have hlocating : ∀ {μ : Memory δ}, ∀ location ∈ (pair.1.targetEffects table).reads,
          location.Carries σ μ := by
        rw [Expr.targetEffects_of_isVariable htarget]
        exact fun _ hmem => absurd hmem List.not_mem_nil
      have hplain := Expr.isTarget_of_isVariable htarget
      have hspot := Expr.spot_carries hplain (fun _ _ => rfl) (hlocating (μ := ρ)) hpair.1
      have hspot' := Expr.spot_carries hplain htargetIds (hlocating (μ := ρ)) hpair.1
      have hv := Expr.valueWith_carries hsource hsourceIds hreads hcopies hpair.2
      have hrun : (Stmt.assign id [pair.1] .assign [pair.2]).runWith table' I C ρ = some ρ' := by
        rw [Stmt.runWith]
        simp [hspot', hv, assignAll, hstep]
      rw [Stmts.runWith, hrun]
      refine ih hpairs hids hsafe.2 hapart hrest (fun other hother => ⟨?_, ?_⟩) hassign
      · intro location hlocation
        have hcarries := carries_later hplain hspot hstep hsafe.1.1 other hother location
          (List.mem_append_right _ hlocation)
        exact ((hkept other hother).1 location hlocation).trans hcarries.1
      · refine (hkept other hother).2.and (fun cell hsame hother => ?_) (hhead other hother)
        rw [← hsame]
        exact Expr.cells_of_assign htarget hspot hstep hother

namespace Parallel

variable {env : PassEnv}

/-- An assignment to variables that is split directly keeps its meaning, also with
conversions in its sources, if no conversion copies a variable that is assigned
before it. -/
theorem direct_split_keeps_conversions {owner : NodeId} {s : Stmt} {stmts : List Stmt}
    {p q : Pass} {node : NodeId} {lhs rhs : List Expr}
    (hs : s.unlabeled = .assign node lhs .assign rhs)
    (hids : ∀ id ∈ Exprs.ids lhs ++ Exprs.ids rhs, id.Below p.ids.count)
    (hlhs : ∀ target ∈ lhs, target.isVariable = true)
    (hrhs : ∀ source ∈ rhs, source.isConverted p.table = true)
    (hdirect : hazardous p.table (lhs.zip rhs) = false)
    (hapart : (lhs.zip rhs).Pairwise fun earlier later =>
      later.2.Copies p.table I C σ fun cell => earlier.1.cell? p.table ≠ some cell)
    (hsplit : (splitStmt owner s).exec env p = (.ok (some stmts), q))
    (hrun : s.runWith p.table I C σ = some τ) : Stmts.runWith q.table I C stmts σ = some τ := by
  rcases exec_splitAssign hs hsplit with ⟨hlength, hexec⟩
  have hgrows := grows_splitAssign hlength hexec
  rw [← s.label_labels_unlabeled, Stmt.runWith_label, hs, Stmt.runWith] at hrun
  rcases Option.bind_eq_some_iff.mp hrun with ⟨spots, hspots, hrun⟩
  rcases Option.bind_eq_some_iff.mp hrun with ⟨values, hvalues, hrun⟩
  split at hrun
  · rename_i hsame
    rw [mapM_eq_some_iff_forall₂, ← List.map_fst_zip (Nat.le_of_eq hsame)] at hspots
    rw [mapM_eq_some_iff_forall₂, ← List.map_snd_zip (Nat.le_of_eq hsame.symm)] at hvalues
    have hfound := (forall₂_zip_iff (R := fun (e : Expr) spot => e.spot p.table I σ = some spot)
      (S := fun (e : Expr) v => e.valueWith p.table I C σ = some v) hlength).mpr ⟨hspots, hvalues⟩
    have hpairs : ∀ pair ∈ lhs.zip rhs,
        pair.1.isVariable = true ∧ pair.2.isConverted p.table = true := fun pair hpair =>
      ⟨hlhs _ (List.of_mem_zip hpair).1, hrhs _ (List.of_mem_zip hpair).2⟩
    have hkept : KeptFor p.table I C σ σ (lhs.zip rhs) := fun pair _ =>
      ⟨fun location _ => (Memory.Within.refl σ).carries location, .of_forall (fun _ => rfl) _⟩
    unfold splitAssign at hexec
    rw [PassM.exec_bind_ok (PassM.exec_getTable env p), hdirect, bind_pure_comp] at hexec
    have heach : PassM.Gives env
        (Stmts.labelFirst s.labels <$>
          (lhs.zip rhs).mapM fun pair => PassM.newAssign [pair.1] [pair.2])
        (fun stmts => Stmts.runWith q.table I C stmts σ = some τ) := by
      refine (PassM.Gives.mapM_each (lhs.zip rhs) fun pair _ => PassM.Gives.newStmt _).map _ ?_
      intro singles hsingles
      rw [Stmts.runWith_labelFirst]
      exact Stmts.runWith_singles hsingles hpairs (bindingOf_zip hgrows hids) hdirect hapart
        hfound hkept hrun
    exact heach p q stmts hexec
  · cases hrun

/-- An array and a string are assigned, the string from a slice:
`arr, text = other, string(s)`. -/
def copyingAssign : Stmt :=
  .assign ⟨0⟩ [.ident ⟨1⟩ "arr", .ident ⟨2⟩ "text"] .assign
    [.ident ⟨3⟩ "other", .call ⟨4⟩ (.type ⟨5⟩ (.named "string")) [.ident ⟨6⟩ "s"] false]

def copyingPass : Pass where
  file := ⟨⟨8⟩, "main", "", [], []⟩
  table :=
    { SymbolTable.empty with
      types := #[.basic .uint8, .array 1 ⟨0⟩, .slice ⟨0⟩, .basic .string]
      exprTypes := (((((∅ : NodeMap TypeId).insert ⟨1⟩ ⟨1⟩).insert ⟨2⟩ ⟨3⟩).insert ⟨3⟩ ⟨1⟩).insert
        ⟨4⟩ ⟨3⟩).insert ⟨6⟩ ⟨2⟩
      uses := ((((∅ : NodeMap BindingId).insert ⟨1⟩ ⟨0⟩).insert ⟨2⟩ ⟨3⟩).insert ⟨3⟩ ⟨1⟩).insert
        ⟨6⟩ ⟨2⟩
      bindings := #[⟨"arr", some ⟨1⟩, ⟨0⟩, .var, false⟩, ⟨"other", some ⟨1⟩, ⟨0⟩, .var, false⟩,
        ⟨"s", some ⟨2⟩, ⟨0⟩, .var, false⟩, ⟨"text", some ⟨3⟩, ⟨0⟩, .var, false⟩] }
  ids := ⟨9⟩
  diagnostics := []
  scopes := ⟨[(⟨7⟩, ⟨0⟩)]⟩
  changes := 0
  applications := 0

def firstElement : Conversion Nat where
  copies _ := true
  elements _ values := values.head?
  value _ v := some v

def copyingMemory (cell : Cell) : Memory Nat where
  cells := fun
    | .var ⟨0⟩ => some (.data 1)
    | .var ⟨1⟩ => some (.data 2)
    | .var ⟨2⟩ => some (.slice [cell])
    | .var ⟨3⟩ => some (.data 0)
    | .unnamed 0 => some (.data 3)
    | _ => none
  entries _ _ := none

theorem copyingAssign_keeps_conversion :
    ∃ stmts q ρ,
      (splitStmt ⟨7⟩ copyingAssign).exec crossingEnv copyingPass = (.ok (some stmts), q) ∧
      Stmts.runWith q.table naturals firstElement stmts (copyingMemory (.unnamed 0)) = some ρ ∧
      ρ.cells (.var ⟨3⟩) = some (.data 3) := by
  have hids : ∀ id ∈ copyingAssign.ids, id.Below copyingPass.ids.count := by
    unfold NodeId.Below
    decide
  have hbindings : copyingPass.table.bindingOf ⟨1⟩ = some ⟨0⟩ ∧
      copyingPass.table.bindingOf ⟨2⟩ = some ⟨3⟩ ∧ copyingPass.table.bindingOf ⟨3⟩ = some ⟨1⟩ ∧
      copyingPass.table.bindingOf ⟨6⟩ = some ⟨2⟩ := by
    decide
  have hrun : copyingAssign.runWith copyingPass.table naturals firstElement
      (copyingMemory (.unnamed 0)) = some (((copyingMemory (.unnamed 0)).write (.var ⟨0⟩)
        (.data 2)).write (.var ⟨3⟩) (.data 3)) := by
    simp [copyingAssign, Stmt.runWith, Expr.spot, Expr.valueWith, hbindings, copyingMemory,
      Conversion.apply, firstElement, assignAll, Spot.assign, Spot.cell?, Memory.write, blank]
  have hgiven : ((splitStmt ⟨7⟩ copyingAssign).exec crossingEnv
      copyingPass).1.toOption.join.isSome = true := by
    decide
  rcases PassM.exec_eq_some hgiven with ⟨stmts, q, hsplit⟩
  have hkept := direct_split_keeps_conversions rfl (fun id hid => hids id (.tail _ hid)) (by decide)
    (by decide) (by decide)
    (by simp [Expr.Copies, Expr.valueWith, hbindings, copyingMemory, Conversion.copied,
      firstElement, Expr.cell?, Expr.unparen, blank]) hsplit hrun
  exact ⟨stmts, q, _, hsplit, hkept, Memory.write_cells_self ..⟩

/-- A slice of the array is converted after the array has been assigned, to what the
array has become. -/
theorem copyingAssign_copies_assigned :
    ∃ stmts q,
      (splitStmt ⟨7⟩ copyingAssign).exec crossingEnv copyingPass = (.ok (some stmts), q) ∧
      (copyingAssign.runWith copyingPass.table naturals firstElement
        (copyingMemory (.var ⟨0⟩))).map (·.cells (.var ⟨3⟩)) = some (some (.data 1)) ∧
      (Stmts.runWith q.table naturals firstElement stmts
        (copyingMemory (.var ⟨0⟩))).map (·.cells (.var ⟨3⟩)) = some (some (.data 2)) := by
  refine ⟨_, _, rfl, ?_, ?_⟩
  · decide
  · decide

end Parallel

end Desugar
