import Desugar.Access.Dereference
import Desugar.Proofs.ClosedTypes
import Desugar.Proofs.Contracts

/-!
# Dereferences in normal form

Writing out the pointers that indexing, slicing and selecting follow leaves none
that is followed implicitly.  This needs the types of the table to be closed,
and operands of selections that are at most one pointer away from a struct.
-/

namespace Desugar

open PassM (Obtains Ends)
open Node (All AllHave)
open Trait (With)

namespace Expr

/-- A selection of a field through at most one pointer. -/
def Direct (table : SymbolTable) : Expr → Prop
  | .selector id x _ => table.selections[id]? = some .field →
      ∀ ty elem, table.exprTypes[x.id]? = some ty → table.pointerElem ty = some elem →
        table.pointerElem elem = none
  | _ => True

/-- An expression whose operand is dereferenced implicitly, as far as the type
of the operand is concerned. -/
def Implicit (table : SymbolTable) : Expr → Prop
  | .index _ x _ => ∃ ty, table.exprTypes[x.id]? = some ty ∧ table.isPointerToArray ty = true
  | .slice _ x _ _ _ => ∃ ty, table.exprTypes[x.id]? = some ty ∧ table.isPointerToArray ty = true
  | .selector id x _ => table.selections[id]? = some .field ∧
      ∃ ty, table.exprTypes[x.id]? = some ty
  | _ => False

theorem direct_outline (table : SymbolTable) (e : Expr) :
    e.outline.Direct table ↔ e.Direct table := by
  cases e <;> simp [outline, Direct]

theorem Direct.of_outline_eq {table : SymbolTable} {e₀ e : Expr} (h : e₀.Direct table)
    (hsame : e.outline = e₀.outline) : e.Direct table := by
  rw [← direct_outline, hsame, direct_outline]
  exact h

end Expr

/-- A node that, if it selects a field, does so through at most one pointer. -/
def Node.Direct (table : SymbolTable) : Node → Prop
  | .expr e => e.Direct table
  | _ => True

section

variable {env : PassEnv} {start p q : Pass} {traits : Trait → Prop}

theorem Node.Has.of_explicit {e : Expr} (hids : ∀ id ∈ e.shownIds, id.Below p.ids.count)
    (hvalue : ∀ q : Pass, Trait.valueOperands.OnExpr q e)
    (hexplicit : ∀ q, p.Grows q → e.Explicit q.table) : (Node.expr e).Has traits p := by
  apply of_forall
  intro q hq trait _
  cases trait with
  | bounded =>
    intro id hid
    exact PassM.below_mono hq (hids id hid)
  | valueOperands => exact hvalue q
  | explicitDeref => exact hexplicit q hq
  | _ => trivial

/-!
## What stays explicit
-/

theorem Expr.Explicit.of_grows {e : Expr} (hclosed : start.table.Closed) (hq : start.Grows q)
    (hids : ∀ id ∈ e.shownIds, id.Below start.ids.count) (h : e.Explicit start.table) :
    e.Explicit q.table := by
  have harray : ∀ x : Expr, x.id.Below start.ids.count →
      (x.isType = true ∨ ∃ ty, start.table.exprTypes[x.id]? = some ty ∧
        start.table.isPointerToArray ty = false) →
      x.isType = true ∨ ∃ ty, q.table.exprTypes[x.id]? = some ty ∧
        q.table.isPointerToArray ty = false := by
    intro x hx hknown
    rcases hknown with htype | ⟨ty, hty, hform⟩
    · exact .inl htype
    · refine .inr ⟨ty, ?_, ?_⟩
      · rw [hq.table.exprTypes x.id hx]
        exact hty
      · rw [SymbolTable.isPointerToArray_eq_of_hasType hclosed hq.table
          (hclosed.exprTypes _ _ hty)]
        exact hform
  cases e with
  | index id x i | slice id x low high max => exact harray x (hids x.id (.tail _ (.head _))) h
  | selector id x name =>
    intro hselection
    rw [hq.table.selections id (hids id (.head _))] at hselection
    rcases h hselection with ⟨ty, hty, hform⟩
    refine ⟨ty, ?_, ?_⟩
    · rw [hq.table.exprTypes x.id (hids x.id (.tail _ (.head _)))]
      exact hty
    · rw [SymbolTable.implicitDeref_eq_of_hasType hclosed hq.table
        (hclosed.exprTypes _ _ hty)]
      exact hform
  | _ => trivial

namespace Dereference

theorem yields_operandType (hp : start.Grows p) {x : Expr}
    (hx : x.id.Below start.ids.count) :
    Obtains env p (operandType x)
      (fun ty q => q = p ∧ start.table.exprTypes[x.id]? = some ty) := by
  refine .look (PassM.exec_typeOf x env p) ?_
  apply Ends.require (fun _ => trivial)
  intro ty hty
  rw [hp.table.exprTypes x.id hx] at hty
  exact ⟨rfl, hty⟩

theorem yields_isPointerToArray (hclosed : start.table.Closed)
    (hp : start.Grows p) {x : Expr} (hx : x.id.Below start.ids.count) :
    Obtains env p (isPointerToArray x) (fun implicit q => q = p ∧
      if implicit then ∃ ty, start.table.exprTypes[x.id]? = some ty ∧
        start.table.isPointerToArray ty = true
      else x.isType = true ∨ ∃ ty, start.table.exprTypes[x.id]? = some ty ∧
        start.table.isPointerToArray ty = false) := by
  unfold isPointerToArray
  split
  · rename_i htype
    exact .pure ⟨rfl, .inl htype⟩
  · apply (yields_operandType hp hx).bind
    intro ty q _ hq
    rcases hq with ⟨rfl, hty⟩
    refine .look (PassM.exec_getTable env q) (.pure ⟨rfl, ?_⟩)
    rw [SymbolTable.isPointerToArray_eq_of_hasType hclosed hp.table (hclosed.exprTypes _ _ hty)]
    cases hform : start.table.isPointerToArray ty with
    | true => exact ⟨ty, hty, hform⟩
    | false => exact .inr ⟨ty, hty, hform⟩

theorem yields_isImplicit (hclosed : start.table.Closed)
    (hp : start.Grows p) {e : Expr} (hids : ∀ id ∈ e.shownIds, id.Below start.ids.count) :
    Obtains env p (isImplicit e) (fun implicit q => q = p ∧
      if implicit then e.Implicit start.table else e.Explicit start.table) := by
  cases e with
  | index id x i | slice id x low high max =>
    exact yields_isPointerToArray hclosed hp (hids x.id (.tail _ (.head _)))
  | selector id x name =>
    have hselection := hp.table.selections id (hids id (.head _))
    have hx := hids x.id (.tail _ (.head _))
    refine .look (PassM.exec_getTable env p) ?_
    rw [hselection]
    cases hfound : start.table.selections[id]? with
    | none => exact .pure ⟨rfl, fun hfield => nomatch hfound.symm.trans hfield⟩
    | some selection =>
      cases selection with
      | method => exact .pure ⟨rfl, fun hfield => nomatch hfound.symm.trans hfield⟩
      | field =>
        apply (yields_operandType hp hx).bind
        intro ty q _ hq
        rcases hq with ⟨rfl, hty⟩
        refine .look (PassM.exec_getTable env q) (.pure ⟨rfl, ?_⟩)
        rw [SymbolTable.implicitDeref_eq_of_hasType hclosed hp.table
          (hclosed.exprTypes _ _ hty)]
        cases hform : start.table.implicitDeref ty name with
        | true => exact ⟨hfound, ty, hty⟩
        | false => exact fun _ => ⟨ty, hty, hform⟩
  | _ => exact .pure ⟨rfl, trivial⟩

/-!
## Following pointers
-/

theorem yields_deref (hclosed : start.table.Closed)
    (hp : start.Grows p) {x : Expr} {ty : TypeId}
    (hx : x.Settled traits p) (hty : p.table.exprTypes[x.id]? = some ty)
    (hknown : start.table.HasType ty) :
    Obtains env p (deref x) (fun x' q => x'.Settled traits q ∧
      q.table.exprTypes[x'.id]? = some (start.table.holder ty) ∧
      (start.table.pointerElem ty ≠ none → x'.isType = false)) := by
  have hsame := SymbolTable.pointerElem_eq_of_hasType hclosed hp.table hknown
  refine .look (PassM.exec_getTable env p) ?_
  refine .look (PassM.exec_typeOf x env p) ?_
  rw [hty, Option.bind_some, hsame]
  cases helem : start.table.pointerElem ty with
  | none =>
    apply Ends.pure
    refine ⟨hx, ?_, fun hne => absurd rfl hne⟩
    simp only [SymbolTable.holder, helem]
    exact hty
  | some elem =>
    apply (PassM.yields_newExpr _ _ trivial).mono
    intro x' q hq hx'
    rcases hx' with ⟨id, rfl, hid, hrecorded⟩
    refine ⟨.star hid (hx.mono hq), ?_, fun _ => rfl⟩
    simp only [SymbolTable.holder, helem]
    exact hrecorded elem rfl

def selectField (operand : Expr) (field : StructField) : PassM Expr := do
  let step ← PassM.newExpr (fun id => .selector id operand field.name) (some field.ty)
  PassM.modifyTable (fun table => table.recordSelection step.id .field)
  return step

theorem follow_cons (operand : Expr) (field : StructField) (rest : List StructField) :
    follow operand (field :: rest) = (do
      let step ← selectField operand field
      follow (← deref step) rest) := by
  simp [follow, selectField]

theorem selectField_drawsOne (operand : Expr) (field : StructField) (env : PassEnv) (p : Pass) :
    PassM.DrawsOne (selectField operand field) env p
      (fun id => .selector id operand field.name)
      (fun id => (PassM.withType p.table (some field.ty) id).recordSelection id .field) := by
  have hnew := PassM.newExpr_drawsOne (fun id => .selector id operand field.name)
    (some field.ty) env p
  unfold PassM.DrawsOne at hnew ⊢
  unfold selectField
  rw [PassM.exec_bind, hnew]
  cases p.ids.take? <;> rfl

theorem yields_selectField (hbounded : traits .bounded)
    {operand : Expr} {holder : TypeId} {field : StructField} (hoperand : operand.Settled traits p)
    (hty : p.table.exprTypes[operand.id]? = some holder)
    (hfield : p.table.HasField holder field.name) :
    Obtains env p (selectField operand field) (fun e q => e.Settled traits q ∧
      q.table.exprTypes[e.id]? = some field.ty) := by
  have hid := hoperand.id_below hbounded
  have hnew : Obtains env p (selectField operand field) (fun e q => ∃ id,
      e = .selector id operand field.name ∧ id.Below q.ids.count ∧
      q.table.exprTypes[id]? = some field.ty) := by
    apply PassM.Yields.of_drawsOne (selectField_drawsOne operand field env p) trivial
    · intro id hfresh
      exact (PassM.extends_withType _ hfresh).trans (Nat.le_refl _)
        (SymbolTable.extends_recordSelection .field hfresh)
    · intro id other hother
      exact (SymbolTable.recorded_recordSelection hother).elim PassM.recorded_withType .inr
    · intro id ids hbelow
      exact ⟨id, rfl, hbelow, PassM.getElem?_withType p.table field.ty id⟩
  apply hnew.mono
  intro e q hq he
  rcases he with ⟨id, rfl, hbelow, hrecorded⟩
  refine ⟨Node.All.cons_iff.mpr ⟨?_, hoperand.mono hq⟩, hrecorded⟩
  apply Node.Has.of_explicit
  · intro other hother
    rcases List.mem_pair.mp hother with rfl | rfl
    · exact hbelow
    · exact PassM.below_mono hq hid
  · intro r
    trivial
  · intro r hr _
    refine ⟨holder, ?_, ?_⟩
    · rw [(hq.trans hr).table.exprTypes operand.id hid]
      exact hty
    · exact SymbolTable.implicitDeref_of_hasField
        (SymbolTable.hasField_of_extends (hq.trans hr).table hfield)

theorem yields_follow (hclosed : start.table.Closed)
    (hbounded : traits .bounded) (hp : start.Grows p) {operand : Expr} {name : String}
    {id last : TypeId} {path : List StructField} (hoperand : operand.Settled traits p)
    (hty : p.table.exprTypes[operand.id]? = some (start.table.holder id))
    (hpath : start.table.Promotes id path last)
    (hname : start.table.HasField (start.table.holder last) name) :
    Obtains env p (follow operand path) (fun e q => e.Settled traits q ∧
      ∃ last, q.table.exprTypes[e.id]? = some last ∧ start.table.HasField last name) := by
  induction hpath generalizing p operand with
  | nil id => exact .pure ⟨hoperand, _, hty, hname⟩
  | @cons id last fields rest field hfields hmem _ _ ih =>
    have hfield : start.table.HasField (start.table.holder id) field.name :=
      ⟨fields, hfields, field, hmem, rfl⟩
    rw [follow_cons]
    apply (yields_selectField hbounded hoperand hty
      (SymbolTable.hasField_of_extends hp.table hfield)).bind
    intro step q hq hstep
    rcases hstep with ⟨hstep, hstepTy⟩
    apply (yields_deref hclosed (hp.trans hq) hstep hstepTy
      (hclosed.hasType_of_fieldsOf hfields hmem)).bind
    intro next r hr hnext
    exact ih (hp.trans (hq.trans hr)) hnext.1 hnext.2.1 hname

/-!
## Exposing the operand
-/

theorem promotion_eq (hclosed : start.table.Closed) (hp : start.Grows p) {ty : TypeId}
    (hknown : start.table.HasType ty) (name : String) :
    promotion p.table (some ty) name =
      (start.table.fieldPath (start.table.holder ty) name).getD [] := by
  have hholder : (p.table.pointerElem ty).getD ty = start.table.holder ty := by
    rw [SymbolTable.pointerElem_eq_of_hasType hclosed hp.table hknown]
    rfl
  simp only [promotion, Option.bind_some, hholder]
  rw [(SymbolTable.fieldPath_eq_of_hasType hclosed hp.table
    (hclosed.hasType_holder hknown) name).1]

def IsArrayOperand (traits : Trait → Prop) (p : Pass) (x : Expr) : Prop :=
  x.Settled traits p ∧ x.isType = false ∧ ∃ ty, p.table.exprTypes[x.id]? = some ty ∧
    ∀ q, p.Grows q → q.table.isPointerToArray ty = false

theorem yields_derefArray (hclosed : start.table.Closed)
    (hp : start.Grows p) {x : Expr} (hbelow : x.id.Below start.ids.count)
    (hx : x.Settled traits p)
    (himplicit : ∃ ty, start.table.exprTypes[x.id]? = some ty ∧
      start.table.isPointerToArray ty = true) :
    Obtains env p (deref x) (fun x' q => IsArrayOperand traits q x') := by
  rcases himplicit with ⟨ty, hty, harray⟩
  have hknown := hclosed.exprTypes _ _ hty
  cases helem : start.table.pointerElem ty with
  | none =>
    rw [SymbolTable.isPointerToArray, helem] at harray
    cases harray
  | some elem =>
    rw [SymbolTable.isPointerToArray, helem] at harray
    have htype : p.table.exprTypes[x.id]? = some ty := by
      rw [hp.table.exprTypes x.id hbelow]
      exact hty
    apply (yields_deref hclosed hp hx htype hknown).mono
    intro x' q hq hx'
    rcases hx' with ⟨hsettled, hrecorded, hvalue⟩
    have hholder : start.table.holder ty = elem := by
      rw [SymbolTable.holder, helem]
      rfl
    rw [hholder] at hrecorded
    refine ⟨hsettled, hvalue (by rw [helem]; exact Option.some_ne_none elem), elem, hrecorded, ?_⟩
    intro r hr
    rw [SymbolTable.isPointerToArray_eq_of_hasType hclosed (hp.trans (hq.trans hr)).table
      (hclosed.hasType_of_pointerElem helem)]
    exact SymbolTable.not_isPointerToArray_of_isArray harray

theorem yields_derefField (hclosed : start.table.Closed)
    (hbounded : traits .bounded) (hp : start.Grows p) {x : Expr} {ty : TypeId} {name : String}
    (hx : x.Settled traits p) (hty : p.table.exprTypes[x.id]? = some ty)
    (hknown : start.table.HasType ty)
    (hdirect : start.table.pointerElem (start.table.holder ty) = none) :
    Obtains env p (do follow (← deref x) (promotion p.table (some ty) name))
      (fun x' q => x'.Settled traits q ∧ ∃ last, q.table.exprTypes[x'.id]? = some last ∧
        ∀ r, q.Grows r → r.table.implicitDeref last name = false) := by
  have hholder := hclosed.hasType_holder hknown
  rw [promotion_eq hclosed hp hknown name]
  apply (yields_deref hclosed hp hx hty hknown).bind
  intro x' q hq hx'
  rcases hx' with ⟨hsettled, hrecorded, _⟩
  cases hpath : start.table.fieldPath (start.table.holder ty) name with
  | none =>
    apply Ends.pure
    refine ⟨hsettled, _, hrecorded, ?_⟩
    intro r hr
    rw [SymbolTable.implicitDeref_eq_of_hasType hclosed (hp.trans (hq.trans hr)).table hholder]
    rw [SymbolTable.implicitDeref, hdirect, hpath]
    rfl
  | some path =>
    rcases SymbolTable.hasField_of_fieldPath hpath with ⟨last, hpromotes, hname⟩
    have hsame : start.table.holder (start.table.holder ty) = start.table.holder ty :=
      congrArg (Option.getD · _) hdirect
    rw [← hsame] at hrecorded
    apply (yields_follow hclosed hbounded (hp.trans hq) hsettled hrecorded hpromotes hname).mono
    intro e r hr he
    rcases he with ⟨he, last, hlast, hfield⟩
    refine ⟨he, last, hlast, ?_⟩
    intro u hu
    exact SymbolTable.implicitDeref_of_hasField
      (SymbolTable.hasField_of_extends (hp.trans (hq.trans (hr.trans hu))).table hfield)

theorem below_pair {id : NodeId} {x : Expr} (hbounded : traits .bounded)
    (hid : id.Below p.ids.count) (hx : x.Settled traits p) :
    ∀ other ∈ [id, x.id], other.Below p.ids.count := by
  intro other hother
  rcases List.mem_pair.mp hother with rfl | rfl
  · exact hid
  · exact hx.id_below hbounded

theorem IsArrayOperand.explicit {x : Expr} (hbounded : traits .bounded)
    (h : IsArrayOperand traits p x) (hq : p.Grows q) :
    x.isType = true ∨ ∃ ty, q.table.exprTypes[x.id]? = some ty ∧
      q.table.isPointerToArray ty = false := by
  rcases h with ⟨hsettled, _, ty, hrecorded, hform⟩
  refine .inr ⟨ty, ?_, hform q hq⟩
  rw [hq.table.exprTypes x.id (hsettled.id_below hbounded)]
  exact hrecorded

theorem yields_expose (hclosed : start.table.Closed)
    (hbounded : traits .bounded) (hp : start.Grows p) {e : Expr}
    (hids : ∀ id ∈ e.shownIds, id.Below start.ids.count) (hdirect : e.Direct start.table)
    (himplicit : e.Implicit start.table)
    (hinner : AllHave traits p e.innerNodes) :
    Obtains env p (expose e) (fun e' q => e'.face = e.face ∧ e'.Settled traits q) := by
  cases e with
  | index id x i =>
    have hinner' : AllHave traits p (x.nodes ++ i.nodes) := hinner
    rcases Node.All.append_iff.mp hinner' with ⟨hx, hi⟩
    apply (yields_derefArray hclosed hp (hids x.id (.tail _ (.head _))) hx himplicit).bind
    intro x' q hq hx'
    have hid := PassM.below_mono (hp.trans hq) (hids id (.head _))
    have hself : (Node.expr (.index id x' i)).Has traits q := by
      apply Node.Has.of_explicit
      · exact below_pair hbounded hid hx'.1
      · exact fun _ => hx'.2.1
      · exact fun r hr => hx'.explicit hbounded hr
    exact .pure ⟨rfl, Node.All.cons_iff.mpr ⟨hself, Node.All.append_iff.mpr
      ⟨hx'.1, Node.Has.all_mono hq hi⟩⟩⟩
  | slice id x low high max =>
    have hinner' : AllHave traits p
        (x.nodes ++ OptExpr.nodes low ++ OptExpr.nodes high ++ OptExpr.nodes max) := hinner
    simp only [Node.All.append_iff] at hinner'
    rcases hinner' with ⟨⟨⟨hx, hlow⟩, hhigh⟩, hmax⟩
    apply (yields_derefArray hclosed hp (hids x.id (.tail _ (.head _))) hx himplicit).bind
    intro x' q hq hx'
    have hid := PassM.below_mono (hp.trans hq) (hids id (.head _))
    have hself : (Node.expr (.slice id x' low high max)).Has traits q := by
      apply Node.Has.of_explicit
      · exact below_pair hbounded hid hx'.1
      · exact fun _ => hx'.2.1
      · exact fun r hr => hx'.explicit hbounded hr
    refine .pure ⟨rfl, Node.All.cons_iff.mpr ⟨hself, ?_⟩⟩
    simp only [Node.All.append_iff]
    exact ⟨⟨⟨hx'.1, Node.Has.all_mono hq hlow⟩, Node.Has.all_mono hq hhigh⟩,
      Node.Has.all_mono hq hmax⟩
  | selector id x name =>
    rcases himplicit with ⟨hselection, ty, hty⟩
    have hinner' : x.Settled traits p := hinner
    have htype : p.table.exprTypes[x.id]? = some ty := by
      rw [hp.table.exprTypes x.id (hids x.id (.tail _ (.head _)))]
      exact hty
    have hplain : start.table.pointerElem (start.table.holder ty) = none := by
      unfold SymbolTable.holder
      cases helem : start.table.pointerElem ty with
      | none => exact helem
      | some elem => exact hdirect hselection ty elem hty helem
    refine .look (PassM.exec_getTable env p) ?_
    refine .look (PassM.exec_typeOf x env p) ?_
    rw [htype, ← bind_assoc]
    apply (yields_derefField hclosed hbounded hp hinner' htype
      (hclosed.exprTypes _ _ hty) hplain).bind
    intro x' q hq hx'
    rcases hx' with ⟨hsettled, last, hrecorded, hform⟩
    have hid := PassM.below_mono (hp.trans hq) (hids id (.head _))
    have hself : (Node.expr (.selector id x' name)).Has traits q := by
      apply Node.Has.of_explicit
      · exact below_pair hbounded hid hsettled
      · exact fun _ => trivial
      · intro r hr _
        refine ⟨last, ?_, hform r hr⟩
        rw [hr.table.exprTypes x'.id (hsettled.id_below hbounded)]
        exact hrecorded
    exact .pure ⟨rfl, Node.All.cons_iff.mpr ⟨hself, hsettled⟩⟩
  | _ => exact himplicit.elim

theorem yields_expr (hclosed : start.table.Closed)
    (hbounded : traits .bounded) (hp : start.Grows p) {e : Expr}
    (hself : (Node.expr e).Has traits start) (hdirect : e.Direct start.table)
    (hinner : AllHave (With traits .explicitDeref) p e.innerNodes) :
    Obtains env p (transformer.expr e)
      (fun e' q => e'.face = e.face ∧ e'.Settled (With traits .explicitDeref) q) := by
  have hids : ∀ id ∈ e.shownIds, id.Below start.ids.count :=
    hself.holds hbounded fun hstage => absurd hstage (Nat.lt_irrefl 0)
  apply (yields_isImplicit hclosed hp hids).bind
  intro implicit q hq hfound
  rcases hfound with ⟨rfl, hfound⟩
  cases implicit with
  | true =>
    have hcount : q.Grows _ := .counted q
    refine .step (PassM.exec_countChange env q) hcount ?_
    exact yields_expose hclosed (.inl hbounded) (hp.trans hcount) hids hdirect hfound
      (Node.Has.all_mono hcount hinner)
  | false =>
    refine .pure ⟨rfl, ?_⟩
    rw [Expr.Settled, e.nodes_eq]
    refine Node.All.cons_iff.mpr ⟨(hself.mono hp).with_trait ?_, hinner⟩
    intro r hr _
    exact Expr.Explicit.of_grows hclosed (hp.trans hr) hids hfound

theorem contract (hclosed : start.table.Closed)
    (hbounded : traits .bounded) (hsimple : traits .simpleHeaders)
    (hbranchElse : traits .branchElse) :
    transformer.NodeContract Fault.any env start
      (fun n => n.Has traits start ∧ n.Direct start.table) traits .explicitDeref := by
  apply Transformer.NodeContract.of_hooks rfl rfl (by decide) (by decide) hsimple hbranchElse
  · intro n hn
    exact hn.1
  · intro q s _
    cases s <;> trivial
  · intro p e₀ e hp hself hsame hinner
    have hface := Expr.face_eq_of_outline_eq hsame
    apply (yields_expr hclosed hbounded hp (hself.1.expr_of_outline_eq hsame)
      (Expr.Direct.of_outline_eq hself.2 hsame) hinner).mono
    intro e' q _ he'
    exact ⟨he'.1.trans hface, he'.2⟩
  · intro p d₀ d top hp hself hsame hspecs
    exact Transformer.yields_decl_of_pure rfl (fun _ => trivial) hp hself.1 hsame hspecs
  · intro p id init clauses _ hself
    exact Transformer.yields_tag_of_pure rfl (by decide) (hself.imp And.left And.left)

end Dereference
end
end Desugar
