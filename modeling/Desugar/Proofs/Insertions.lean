import Desugar.Proofs.ControlRenewal
import Desugar.Proofs.IdleWalks
import Desugar.Proofs.Prerequisites

/-!
# Inserted dereferences

The dereferences and selections that the walk over accesses puts in are recorded with the
types they have, lead to the field that is selected, and leave no pointer to be followed
implicitly.  Nothing else happens: without them the file is what it was.
-/

namespace Desugar

open PassM (Leaves Ends)

/-- Nothing but drawing identities and recording facts for them. -/
def Liberty.bare : Liberty :=
  ⟨False, fun _ => False, (fun _ => false), False⟩

theorem Pass.Evolves.types {p q : Pass} (h : p.Evolves .bare q) :
    q.table.types = p.table.types := by
  rcases h.added with ⟨more, hmore, hadds⟩
  cases more with
  | nil => exact Array.toList_inj.mp (hmore.trans (List.append_nil _))
  | cons type _ => exact (hadds type (List.mem_cons_self ..)).elim

theorem Pass.Evolves.grown {p q : Pass} (h : p.Evolves .bare q) :
    p.table.BasicallyGrown q.table := by
  intro id
  left
  rw [SymbolTable.ty, SymbolTable.ty, h.types]

namespace Dereference

/-!
## Taking them out again
-/

def shed (first : Nat) : Expr → Expr
  | .star id x => if id.val.toNat < first then .star id x else x
  | .selector id x name => if id.val.toNat < first then .selector id x name else x
  | e => e

/-- The walk that takes out the dereferences and selections that are none of the first nodes. -/
def remover (first : Nat) : Transformer where
  expr e := return shed first e

def origin (first : Nat) : Expr → Expr
  | .star id x => if id.val.toNat < first then .star id x else origin first x
  | .selector id x name => if id.val.toNat < first then .selector id x name else origin first x
  | e => e

variable {first : Nat} {id : NodeId} {x x' e : Expr}

theorem shed_of_below (h : e.id.Below first) : shed first e = e := by
  cases e <;> first | rfl | exact if_pos h

theorem origin_of_below (h : e.id.Below first) : origin first e = e := by
  cases e <;> first | rfl | exact if_pos h

theorem transform_star (h : ¬ id.Below first) (x : Expr) :
    (Expr.star id x).transform (remover first) = x.transform (remover first) := by
  have hshed : ∀ y, (remover first).expr (.star id y) = pure y :=
    fun y => congrArg pure (if_neg h)
  simp only [Expr.transform, hshed, bind_pure]

theorem transform_selector (h : ¬ id.Below first) (x : Expr) (name : String) :
    (Expr.selector id x name).transform (remover first) = x.transform (remover first) := by
  have hshed : ∀ y, (remover first).expr (.selector id y name) = pure y :=
    fun y => congrArg pure (if_neg h)
  simp only [Expr.transform, hshed, bind_pure]

/-!
## What is put in
-/

/-- What is recorded about a node by whether it is one of the first.  All others are
dereferences of pointers and selections of fields.  A selection of the first nodes with another
operand than before is that of a field that the operand has, if there is a way to the field. -/
def Recorded (first : Nat) (table : SymbolTable) : Expr → Prop
  | .star id x => ¬ id.Below first → ∃ ty elem, table.exprTypes[x.id]? = some ty ∧
      table.pointerElem ty = some elem ∧ table.exprTypes[id]? = some elem
  | .selector id x name =>
    (¬ id.Below first → table.selections[id]? = some .field ∧
      ∃ holder fields field, table.exprTypes[x.id]? = some holder ∧
        table.fieldsOf holder = some fields ∧ field ∈ fields ∧ field.name = name ∧
        table.exprTypes[id]? = some field.ty) ∧
    (id.Below first → ¬ x.id.Below first → ∀ ty path,
      table.exprTypes[(origin first x).id]? = some ty →
      table.fieldPath (table.holder ty) name = some path →
      ∃ last, table.exprTypes[x.id]? = some last ∧ table.HasField last name)
  | e => e.id.Below first

/-- A node where everything is recorded and no pointer is followed implicitly. -/
def Sound (first : Nat) (table : SymbolTable) : Node → Prop
  | .expr e => Recorded first table e ∧ e.derefsImplicitly table = false
  | _ => True

def AllSound (first : Nat) (p : Pass) (nodes : List Node) : Prop :=
  ∀ n ∈ nodes, ∀ q, p.Evolves .bare q → Sound first q.table n

theorem AllSound.mono {p q : Pass} {nodes : List Node} (h : AllSound first p nodes)
    (hq : p.Evolves .bare q) : AllSound first q nodes :=
  fun n hn r hr => h n hn r (hq.trans hr)

/-- An operand of a certain type that comes from another one. -/
structure Reaches (first : Nat) (p : Pass) (x : Expr) (ty : TypeId) (x' : Expr) : Prop where
  restored : x'.transform (remover first) = x.transform (remover first)
  origin : origin first x' = x
  below : x'.id.Below p.ids.count
  type : p.table.exprTypes[x'.id]? = some ty
  sound : AllSound first p x'.nodes

variable {env : PassEnv} {start p : Pass} {ty : TypeId}

theorem not_below_of_drawnIn (hp : start.Evolves .bare p) {q : Pass} (h : id.DrawnIn p q) :
    ¬ id.Below start.ids.count :=
  Nat.not_lt.mpr (Nat.le_trans hp.ids h.1)

theorem leaves_deref_reaches (hp : start.Evolves .bare p)
    (h : Reaches start.ids.count p x ty x') :
    Leaves .bare env p (deref x')
      (fun e q => Reaches start.ids.count q x (start.table.holder ty) e) := by
  refine .look (PassM.exec_getTable env p) (.look (PassM.exec_typeOf x' env p) ?_)
  rw [h.type, Option.bind_some, hp.grown.pointerElem]
  unfold SymbolTable.holder
  cases helem : start.table.pointerElem ty with
  | none => exact .pure h
  | some elem =>
    apply (PassM.leaves_newExpr _ _).mono
    rintro e q hq ⟨id, rfl, hid, hrecorded⟩
    have hnew := not_below_of_drawnIn hp hid
    have hself : ∀ r, q.Evolves .bare r → Sound start.ids.count r.table (.expr (.star id x')) := by
      intro r hr
      have helem' : r.table.pointerElem ty = some elem := by
        rw [(hp.trans (hq.trans hr)).grown.pointerElem, helem]
      exact ⟨fun _ => ⟨ty, elem, ((hq.trans hr).table.exprTypes _ h.below).trans h.type, helem',
        (hr.table.exprTypes _ hid.2).trans (hrecorded elem rfl)⟩, rfl⟩
    exact {
      restored := (transform_star hnew x').trans h.restored
      origin := (if_neg hnew).trans h.origin
      below := hid.2
      type := hrecorded elem rfl
      sound := List.forall_mem_cons.mpr ⟨hself, h.sound.mono hq⟩ }

theorem not_derefsImplicitly_selector {table : SymbolTable} {name : String}
    (htype : table.exprTypes[x.id]? = some ty) (h : table.implicitDeref ty name = false) :
    (Expr.selector id x name).derefsImplicitly table = false := by
  simp [Expr.derefsImplicitly, htype, h]

theorem hasField_of_grown {table other : SymbolTable} (h : table.BasicallyGrown other)
    {name : String} (hfield : table.HasField ty name) : other.HasField ty name := by
  unfold SymbolTable.HasField
  rw [h.fieldsOf]
  exact hfield

theorem leaves_selectField_reaches (hp : start.Evolves .bare p)
    (h : Reaches start.ids.count p x ty x') {fields : List StructField} {field : StructField}
    (hfields : start.table.fieldsOf ty = some fields) (hmem : field ∈ fields) :
    Leaves .bare env p (selectField x' field)
      (fun e q => Reaches start.ids.count q x field.ty e) := by
  apply (leaves_selectField x' field).mono
  rintro e q hq ⟨id, rfl, hid, htype, hselection⟩
  have hnew := not_below_of_drawnIn hp hid
  have hself : ∀ r, q.Evolves .bare r →
      Sound start.ids.count r.table (.expr (.selector id x' field.name)) := by
    intro r hr
    have hgrown := (hp.trans (hq.trans hr)).grown
    have hoperand : r.table.exprTypes[x'.id]? = some ty :=
      ((hq.trans hr).table.exprTypes _ h.below).trans h.type
    have hfields' : r.table.fieldsOf ty = some fields := by
      rw [hgrown.fieldsOf, hfields]
    constructor
    · exact ⟨fun _ => ⟨(hr.table.selections _ hid.2).trans hselection, ty, fields, field, hoperand,
        hfields', hmem, rfl, (hr.table.exprTypes _ hid.2).trans htype⟩,
        fun hold => absurd hold hnew⟩
    · exact not_derefsImplicitly_selector hoperand
        (SymbolTable.implicitDeref_of_hasField ⟨fields, hfields', field, hmem, rfl⟩)
  exact {
    restored := (transform_selector hnew x' field.name).trans h.restored
    origin := (if_neg hnew).trans h.origin
    below := hid.2
    type := htype
    sound := List.forall_mem_cons.mpr ⟨hself, h.sound.mono hq⟩ }

theorem leaves_follow_reaches {name : String} {id last : TypeId} {path : List StructField}
    (hp : start.Evolves .bare p) (h : Reaches start.ids.count p x (start.table.holder id) x')
    (hpath : start.table.Promotes id path last)
    (hname : start.table.HasField (start.table.holder last) name) :
    Leaves .bare env p (follow x' path) (fun e q =>
      ∃ last, Reaches start.ids.count q x last e ∧ start.table.HasField last name) := by
  induction hpath generalizing p x' with
  | nil id => exact .pure ⟨_, h, hname⟩
  | cons hfields hmem _ _ ih =>
    rw [follow_cons]
    apply (leaves_selectField_reaches hp h hfields hmem).bind
    intro step q hq hstep
    apply (leaves_deref_reaches (hp.trans hq) hstep).bind
    intro next r hr hnext
    exact ih ((hp.trans hq).trans hr) hnext hname

/-!
## Accesses
-/

def operand? : Expr → Option Expr
  | .index _ x _ | .slice _ x _ _ _ | .selector _ x _ => some x
  | _ => none

/-- What is expected of an expression: it is drawn with its operand, selects fields through
one pointer at most, and indexes and slices values. -/
structure Suits (start : Pass) (e : Expr) : Prop where
  id : e.id.Below start.ids.count
  operand : ∀ x ∈ operand? e, x.id.Below start.ids.count
  direct : e.Direct start.table
  value : e.OnValue

theorem Suits.recorded (h : Suits start e) (table : SymbolTable) :
    Recorded start.ids.count table e := by
  cases e with
  | star id x => exact fun hnew => absurd h.id hnew
  | selector id x name =>
    exact ⟨fun hnew => absurd h.id hnew, fun _ hnew => absurd (h.operand x rfl) hnew⟩
  | _ => exact h.id

theorem Suits.derefsImplicitly_eq (h : Suits start e) {q : Pass} (hp : start.Evolves .bare p)
    (hq : p.Evolves .bare q) : e.derefsImplicitly q.table = e.derefsImplicitly p.table := by
  have htype : ∀ x ∈ operand? e, q.table.exprTypes[x.id]? = p.table.exprTypes[x.id]? :=
    fun x hx => hq.table.exprTypes _ (PassM.below_mono hp.toGrows (h.operand x hx))
  cases e with
  | index id x i | slice id x low high max =>
    simp only [Expr.derefsImplicitly, htype x rfl, hq.grown.isPointerToArray]
  | selector id x name =>
    simp only [Expr.derefsImplicitly, htype x rfl, hq.grown.implicitDeref,
      hq.table.selections id (PassM.below_mono hp.toGrows h.id)]
  | _ => rfl

structure Changes (start : Pass) (e e' : Expr) (q : Pass) : Prop where
  id : e'.id = e.id
  isType : e'.isType = e.isType
  restored : e'.transform (remover start.ids.count) = e.transform (remover start.ids.count)
  sound : AllSound start.ids.count q e'.nodes

theorem Suits.reaches (h : Suits start e) (hp : start.Evolves .bare p) (hx : x ∈ operand? e)
    (htype : p.table.exprTypes[x.id]? = some ty) (hsound : AllSound start.ids.count p x.nodes) :
    Reaches start.ids.count p x ty x where
  restored := rfl
  origin := origin_of_below (h.operand x hx)
  below := PassM.below_mono hp.toGrows (h.operand x hx)
  type := htype
  sound := hsound

theorem Suits.leaves_derefArray (h : Suits start e) (hp : start.Evolves .bare p)
    (hx : x ∈ operand? e)
    (himplicit : (p.table.exprTypes[x.id]?).any p.table.isPointerToArray = true)
    (hsound : AllSound start.ids.count p x.nodes) :
    Leaves .bare env p (deref x) (fun x' q =>
      x'.transform (remover start.ids.count) = x.transform (remover start.ids.count) ∧
      AllSound start.ids.count q x'.nodes ∧ ∀ r, q.Evolves .bare r →
        (r.table.exprTypes[x'.id]?).any r.table.isPointerToArray = false) := by
  cases htype : p.table.exprTypes[x.id]? with
  | none =>
    rw [htype] at himplicit
    cases himplicit
  | some ty =>
    have harray : start.table.isPointerToArray ty = true := by
      rw [htype, Option.any_some, hp.grown.isPointerToArray] at himplicit
      exact himplicit
    apply (leaves_deref_reaches hp (h.reaches hp hx htype hsound)).mono
    intro x' q hq hreaches
    refine ⟨hreaches.restored, hreaches.sound, fun r hr => ?_⟩
    rw [hr.table.exprTypes _ hreaches.below, hreaches.type, Option.any_some,
      (hp.trans (hq.trans hr)).grown.isPointerToArray]
    unfold SymbolTable.isPointerToArray at harray
    unfold SymbolTable.holder
    cases helem : start.table.pointerElem ty with
    | none =>
      rw [helem] at harray
      cases harray
    | some elem =>
      rw [helem] at harray
      exact SymbolTable.not_isPointerToArray_of_isArray harray

theorem Suits.leaves_derefField {name : String} (h : Suits start (.selector id x name))
    (hp : start.Evolves .bare p) (hselection : p.table.selections[id]? = some .field)
    (htype : p.table.exprTypes[x.id]? = some ty) (hsound : AllSound start.ids.count p x.nodes) :
    Leaves .bare env p (do follow (← deref x) (promotion p.table (some ty) name))
      (fun x' q => ∃ last, Reaches start.ids.count q x last x' ∧
        start.table.implicitDeref last name = false ∧
        ∀ path, start.table.fieldPath (start.table.holder ty) name = some path →
          start.table.HasField last name) := by
  -- one dereference is enough: a pointer to a pointer has no fields
  have hplain : start.table.pointerElem (start.table.holder ty) = none := by
    rw [show p.table.selections[id]? = start.table.selections[id]? from
      hp.table.selections _ h.id] at hselection
    rw [hp.table.exprTypes _ (h.operand x rfl)] at htype
    unfold SymbolTable.holder
    cases helem : start.table.pointerElem ty with
    | none => exact helem
    | some elem => exact h.direct hselection ty elem htype helem
  have hpromotion : promotion p.table (some ty) name =
      (start.table.fieldPath (start.table.holder ty) name).getD [] := by
    simp only [promotion, Option.bind_some, hp.grown.pointerElem,
      hp.grown.fieldPath, SymbolTable.holder]
  rw [hpromotion]
  apply (leaves_deref_reaches hp (h.reaches hp rfl htype hsound)).bind
  intro x' q hq hreaches
  cases hpath : start.table.fieldPath (start.table.holder ty) name with
  | none =>
    refine .pure ⟨_, hreaches, ?_, ?_⟩
    · rw [SymbolTable.implicitDeref, hplain, hpath]
      rfl
    · rintro path ⟨⟩
  | some path =>
    rcases SymbolTable.hasField_of_fieldPath hpath with ⟨last, hpromotes, hname⟩
    have hsame : start.table.holder (start.table.holder ty) = start.table.holder ty :=
      congrArg (Option.getD · _) hplain
    rw [← hsame] at hreaches
    apply (leaves_follow_reaches (hp.trans hq) hreaches hpromotes hname).mono
    rintro e r _ ⟨last, hlast, hfield⟩
    exact ⟨last, hlast, SymbolTable.implicitDeref_of_hasField hfield, fun _ _ => hfield⟩

theorem Suits.leaves_expose (h : Suits start e) (hp : start.Evolves .bare p)
    (himplicit : e.derefsImplicitly p.table = true)
    (hinner : AllSound start.ids.count p e.innerNodes) :
    Leaves .bare env p (expose e) (fun e' q => Changes start e e' q) := by
  cases e with
  | index id x i =>
    rcases List.forall_mem_append.mp hinner with ⟨hx, hi⟩
    refine (h.leaves_derefArray hp rfl himplicit hx).bind fun x' q hq hx' => .pure ?_
    exact {
      id := rfl
      isType := rfl
      restored := by rw [Expr.transform, Expr.transform, hx'.1]
      sound := List.forall_mem_cons.mpr ⟨fun r hr => ⟨h.id, hx'.2.2 r hr⟩,
        List.forall_mem_append.mpr ⟨hx'.2.1, AllSound.mono hi hq⟩⟩ }
  | slice id x low high max =>
    have hinner' : AllSound start.ids.count p
        (x.nodes ++ (OptExpr.nodes low ++ OptExpr.nodes high ++ OptExpr.nodes max)) := by
      rw [← List.append_assoc, ← List.append_assoc]
      exact hinner
    rcases List.forall_mem_append.mp hinner' with ⟨hx, hbounds⟩
    refine (h.leaves_derefArray hp rfl himplicit hx).bind fun x' q hq hx' => .pure ?_
    refine {
      id := rfl
      isType := rfl
      restored := by rw [Expr.transform, Expr.transform, hx'.1]
      sound := List.forall_mem_cons.mpr ⟨fun r hr => ⟨h.id, hx'.2.2 r hr⟩, ?_⟩ }
    rw [List.append_assoc, List.append_assoc, ← List.append_assoc (OptExpr.nodes low)]
    exact List.forall_mem_append.mpr ⟨hx'.2.1, AllSound.mono hbounds hq⟩
  | selector id x name =>
    rcases Bool.and_eq_true_iff.mp himplicit with ⟨hselection, hknown⟩
    cases htype : p.table.exprTypes[x.id]? with
    | none =>
      rw [htype] at hknown
      cases hknown
    | some ty =>
      refine .look (PassM.exec_getTable env p) (.look (PassM.exec_typeOf x env p) ?_)
      rw [htype, ← bind_assoc]
      apply (h.leaves_derefField hp (beq_iff_eq.mp hselection) htype hinner).bind
      rintro x' q hq ⟨last, hreaches, hexplicit, hfield⟩
      refine .pure {
        id := rfl
        isType := rfl
        restored := by rw [Expr.transform, Expr.transform, hreaches.restored]
        sound := List.forall_mem_cons.mpr ⟨fun r hr => ?_, hreaches.sound⟩ }
      have hgrown := (hp.trans (hq.trans hr)).grown
      have hlast : r.table.exprTypes[x'.id]? = some last :=
        (hr.table.exprTypes _ hreaches.below).trans hreaches.type
      constructor
      -- the selection itself is not new, so only the way to its field is asked for
      · refine ⟨fun hnew => absurd h.id hnew, fun _ _ ty' path htype' hpath => ?_⟩
        have hbelow := PassM.below_mono hp.toGrows (h.operand x rfl)
        rw [hreaches.origin, (hq.trans hr).table.exprTypes _ hbelow, htype] at htype'
        cases htype'
        rw [hgrown.fieldPath, SymbolTable.holder,
          hgrown.pointerElem] at hpath
        exact ⟨last, hlast, hasField_of_grown hgrown (hfield path hpath)⟩
      · apply not_derefsImplicitly_selector hlast
        rw [hgrown.implicitDeref, hexplicit]
  | _ => cases himplicit

theorem Suits.leaves_expr (h : Suits start e) (hp : start.Evolves .bare p)
    (hinner : AllSound start.ids.count p e.innerNodes) :
    Leaves .bare env p (transformer.expr e) (fun e' q => Changes start e e' q) := by
  apply (leaves_isImplicit e).bind
  rintro found q hq ⟨rfl, hexact⟩
  have hfound := hexact h.value
  cases found with
  | true =>
    have hcount : q.Evolves .bare _ := .counted q
    refine .step (PassM.exec_countChange env q) hcount ?_
    exact h.leaves_expose (hp.trans hcount) hfound (hinner.mono hcount)
  | false =>
    refine .pure { id := rfl, isType := rfl, restored := rfl, sound := ?_ }
    rw [e.nodes_eq]
    refine List.forall_mem_cons.mpr ⟨fun r hr => ⟨h.recorded r.table, ?_⟩, hinner⟩
    exact (h.derefsImplicitly_eq hp hr).trans hfound

end Dereference

/-!
## Walks
-/

open PassM (Rests)

section

variable {env : PassEnv} {table : SymbolTable}

theorem PassM.Rests.within {α : Type} {m : PassM α} {a : α} (h : Rests env table m a)
    (node : NodeId) : Rests env table (PassM.within node m) a := by
  intro p hp
  have hwithin : (PassM.Logic.rests env).ensures p (PassM.within node m) (fun b _ => b = a) := by
    apply (PassM.Logic.rests env).within (fun _ _ _ _ hb => hb)
    rintro _ ⟨scopes, rfl⟩
    rcases h { p with scopes := scopes } hp with ⟨scopes', hexec⟩
    exact ⟨a, scopes', hexec, rfl⟩
  rcases hwithin with ⟨_, scopes, hexec, rfl⟩
  exact ⟨scopes, hexec⟩

theorem Parts.rests {t : Transformer} {fs : List Form} {old new : Parts fs}
    (h : Parts.All₂ (fun f x x' => Rests env table (f.transform t x') x) fs old new) :
    Rests env table (Parts.transform t fs new) old := by
  induction fs with
  | nil => exact .pure ()
  | cons f fs ih =>
    refine h.1.bind (.bind ?_ (.pure old))
    unfold Form.around
    split
    · exact (ih h.2).within _
    · exact ih h.2

end

namespace Dereference

def Fits (start : Pass) : Node → Prop
  | .expr e => e.id.Below start.ids.count ∧ e.Direct start.table ∧ e.OnValue
  | _ => True

theorem Suits.of_fits {start : Pass} {e : Expr} (h : ∀ n ∈ e.nodes, Fits start n) :
    Suits start e := by
  have hself : Fits start (.expr e) := h _ (by rw [e.nodes_eq]; exact .head _)
  refine ⟨hself.1, fun x hx => ?_, hself.2.1, hself.2.2⟩
  have hmem : Node.expr x ∈ e.nodes := by
    cases e with
    | index | slice | selector =>
      cases hx
      simp [Expr.nodes, Expr.nodes_eq x]
    | _ => cases hx
  exact (h _ hmem).1

def SameHead : (f : Form) → f.Tree → f.Tree → Prop
  | .expr, e, e' => e'.id = e.id ∧ e'.isType = e.isType
  | _, _, _ => True

variable {env : PassEnv} {start p q : Pass}

theorem Suits.make {x : Expr} (h : Suits start x) {new : Parts (Form.expr.makeup x).forms}
    (hnew : Parts.All₂ SameHead _ (Form.expr.makeup x).parts new) :
    Suits start ((Form.expr.makeup x).make new) := by
  rcases h with ⟨hid, hoperand, hdirect, hvalue⟩
  cases x with
  | index id x i | slice id x low high max =>
    refine ⟨hid, ?_, trivial, hnew.1.2.trans hvalue⟩
    rintro _ ⟨⟩
    exact hnew.1.1 ▸ hoperand x rfl
  | selector id x name =>
    have hsame : new.1.id = x.id := hnew.1.1
    refine ⟨hid, ?_, ?_, trivial⟩
    · rintro _ ⟨⟩
      exact hsame ▸ hoperand x rfl
    · intro hselection ty elem htype
      rw [hsame] at htype
      exact hdirect hselection ty elem htype
  | _ =>
    refine ⟨hid, ?_, trivial, trivial⟩
    rintro _ ⟨⟩

/-- What becomes of syntax: without what was put in it is the same, and all its nodes are
sound. -/
structure Exposed (start : Pass) (f : Form) (x x' : f.Tree) (q : Pass) : Prop where
  restored : ∀ env table, Rests env table (f.transform (remover start.ids.count) x') x
  tagless : f.Holds (fun _ => True) x'
  head : SameHead f x x'
  sound : AllSound start.ids.count q (f.nodes x')

theorem rests_hook (f : Form) {x : f.Tree} (h : f.Holds (Fits start) x) (table : SymbolTable) :
    Rests env table (f.hook (remover start.ids.count) x) x := by
  cases f with
  | expr => exact .pure_of_eq (shed_of_below (Suits.of_fits h).id)
  | missingTag listed id init clauses => exact .pure_of_eq h.1.symm
  | _ => exact .pure x

theorem sound_own {f : Form} {x : f.Tree} {n : Node} (hexpr : f ≠ .expr)
    (htag : ∀ listed id init clauses, f ≠ .missingTag listed id init clauses) (h : n ∈ f.own x)
    (table : SymbolTable) : Sound start.ids.count table n := by
  cases n with
  | expr e =>
    cases f with
    | expr => exact absurd rfl hexpr
    | missingTag listed id init clauses => exact absurd rfl (htag listed id init clauses)
    | stmt listed => cases listed <;> simp [Form.own, Stmt.node] at h
    | topDecl => cases x <;> simp [Form.own] at h
    | _ => simp [Form.own] at h
  | _ => trivial

theorem Exposed.parts {fs : List Form} {old new : Parts fs}
    (h : Parts.Chain (Pass.Evolves .bare)
      (fun f x x' _ q => Exposed start f x x' q) fs old new p q) :
    Parts.All (fun f y => f.Holds (fun _ => True) y) fs new ∧
      AllSound start.ids.count q (Parts.nodes fs new) := by
  have hall := (h.all (fun hpq hqr => hpq.trans hqr)
    (P := fun q f y => f.Holds (fun _ => True) y ∧ AllSound start.ids.count q (f.nodes y))
    (fun hpq hy => ⟨hy.1, hy.2.mono hpq⟩) (fun _ _ _ _ _ hx => ⟨hx.tagless, hx.sound⟩)).2
  exact ⟨hall.mono fun _ _ hy => hy.1, Parts.forall_collect_iff.mpr (hall.mono fun _ _ hy => hy.2)⟩

theorem walks : transformer.Walks (.leaves .bare env)
    (fun f x p => start.Evolves .bare p ∧ f.Holds (Fits start) x)
    (fun f x x' _ q => Exposed start f x x' q) where
  pre_mono hpq hpre := ⟨hpre.1.trans hpq, hpre.2⟩
  earlier _ _ hpost := hpost
  later hqr hpost := { hpost with sound := hpost.sound.mono hqr }
  parts hpre := hpre.2.parts.mono fun _ _ hy => ⟨hpre.1, hy⟩
  hook := by
    rintro f x p q new ⟨hp, hfits⟩ hpq hchain
    rcases Exposed.parts hchain with ⟨htagless, hsound⟩
    -- the remover meets the made node only after it has restored the parts
    have hrestored : ∀ env table, Rests env table
        (f.transform (remover start.ids.count) ((f.makeup x).make new)) x := by
      intro env table
      rw [Form.transform_make _ f x new htagless]
      refine (Parts.rests (hchain.all₂ fun _ _ _ _ _ hx => hx.restored env table)).bind ?_
      rw [f.make_parts]
      exact rests_hook f hfits table
    have hperm := f.nodes_make x new
    cases f with
    | expr =>
      -- the hook sees the node with its parts already exposed, so `x` itself does not do
      have hsuits := (Suits.of_fits hfits).make (hchain.all₂ fun _ _ _ _ _ hx => hx.head)
      rw [Form.nodes, Expr.nodes_eq] at hperm
      have hinner : AllSound start.ids.count q ((Form.expr.makeup x).make new).innerNodes :=
        fun n hn => hsound n (hperm.cons_inv.mem_iff.mp hn)
      apply (hsuits.leaves_expr (hp.trans hpq) hinner).mono
      intro e r _ he
      have hhead :
          SameHead .expr x ((Form.expr.makeup x).make new) := by cases x <;> exact ⟨rfl, rfl⟩
      exact {
        restored := fun env table => by
          rw [Form.transform, he.restored]
          exact hrestored env table
        tagless := fun _ _ => trivial
        head := ⟨he.id.trans hhead.1, he.isType.trans hhead.2⟩
        sound := he.sound }
    | missingTag listed id init clauses =>
      rcases hfits with ⟨rfl, _⟩
      change Leaves .bare env q (pure none) _
      refine .pure ⟨hrestored, ⟨rfl, trivial⟩, trivial, ?_⟩
      rintro n ⟨⟩
    | _ =>
      change Leaves .bare env q (pure _) _
      refine .pure ⟨hrestored, fun _ _ => trivial, trivial, fun n hn => ?_⟩
      rcases List.mem_append.mp (hperm.mem_iff.mp hn) with hown | hpart
      · exact fun r _ => sound_own (by simp) (by simp) hown r.table
      · exact hsound n hpart

theorem leaves_run (h : ∀ n ∈ p.file.nodes, Fits p n) :
    Leaves .bare env p transformer.run (fun _ q => Exposed p .file p.file q.file q) := by
  have hstart : p.Evolves .bare { p with scopes := .empty, changes := 0 } :=
    .of_same_record rfl rfl rfl
  refine .step (PassM.exec_startWalk env p) hstart ?_
  refine .look (PassM.exec_getFile env _) ?_
  refine Ends.bind (walks.ensures .file p.file ⟨hstart, h⟩) fun file q hq hfile => ?_
  have hset : q.Evolves .bare { q with file := file } := .of_same_record rfl rfl rfl
  refine .step (PassM.exec_setFile file env q) hset ?_
  exact .look (PassM.exec_get env _) (.pure { hfile with sound := hfile.sound.mono hset })

/-- Pointers are followed explicitly in all accesses once dereferences are put in.  What is put
in are dereferences of pointers and selections of fields that the operands have, recorded with
their types; where there is a way to the field of a selection, its operand comes to have the
field.  What is known of the nodes of the file stays, and without the new nodes the file is the
same again. -/
theorem insertion_exact {n : Nat}
    (hdrawn : ∀ e, .expr e ∈ p.file.nodes → e.id.Below p.ids.count)
    (hvalue : ∀ e, .expr e ∈ p.file.nodes → e.OnValue)
    (hdirect : ∀ e, .expr e ∈ p.file.nodes → e.Direct p.table)
    (hrun : Rule.explicitDeref.apply.exec env p = (.ok n, q)) :
    q.file.check q.table [.explicitDeref] = [] ∧
    (∀ e, .expr e ∈ q.file.nodes → Recorded p.ids.count q.table e) ∧
    (∀ id : NodeId, id.Below p.ids.count → q.table.exprTypes[id]? = p.table.exprTypes[id]? ∧
      q.table.selections[id]? = p.table.selections[id]?) ∧
    q.table.types = p.table.types ∧
    ∀ env' r, ((q.file.transform (remover p.ids.count)).exec env' r).1 = .ok p.file := by
  have hfits : ∀ n ∈ p.file.nodes, Fits p n := by
    intro n hn
    cases n with
    | expr e => exact ⟨hdrawn e hn, hdirect e hn, hvalue e hn⟩
    | _ => trivial
  rcases (leaves_run hfits).of_ok hrun with ⟨hq, hexposed⟩
  have hsound : ∀ n ∈ q.file.nodes, Sound p.ids.count q.table n :=
    fun n hn => hexposed.sound n hn q (.refl q)
  refine ⟨?_, fun e he => (hsound _ he).1, ?_, hq.types, ?_⟩
  · have hviolations : Property.explicitDeref.violations q.file q.table = [] := by
      rw [Property.violations, Property.violationsAt_eq_nil_iff]
      intro n hn
      cases n with
      | expr e => exact (hsound _ hn).2
      | _ => rfl
    rw [File.check, List.flatMap_singleton, hviolations]
  · exact fun id hid => ⟨hq.table.exprTypes id hid, hq.table.selections id hid⟩
  · intro env' r
    rcases hexposed.restored env' r.table r rfl with ⟨scopes, hexec⟩
    exact congrArg Prod.fst hexec

end Dereference

/-- A variable of the package that takes its value from a field of an operand. -/
def countFile (operand : Expr) : File :=
  ⟨⟨0⟩, "main", "", [], [.decl ⟨⟨1⟩, .var,
    [.value ⟨⟨2⟩, [⟨⟨3⟩, "n"⟩], none, [.selector ⟨4⟩ operand "count"]⟩]⟩]⟩

/-- The operand is a pointer to a struct that embeds a pointer to the struct of the field. -/
def countPass : Pass where
  file := countFile (.ident ⟨5⟩ "o")
  table := { SymbolTable.empty with
    types := #[.basic .int, .struct [⟨"count", ⟨0⟩, false⟩], .pointer ⟨1⟩,
      .struct [⟨"Inner", ⟨2⟩, true⟩], .pointer ⟨3⟩]
    exprTypes := (∅ : NodeMap TypeId).insert ⟨5⟩ ⟨4⟩
    selections := (∅ : NodeMap Selection).insert ⟨4⟩ .field }
  ids := ⟨6⟩
  diagnostics := []
  scopes := .empty
  changes := 0
  applications := 0

theorem countPass_exposed :
    ∃ q, Rule.explicitDeref.apply.exec ⟨"explicit-deref", default, "tmp"⟩ countPass = (.ok 1, q) ∧
      q.file = countFile
        (.star ⟨8⟩ (.selector ⟨7⟩ (.star ⟨6⟩ (.ident ⟨5⟩ "o")) "Inner")) ∧
      q.file.check q.table [.explicitDeref] = [] ∧
      ∀ env r, ((q.file.transform (Dereference.remover 6)).exec env r).1 = .ok countPass.file := by
  have hrun : ∃ q, Rule.explicitDeref.apply.exec ⟨"explicit-deref", default, "tmp"⟩ countPass =
      (.ok 1, q) ∧ q.file = countFile
        (.star ⟨8⟩ (.selector ⟨7⟩ (.star ⟨6⟩ (.ident ⟨5⟩ "o")) "Inner")) := ⟨_, rfl, rfl⟩
  rcases hrun with ⟨q, hrun, hfile⟩
  have hnodes : ∀ e, .expr e ∈ countPass.file.nodes →
      e = .selector ⟨4⟩ (.ident ⟨5⟩ "o") "count" ∨ e = .ident ⟨5⟩ "o" := by
    simp [countPass, countFile, File.nodes, TopDecl.nodes, Decl.nodes, Specs.nodes, Exprs.nodes,
      Expr.nodes]
  rcases Dereference.insertion_exact
    (fun e he => by rcases hnodes e he with rfl | rfl <;> exact Nat.le_of_ble_eq_true rfl)
    (fun e he => by rcases hnodes e he with rfl | rfl <;> trivial)
    (fun e he => by
      rcases hnodes e he with rfl | rfl
      · intro _ ty elem htype helem
        cases htype
        cases helem
        rfl
      · trivial) hrun with ⟨hcheck, _, _, _, hrestored⟩
  exact ⟨q, hrun, hfile, hcheck, hrestored⟩

end Desugar
