import Desugar.Proofs.Construction
import Desugar.Proofs.Traits

/-!
# Settled statement lists

A statement list is settled when all its nodes have the traits in question.
Here stands what settles the pieces that rules put together: new expressions,
new statements, labels, and statements that are kept as they are.
-/

namespace Desugar

open PassM (IsVarOf Obtains Ends)
open Node (All AllHave)

namespace Expr

/-- The expressions of which no trait tells more than that their identity has
been drawn. -/
def isPlain : Expr → Bool
  | .index _ _ _ | .slice _ _ _ _ _ | .selector _ _ _ | .funcLit _ _ _ => false
  | _ => true

end Expr

/-- Statements of which no trait tells more than that their identities have been
drawn. -/
def Stmt.isPlain : Stmt → Bool
  | .labeled _ _ _ | .branch _ _ _ | .block _ _ | .decl _ _ => true
  | .forLoop _ none _ none _ => true
  | _ => false

namespace Node.Has

variable {traits : Trait → Prop} {p : Pass}

theorem of_isPlain {e : Expr} (hplain : e.isPlain = true) (hid : e.id.Below p.ids.count) :
    (Node.expr e).Has traits p := by
  apply of_forall
  intro q hq trait _
  have hbelow := PassM.below_mono hq hid
  cases trait with
  | bounded =>
    intro id hmem
    have hshown : e.shownIds = [e.id] := by cases e <;> first | rfl | cases hplain
    rw [hshown, List.mem_singleton] at hmem
    rw [hmem]
    exact hbelow
  | valueOperands | explicitDeref => cases e <;> trivial
  | _ => trivial

theorem of_isPlain_stmt {s : Stmt} (hplain : s.isPlain = true)
    (hids : ∀ id ∈ s.shownIds, id.Below p.ids.count) : (Node.stmt s).Has traits p := by
  apply of_forall
  intro q hq trait _
  unfold Stmt.isPlain at hplain
  cases trait with
  | bounded => exact fun id hid => PassM.below_mono hq (hids id hid)
  | simpleHeaders =>
    intro hheader
    cases hheader
  | noShortDecl => split at hplain <;> first | exact fun _ => rfl | cases hplain
  | noControlInit | conditionLoop => split at hplain <;> first | rfl | cases hplain
  | _ => split at hplain <;> trivial

theorem of_labeled {id : NodeId} {label : String} {s : Stmt} (hid : id.Below p.ids.count) :
    (Node.stmt (.labeled id label s)).Has traits p :=
  of_isPlain_stmt rfl (List.forall_mem_singleton.mpr hid)

theorem of_branch {id : NodeId} {kind : BranchKind} {label : Option String}
    (hid : id.Below p.ids.count) : (Node.stmt (.branch id kind label)).Has traits p :=
  of_isPlain_stmt rfl (List.forall_mem_singleton.mpr hid)

theorem of_block {id : NodeId} {body : Block} (hid : id.Below p.ids.count)
    (hbody : body.id.Below p.ids.count) : (Node.stmt (.block id body)).Has traits p :=
  of_isPlain_stmt rfl (List.forall_mem_cons.mpr ⟨hid, List.forall_mem_singleton.mpr hbody⟩)

theorem of_decl {id : NodeId} {d : Decl} (hid : id.Below p.ids.count) :
    (Node.stmt (.decl id d)).Has traits p :=
  of_isPlain_stmt rfl (List.forall_mem_singleton.mpr hid)

theorem of_assign {id : NodeId} {lhs rhs : List Expr} (hid : id.Below p.ids.count)
    (hbalanced : rhs.length = lhs.length ∨ rhs.length = 1)
    (hsingle : traits .singleTarget → ¬ (1 < lhs.length ∧ lhs.length = rhs.length)) :
    (Node.stmt (.assign id lhs .assign rhs)).Has traits p := by
  apply of_forall
  intro q hq trait htrait
  cases trait with
  | bounded =>
    intro other hmem
    rw [List.mem_singleton.mp hmem]
    exact PassM.below_mono hq hid
  | simpleHeaders | noShortDecl => exact fun _ => rfl
  | balancedAssign => exact hbalanced
  | noControlInit | conditionLoop => exact rfl
  | singleTarget => exact fun _ => hsingle htrait
  | _ => trivial

theorem of_block_node {b : Block} : (Node.block b).Has traits p :=
  of_forall fun _ _ _ _ => trivial

theorem of_var {id specId : NodeId} {name : Ident} {ty : Option TypeExpr} {values : List Expr}
    {top : Bool} (hid : id.Below p.ids.count) (hspec : specId.Below p.ids.count)
    (hname : name.id.Below p.ids.count) (hty : traits .typedDecl → ty.isSome = true)
    (hvalues : traits .initializedDecl → values ≠ []) :
    (Node.decl ⟨id, .var, [.value ⟨specId, [name], ty, values⟩]⟩ top).Has traits p := by
  apply of_forall
  intro q hq trait htrait
  cases trait with
  | bounded =>
    intro other hmem
    rcases List.mem_cons.mp hmem with rfl | hmem
    · exact PassM.below_mono hq hid
    · rcases List.mem_pair.mp hmem with rfl | rfl
      · exact PassM.below_mono hq hspec
      · exact PassM.below_mono hq hname
  | namedSpecs =>
    intro _ spec hmem
    rw [List.mem_singleton.mp hmem]
    exact List.cons_ne_nil _ _
  | singleName => exact rfl
  | typedDecl =>
    intro _ spec hmem
    rw [List.mem_singleton.mp hmem]
    exact hty htrait
  | initializedDecl =>
    intro _ spec hmem
    rw [List.mem_singleton.mp hmem]
    exact hvalues htrait
  | _ => trivial

end Node.Has

/-!
## Expressions
-/

theorem Exprs.all_of_mem {property : Pass → Node → Prop} {p : Pass} {es : List Expr}
    (h : ∀ e ∈ es, All property p e.nodes) : All property p (Exprs.nodes es) := by
  intro n hn
  rcases (Exprs.mem_nodes_iff es n).mp hn with ⟨e, he, hn'⟩
  exact h e he n hn'

theorem Exprs.all_mem {property : Pass → Node → Prop} {p : Pass} {es : List Expr} {e : Expr}
    (h : All property p (Exprs.nodes es)) (he : e ∈ es) : All property p e.nodes := by
  intro n hn
  exact h n ((Exprs.mem_nodes_iff es n).mpr ⟨e, he, hn⟩)

def Expr.Settled (traits : Trait → Prop) (p : Pass) (e : Expr) : Prop :=
  AllHave traits p e.nodes

namespace Expr.Settled

variable {traits : Trait → Prop} {p q : Pass}

theorem mono {e : Expr} (hgrows : p.Grows q) (h : e.Settled traits p) : e.Settled traits q :=
  Node.Has.all_mono hgrows h

theorem has {e : Expr} (h : e.Settled traits p) : (Node.expr e).Has traits p := by
  apply h
  rw [e.nodes_eq]
  exact .head _

theorem id_below {e : Expr} (hbounded : traits .bounded) (h : e.Settled traits p) :
    e.id.Below p.ids.count := by
  have hshown := h.has.holds hbounded fun hstage => absurd hstage (Nat.lt_irrefl 0)
  exact hshown e.id e.id_mem_shownIds

theorem ident {id : NodeId} {name : String} (hid : id.Below p.ids.count) :
    (Expr.ident id name).Settled traits p :=
  Node.All.cons_iff.mpr ⟨.of_isPlain rfl hid, .nil⟩

theorem lit {id : NodeId} {value : Literal} (hid : id.Below p.ids.count) :
    (Expr.lit id value).Settled traits p :=
  Node.All.cons_iff.mpr ⟨.of_isPlain rfl hid, .nil⟩

theorem star {id : NodeId} {x : Expr} (hid : id.Below p.ids.count) (hx : x.Settled traits p) :
    (Expr.star id x).Settled traits p :=
  Node.All.cons_iff.mpr ⟨.of_isPlain rfl hid, hx⟩

theorem unary {id : NodeId} {op : UnaryOp} {x : Expr} (hid : id.Below p.ids.count)
    (hx : x.Settled traits p) : (Expr.unary id op x).Settled traits p :=
  Node.All.cons_iff.mpr ⟨.of_isPlain rfl hid, hx⟩

theorem zero {id : NodeId} {e : Expr} (hid : id.Below p.ids.count)
    (he : (∃ value, e = .lit id value) ∨ ∃ spelled, e = .composite id (some spelled) []) :
    e.Settled traits p := by
  rcases he with ⟨value, rfl⟩ | ⟨spelled, rfl⟩
  · exact lit hid
  · exact Node.All.cons_iff.mpr ⟨.of_isPlain rfl hid, .nil⟩

end Expr.Settled

/-!
## Lists
-/

def Stmts.Settled (traits : Trait → Prop) (p : Pass) (stmts : List Stmt) : Prop :=
  AllHave traits p (Stmts.nodes stmts)

namespace Stmts.Settled

variable {traits : Trait → Prop} {p q : Pass}

theorem mono {stmts : List Stmt} (hgrows : p.Grows q) (h : Settled traits p stmts) :
    Settled traits q stmts :=
  Node.Has.all_mono hgrows h

theorem nil : Settled traits p [] :=
  Node.All.nil

theorem cons_iff {s : Stmt} {rest : List Stmt} :
    Settled traits p (s :: rest) ↔ (Node.stmt s).Has traits p ∧
      AllHave traits p s.parts ∧ Settled traits p rest := by
  simp [Settled, Stmts.nodes]

theorem append_iff {first second : List Stmt} :
    Settled traits p (first ++ second) ↔ Settled traits p first ∧ Settled traits p second := by
  simp [Settled, Stmts.nodes_append]

theorem singleton_iff {s : Stmt} :
    Settled traits p [s] ↔ (Node.stmt s).Has traits p ∧
      AllHave traits p s.parts := by
  rw [cons_iff]
  exact ⟨fun h => ⟨h.1, h.2.1⟩, fun h => ⟨h.1, h.2, nil⟩⟩

theorem cons {s : Stmt} {rest : List Stmt} (hs : Settled traits p [s])
    (hrest : Settled traits p rest) : Settled traits p (s :: rest) :=
  append_iff.mpr ⟨hs, hrest⟩

theorem of_mem {stmts : List Stmt} (h : ∀ s ∈ stmts, Settled traits p [s]) :
    Settled traits p stmts := by
  induction stmts with
  | nil => exact nil
  | cons s rest ih =>
    apply cons (h s (.head _))
    apply ih
    intro s' hs'
    exact h s' (.tail _ hs')

theorem of_flatten {lists : List (List Stmt)} (h : ∀ stmts ∈ lists, Settled traits p stmts) :
    Settled traits p lists.flatten := by
  induction lists with
  | nil => exact nil
  | cons stmts rest ih =>
    rw [List.flatten_cons]
    apply append_iff.mpr
    constructor
    · exact h stmts (.head _)
    · apply ih
      intro stmts' hstmts'
      exact h stmts' (.tail _ hstmts')

theorem of_flatMap {α : Type} {xs : List α} {f : α → List Stmt}
    (h : ∀ x ∈ xs, Settled traits p (f x)) : Settled traits p (xs.flatMap f) := by
  rw [List.flatMap_def]
  apply of_flatten
  intro stmts hstmts
  rcases List.mem_map.mp hstmts with ⟨x, hx, rfl⟩
  exact h x hx

theorem label {s : Stmt} (labels : List Label) (hlabels : ∀ l ∈ labels, l.id.Below p.ids.count)
    (hs : Settled traits p [s]) : Settled traits p [s.label labels] := by
  induction labels with
  | nil => exact hs
  | cons l rest ih =>
    have hrest : Settled traits p [s.label rest] :=
      ih fun l' hl' => hlabels l' (.tail _ hl')
    apply singleton_iff.mpr
    constructor
    · exact .of_labeled (hlabels l (.head _))
    · exact Node.All.cons_iff.mpr (singleton_iff.mp hrest)

theorem labelFirst {stmts : List Stmt} (labels : List Label)
    (hlabels : ∀ l ∈ labels, l.id.Below p.ids.count) (h : Settled traits p stmts) :
    Settled traits p (Stmts.labelFirst labels stmts) := by
  cases stmts with
  | nil => exact nil
  | cons s rest =>
    rcases cons_iff.mp h with ⟨hs, hparts, hrest⟩
    exact cons (label labels hlabels (singleton_iff.mpr ⟨hs, hparts⟩)) hrest

theorem block {id : NodeId} {body : Block} (hid : id.Below p.ids.count)
    (hbody : body.id.Below p.ids.count) (h : Settled traits p body.stmts) :
    Settled traits p [.block id body] := by
  rcases body with ⟨bodyId, stmts⟩
  apply singleton_iff.mpr
  constructor
  · exact .of_block hid hbody
  · exact Node.All.cons_iff.mpr ⟨.of_block_node, h⟩

theorem assign {id : NodeId} {lhs rhs : List Expr} (hid : id.Below p.ids.count)
    (hbalanced : rhs.length = lhs.length ∨ rhs.length = 1)
    (hsingle : traits .singleTarget → ¬ (1 < lhs.length ∧ lhs.length = rhs.length))
    (hlhs : AllHave traits p (Exprs.nodes lhs))
    (hrhs : AllHave traits p (Exprs.nodes rhs)) :
    Settled traits p [.assign id lhs .assign rhs] := by
  apply singleton_iff.mpr
  constructor
  · exact .of_assign hid hbalanced hsingle
  · exact Node.All.append_iff.mpr ⟨hlhs, hrhs⟩

theorem var {s : Stmt} {specId : NodeId} {name : Ident} {ty : Option TypeExpr}
    {values : List Expr} (hs : IsVarOf (.value ⟨specId, [name], ty, values⟩) s p)
    (hspec : specId.Below p.ids.count) (hname : name.id.Below p.ids.count)
    (hty : traits .typedDecl → ty.isSome = true) (hvalues : traits .initializedDecl → values ≠ [])
    (hnodes : AllHave traits p (Exprs.nodes values)) :
    Settled traits p [s] := by
  rcases hs with ⟨stmtId, declId, rfl, hstmt, hdecl⟩
  apply singleton_iff.mpr
  constructor
  · exact .of_decl hstmt
  · refine Node.All.cons_iff.mpr ⟨?_, ?_⟩
    · exact .of_var hdecl hspec hname hty hvalues
    · exact Node.All.append_iff.mpr ⟨hnodes, .nil⟩

end Stmts.Settled

/-!
## What actions make
-/

theorem PassM.obtains_newUse {env : PassEnv} {p : Pass} {traits : Trait → Prop}
    (binding : BindingId) : Obtains env p (newUse binding) (fun e q => e.Settled traits q) := by
  apply (yields_newUse binding trivial).mono
  rintro e q _ ⟨id, name, rfl, hid, _⟩
  exact .ident hid

theorem PassM.obtains_newVar {env : PassEnv} {p : Pass} {traits : Trait → Prop} {name : Ident}
    {ty : Option TypeExpr} {values : List Expr} (hname : name.id.Below p.ids.count)
    (hty : traits .typedDecl → ty.isSome = true) (hinit : traits .initializedDecl → values ≠ [])
    (hvalues : ∀ e ∈ values, e.Settled traits p) :
    Obtains env p (newVar name ty values) (fun s q => Stmts.Settled traits q [s]) := by
  apply (yields_newVar name ty values trivial).mono
  rintro s q hq ⟨specId, hspec, hs⟩
  exact .var hs hspec (below_mono hq hname) hty hinit
    (Exprs.all_of_mem fun e he => (hvalues e he).mono hq)

namespace PassM.Obtains

variable {α β : Type} {env : PassEnv} {p : Pass} (traits : Trait → Prop) (xs : List α)

theorem exprsOf {f : α → PassM β} (part : β → Expr) (h : ∀ a ∈ xs, ∀ q, p.Grows q →
      Obtains env q (f a) (fun b r => (part b).Settled traits r)) :
    Obtains env p (xs.mapM f) (fun ys q => ∀ b ∈ ys, (part b).Settled traits q) :=
  Ends.mapM_each _ xs (fun _ _ _ hgrows he => he.mono hgrows) h

theorem exprs {f : α → PassM Expr} (h : ∀ a ∈ xs, ∀ q, p.Grows q →
      Obtains env q (f a) (fun e r => e.Settled traits r)) :
    Obtains env p (xs.mapM f) (fun es q => ∀ e ∈ es, e.Settled traits q) :=
  exprsOf traits xs id h

theorem lists {f : α → PassM (List Stmt)} (h : ∀ a ∈ xs, ∀ q, p.Grows q →
      Obtains env q (f a) (fun stmts r => Stmts.Settled traits r stmts)) :
    Obtains env p (xs.mapM f) (fun lists q => Stmts.Settled traits q lists.flatten) :=
  (Ends.mapM_each _ xs (fun _ _ _ hgrows hs => hs.mono hgrows) h).mono
    fun _ _ _ hall => .of_flatten hall

theorem stmts {f : α → PassM Stmt} (h : ∀ a ∈ xs, ∀ q, p.Grows q →
      Obtains env q (f a) (fun s r => Stmts.Settled traits r [s])) :
    Obtains env p (xs.mapM f) (fun stmts q => Stmts.Settled traits q stmts) :=
  (Ends.mapM_each _ xs (fun _ _ _ hgrows hs => hs.mono hgrows) h).mono
    fun _ _ _ hall => .of_mem hall

theorem pairs {f : α → PassM (β × Stmt)} (h : ∀ a ∈ xs, ∀ q, p.Grows q →
      Obtains env q (f a) (fun pair r => Stmts.Settled traits r [pair.2])) :
    Obtains env p (xs.mapM f) (fun pairs q => Stmts.Settled traits q (pairs.map Prod.snd)) := by
  apply (Ends.mapM_each _ xs (fun _ _ _ hgrows hs => hs.mono hgrows) h).mono
  intro pairs q _ hall
  exact .of_mem (List.forall_mem_map.mpr hall)

theorem stmtsAndExprs {f : α → PassM (Stmt × Expr)} (h : ∀ a ∈ xs, ∀ q, p.Grows q →
      Obtains env q (f a) (fun pair r => Stmts.Settled traits r [pair.1] ∧
        pair.2.Settled traits r)) :
    Obtains env p (xs.mapM f) (fun pairs q => Stmts.Settled traits q pairs.unzip.1 ∧
      ∀ e ∈ pairs.unzip.2, e.Settled traits q) := by
  apply (Ends.mapM_each _ xs (fun _ _ _ hgrows hs => ⟨hs.1.mono hgrows, hs.2.mono hgrows⟩) h).mono
  intro pairs q _ hall
  rw [List.unzip_eq_map]
  exact ⟨.of_mem (List.forall_mem_map.mpr fun pair hpair => (hall pair hpair).1),
    List.forall_mem_map.mpr fun pair hpair => (hall pair hpair).2⟩

end PassM.Obtains

/-!
## Labelled statements

A statement list owns its statements together with their labels and the
declarations in them.
-/

namespace Stmt

def own (s : Stmt) : List Node :=
  .stmt s :: s.attached

theorem own_labeled (id : NodeId) (label : String) (s : Stmt) :
    (Stmt.labeled id label s).own = .stmt (.labeled id label s) :: s.own :=
  rfl

theorem own_unlabeled_subset (s : Stmt) : s.unlabeled.own ⊆ s.own := by
  cases s with
  | labeled id label inner =>
    have ih := own_unlabeled_subset inner
    rw [own_labeled]
    exact fun n hn => .tail _ (ih hn)
  | _ => exact fun n hn => hn

theorem mem_own_unlabeled {s : Stmt} {n : Node} (hn : n ∈ s.unlabeled.own) :
    n = .stmt s.unlabeled ∨ ∃ id d, s.unlabeled = .decl id d ∧ n = .decl d false := by
  cases s with
  | labeled id label inner => exact mem_own_unlabeled (s := inner) hn
  | decl id d =>
    rcases List.mem_pair.mp hn with rfl | rfl
    · exact .inl rfl
    · exact .inr ⟨id, d, rfl, rfl⟩
  | _ => exact .inl (List.mem_singleton.mp hn)

theorem deep_unlabeled (s : Stmt) : s.unlabeled.deep = s.deep := by
  cases s with
  | labeled id label inner => exact deep_unlabeled inner
  | _ => rfl

end Stmt

section

variable {traits : Trait → Prop} {p : Pass}

theorem Stmt.labels_below {s : Stmt} (hbounded : traits .bounded)
    (h : AllHave traits p s.own) :
    ∀ l ∈ s.labels, l.id.Below p.ids.count := by
  cases s with
  | labeled id label inner =>
    rcases Node.All.cons_iff.mp h with ⟨hself, hinner⟩
    have ih := Stmt.labels_below hbounded hinner
    intro l hl
    rcases List.mem_cons.mp hl with rfl | hl
    · have hid := hself.holds hbounded (fun hstage => absurd hstage (Nat.lt_irrefl 0))
      exact hid id (.head _)
    · exact ih l hl
  | _ =>
    intro l hl
    cases hl

theorem Trait.onStmt_labeled {p : Pass} {trait : Trait} {id : NodeId} {label : String} {s : Stmt}
    (htrait : 0 < trait.stage) : trait.OnStmt p false (.labeled id label s) := by
  cases trait with
  | bounded | simpleHeaders | branchElse | balancedAssign | singleCompound | narrowHeaders
  | namedSpecs | valueOperands => exact absurd htrait (Nat.lt_irrefl 0)
  | noShortDecl => exact fun _ => rfl
  | noControlInit => exact rfl
  | conditionLoop => exact rfl
  | _ => trivial

theorem Stmt.own_with {s : Stmt} {more : Trait} (hmore : 0 < more.stage)
    (h : AllHave traits p s.own)
    (hunlabeled : AllHave (Trait.With traits more) p s.unlabeled.own) :
    AllHave (Trait.With traits more) p s.own := by
  cases s with
  | labeled id label inner =>
    rcases Node.All.cons_iff.mp h with ⟨hself, hinner⟩
    have ih := Stmt.own_with hmore hinner hunlabeled
    refine Node.All.cons_iff.mpr ⟨hself.with_trait ?_, ih⟩
    intro q _ _
    exact Trait.onStmt_labeled hmore
  | _ => exact hunlabeled

theorem Stmts.Settled.of_own {s : Stmt} (hown : AllHave traits p s.own)
    (hdeep : AllHave traits p s.deep) : Stmts.Settled traits p [s] := by
  intro n hn
  rcases (Stmts.mem_nodes_iff [s] n).mp hn with ⟨s', hs', hn'⟩
  rw [List.mem_singleton.mp hs'] at hn'
  rcases hn' with rfl | hn' | hn'
  · exact hown _ (.head _)
  · exact hown _ (.tail _ hn')
  · exact hdeep _ hn'

theorem Stmts.Settled.keep {s : Stmt} {more : Trait} (hmore : 0 < more.stage)
    (hown : AllHave traits p s.own)
    (hdeep : AllHave (Trait.With traits more) p s.deep)
    (hstmt : ∀ q, p.Grows q → q.diagnostics = [] → more.OnStmt q false s.unlabeled)
    (hdecl : ∀ q id d, q.diagnostics = [] → s.unlabeled = .decl id d → more.OnDecl q d) :
    Stmts.Settled (Trait.With traits more) p [s] := by
  apply Stmts.Settled.of_own _ hdeep
  apply Stmt.own_with hmore hown
  intro n hn
  apply (hown n (s.own_unlabeled_subset hn)).with_trait
  intro q hq hdiagnostics
  rcases Stmt.mem_own_unlabeled hn with rfl | ⟨id, d, hs, rfl⟩
  · exact hstmt q hq (hdiagnostics hmore)
  · exact hdecl q id d (hdiagnostics hmore) hs

end

end Desugar
