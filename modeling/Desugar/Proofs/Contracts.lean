import Desugar.Proofs.Settlement

/-!
# Contracts of rules

A rule finds the traits of the rules before it and adds its own.  Most of its
hooks do nothing, and then the trait has to come for free; the contract of a
rule is built from what its other hooks do.
-/

namespace Desugar

open PassM (Yields Ends)
open Node (All AllHave)
open Trait (With)

namespace Trait

theorem onExpr_of_stage {p : Pass} {trait : Trait} {e : Expr} (htrait : 1 < trait.stage) :
    trait.OnExpr p e := by
  cases trait <;> trivial

theorem onFunc_of_stage {p : Pass} {trait : Trait} {fn : Func} (htrait : 0 < trait.stage) :
    trait.OnFunc p fn := by
  cases trait <;> trivial

end Trait

namespace Transformer

variable {t : Transformer} {expected : Fault → Prop} {env : PassEnv} {start : Pass}
  {traits : Trait → Prop} {more : Trait}

def Tagged (traits : Trait → Prop) (start : Pass) (tag : Option Expr) : Prop :=
  traits .taggedSwitch → start.diagnostics = [] → tag.isSome = true

theorem tagged_none {id : NodeId} {init : Option Stmt} {clauses : List CaseClause}
    (h : (Node.stmt (.switch id init none clauses)).Has traits start ∨
      (Node.header (.switch id init none clauses)).Has traits start) :
    Tagged traits start none := by
  intro htagged hdiagnostics
  rcases h with h | h
  · exact h.holds htagged fun _ => hdiagnostics
  · exact h.holds htagged fun _ => hdiagnostics

theorem has_of_tagIs {p : Pass} {s₀ s : Stmt} (hp : start.Grows p)
    (h : (Node.stmt s₀).Has traits start) (hsame : s.face = s₀.face)
    (htag : s.TagIs (Tagged traits start)) : (Node.stmt s).Has traits p := by
  apply (h.mono hp).stmt_of_face_eq hsame
  intro htagged hdiagnostics
  cases s with
  | switch id init tag clauses => exact htag htagged (hp.no_diagnostics hdiagnostics)
  | _ => trivial

theorem has_header_with {p : Pass} {s₀ s : Stmt} (hmore : 0 < more.stage)
    (hsimple : traits .simpleHeaders) (hp : start.Grows p)
    (h : (Node.header s₀).Has traits start) (hsame : s.face = s₀.face) :
    (Node.header s).Has (With traits more) p ∧ s.attached = [] := by
  rcases (h.mono hp).header_of_face_eq hsimple hsame with ⟨hs, hsimple'⟩
  constructor
  · apply hs.with_trait
    intro q _ _
    exact Trait.onStmt_of_isSimple hmore hsimple'
  · exact Stmt.attached_of_isSimple hsimple'

theorem has_func_with {p : Pass} {fn₀ fn : Func} (hmore : 0 < more.stage) (hp : start.Grows p)
    (h : (Node.func fn₀).Has traits start) (hsame : fn.outline = fn₀.outline) :
    (Node.func fn).Has (With traits more) p := by
  apply ((h.mono hp).func_of_outline_eq hsame).with_trait
  intro q _ _
  exact Trait.onFunc_of_stage hmore

theorem isBranch_of_face_eq {s₀ els : Stmt} {id : NodeId} {init : Option Stmt} {cond : Expr}
    {body : Block} (hbranch : traits .branchElse)
    (h : (Node.stmt s₀).Has traits start ∨ (Node.header s₀).Has traits start)
    (hsame : (Stmt.ifElse id init cond body (some els)).face = s₀.face) : els.isBranch = true := by
  have hstage : ¬ 0 < Trait.branchElse.stage := Nat.lt_irrefl 0
  rcases h with h | h
  · have hs := h.holds hbranch fun hpos => absurd hpos hstage
    exact Trait.onStmt_of_face_eq (by decide) hsame hs els rfl
  · have hs := h.holds hbranch fun hpos => absurd hpos hstage
    exact Trait.onStmt_of_face_eq (by decide) hsame hs els rfl

theorem parts_of_isBranch {s : Stmt} (h : s.isBranch = true) : s.deep = s.parts := by
  cases s <;> first | rfl | cases h

/-- What the hook for statements has to do with an else: leave an if or a block
there, and settle it. -/
def BranchHook (t : Transformer) (expected : Fault → Prop) (env : PassEnv) (start : Pass)
    (traits : Trait → Prop) (more : Trait) : Prop :=
  ∀ (p : Pass) (id : NodeId) (init : Option Stmt) (cond : Expr) (body : Block) (els : Stmt),
    start.Grows p → els.isBranch = true → (Node.stmt els).Has traits p →
    AllHave (With traits more) p els.parts →
    Yields expected env p (t.stmt (.ifElse id init cond body (some els)))
      (fun s q => ∃ els', s = .ifElse id init cond body (some els') ∧ els'.isBranch = true ∧
        AllHave (With traits more) q (.stmt els' :: els'.parts))

theorem branchHook_of_pure (hstmt : t.stmt = pure) (hmore : 0 < more.stage)
    (hinit : more ≠ .noControlInit) : BranchHook t expected env start traits more := by
  intro p id init cond body els _ hels hhas hparts
  rw [hstmt]
  apply Ends.pure
  refine ⟨els, rfl, hels, Node.All.cons_iff.mpr ⟨?_, hparts⟩⟩
  apply hhas.with_trait
  intro q _ _
  exact Trait.onStmt_of_isBranch hmore hinit hels

theorem BranchHook.yields (h : BranchHook t expected env start traits more) {p : Pass}
    {s₀ els : Stmt} {id : NodeId} {init : Option Stmt} {cond : Expr} {body : Block}
    {tagged : Option Expr → Prop} (hp : start.Grows p)
    (hsame : (Stmt.ifElse id init cond body (some els)).face = s₀.face)
    (hels : els.isBranch = true) (hhas : (Node.stmt els).Has traits p)
    (hparts : AllHave (With traits more) p
      (OptStmt.headerNodes init ++ cond.nodes ++ body.nodes ++ els.deep)) :
    Yields expected env p (t.stmt (.ifElse id init cond body (some els)))
      (fun s q => s.face = s₀.face ∧ s.TagIs tagged ∧ s.attached = [] ∧
        AllHave (With traits more) q s.deep) := by
  rcases Node.All.append_iff.mp hparts with ⟨hheader, hdeep⟩
  rw [parts_of_isBranch hels] at hdeep
  apply (h p id init cond body els hp hels hhas hdeep).mono
  rintro s q hq ⟨els', rfl, hels', hall⟩
  refine ⟨?_, trivial, rfl, ?_⟩
  · rw [← hsame]
    simp only [Stmt.face, Option.map_some, Stmt.elseFace, hels, hels']
  · exact Node.All.append_iff.mpr ⟨Node.Has.all_mono hq hheader, hall⟩

/-!
## Rules that change statement lists
-/

def TopHas (traits : Trait → Prop) (p : Pass) (n : Node) : Prop :=
  ∀ d : Decl, n = .decl d true → n.Has traits p

/-- The contract of a rule that works on statement lists.  The declarations of
the package already have its trait. -/
abbrev ListContract (t : Transformer) (expected : Fault → Prop) (env : PassEnv) (start : Pass)
    (traits : Trait → Prop) (more : Trait) : Prop :=
  t.Contract expected env start
    (fun n => n.Has traits start)
    (fun d => (Node.decl d true).Has (With traits more) start)
    (fun p n => n.Has traits p ∧ TopHas (With traits more) p n)
    (fun p n => n.Has (With traits more) p)
    (Tagged traits start)

theorem ListContract.of_hooks (hexpr : t.expr = pure) (hdecl : t.decl = pure)
    (htag : t.missingTag = pure none) (hplain : ∀ {s : Stmt}, s.hasElse = false → t.stmt s = pure s)
    (hmore : 1 < more.stage) (hsimple : traits .simpleHeaders) (hbranchElse : traits .branchElse)
    (hbranch : BranchHook t expected env start traits more)
    (hlist : ∀ {p : Pass} {owner : NodeId} {stmts : List Stmt}, start.Grows p →
      (∀ s ∈ stmts, AllHave traits p s.own ∧
        AllHave (With traits more) p s.deep) →
      Yields expected env p (t.list owner stmts)
        (fun stmts' q => Stmts.Settled (With traits more) q stmts')) :
    ListContract t expected env start traits more where
  fit_mono hgrows h := ⟨h.1.mono hgrows, fun d hd => (h.2 d hd).mono hgrows⟩
  after_mono hgrows h := h.mono hgrows
  expr := by
    intro p e₀ e hp hbefore hsame hinner
    rw [hexpr]
    apply Ends.pure
    refine ⟨Expr.face_eq_of_outline_eq hsame, ?_⟩
    rw [e.nodes_eq]
    refine Node.All.cons_iff.mpr ⟨?_, hinner⟩
    apply ((hbefore.mono hp).expr_of_outline_eq hsame).with_trait
    intro q _ _
    exact Trait.onExpr_of_stage hmore
  decl := by
    intro p d₀ d top hp hbefore htop hsame hspecs
    rw [hdecl]
    apply Ends.pure
    refine ⟨?_, ?_, ⟨(hbefore.mono hp).decl_of_outline_eq hsame, ?_⟩, hspecs⟩
    · exact Decl.id_eq_of_outline_eq hsame
    · exact Decl.kind_eq_of_outline_eq hsame
    · intro d' hd'
      cases hd'
      exact ((htop rfl).mono hp).decl_of_outline_eq hsame
  top := by
    intro p d _ hfit
    exact hfit.2 d rfl
  stmt := hplain
  branch := by
    intro p s₀ id init cond body els hp hbefore hsame hparts hfit
    exact hbranch.yields hp hsame (isBranch_of_face_eq hbranchElse hbefore hsame)
      (hfit _ (.head _)).1 hparts
  list := by
    intro p owner stmts hp hstmts
    apply hlist hp
    intro s hs
    rcases hstmts s hs with ⟨hfit, hdeep⟩
    exact ⟨fun n hn => (hfit n hn).1, hdeep⟩
  tag := by
    intro p id init clauses _ hbefore
    rw [htag]
    exact .pure ⟨tagged_none hbefore, .nil⟩
  tagged_some _ _ _ := rfl
  keep := by
    intro p s₀ s hp hbefore hsame htag'
    refine ⟨has_of_tagIs hp hbefore hsame htag', ?_⟩
    intro d hd
    cases hd
  header hp hbefore hsame := has_header_with (Nat.lt_of_succ_lt hmore) hsimple hp hbefore hsame
  block _ := .of_block_node
  func hp hbefore hsame := has_func_with (Nat.lt_of_succ_lt hmore) hp hbefore hsame

theorem yields_splice_all {good : Pass → Node → Prop}
    (hmono : ∀ {p q : Pass} {n : Node}, p.Grows q → good p n → good q n)
    {replace : Stmt → PassM (Option (List Stmt))} {p : Pass} (stmts : List Stmt)
    (h : ∀ s ∈ stmts, ∀ q, p.Grows q → Yields expected env q (replace s)
      (fun found r => All good r (Stmts.nodes (found.getD [s])))) :
    Yields expected env p (splice replace stmts)
      (fun stmts' q => All good q (Stmts.nodes stmts')) := by
  have hlater : ∀ {q r : Pass} {nodes : List Node}, q.Grows r → All good q nodes →
      All good r nodes := fun hgrows hall n hn => hmono hgrows (hall n hn)
  have happend : ∀ {q : Pass} {first second : List Stmt}, All good q (Stmts.nodes first) →
      All good q (Stmts.nodes second) → All good q (Stmts.nodes (first ++ second)) := by
    intro q first second hfirst hsecond
    rw [Stmts.nodes_append]
    exact Node.All.append_iff.mpr ⟨hfirst, hsecond⟩
  induction stmts generalizing p with
  | nil => exact .pure .nil
  | cons s rest ih =>
    rw [splice]
    apply (h s (.head _) p (.refl p)).bind
    intro found q hq hfound
    have hrest : ∀ r, p.Grows r → Yields expected env r (splice replace rest)
        (fun stmts' u => All good u (Stmts.nodes stmts')) := by
      intro r hr
      apply ih
      intro s' hs' u hu
      exact h s' (.tail _ hs') u (hr.trans hu)
    cases found with
    | none =>
      apply (hrest q hq).bind
      intro rest' r hr hrest'
      have hkept : All good r (Stmts.nodes [s]) := hlater hr hfound
      exact .pure (happend hkept hrest')
    | some stmts' =>
      have hcount : q.Grows _ := .counted q
      refine .step (PassM.exec_countChange env q) hcount ?_
      apply (hrest _ (hq.trans hcount)).bind
      intro rest' r hr hrest'
      exact .pure (happend (hlater (hcount.trans hr) hfound) hrest')

theorem yields_splice {replace : Stmt → PassM (Option (List Stmt))} {p : Pass} (stmts : List Stmt)
    (h : ∀ s ∈ stmts, ∀ q, p.Grows q → Yields expected env q (replace s)
      (fun found r => Stmts.Settled traits r (found.getD [s]))) :
    Yields expected env p (splice replace stmts) (fun stmts' q => Stmts.Settled traits q stmts') :=
  yields_splice_all (fun hgrows h => h.mono hgrows) stmts h

theorem ListContract.of_splice {replace : NodeId → Stmt → PassM (Option (List Stmt))}
    (hexpr : t.expr = pure) (hdecl : t.decl = pure) (htag : t.missingTag = pure none)
    (hlist : t.list = fun owner => splice (replace owner))
    (hplain : ∀ {s : Stmt}, s.hasElse = false → t.stmt s = pure s)
    (hmore : 1 < more.stage) (hsimple : traits .simpleHeaders) (hbranchElse : traits .branchElse)
    (hbranch : BranchHook t expected env start traits more)
    (hreplace : ∀ {p : Pass} {owner : NodeId} {s : Stmt}, start.Grows p → AllHave traits p s.own →
      AllHave (With traits more) p s.deep → Yields expected env p (replace owner s)
        (fun found q => Stmts.Settled (With traits more) q (found.getD [s]))) :
    ListContract t expected env start traits more := by
  apply of_hooks hexpr hdecl htag hplain hmore hsimple hbranchElse hbranch
  intro p owner stmts hp hstmts
  rw [hlist]
  apply yields_splice
  intro s hs q hq
  rcases hstmts s hs with ⟨hown, hdeep⟩
  exact hreplace (hp.trans hq) (Node.Has.all_mono hq hown) (Node.Has.all_mono hq hdeep)

/-!
## Rules that change single nodes
-/

/-- The contract of a rule that works on expressions, on declarations or on the
tags of switches. -/
abbrev NodeContract (t : Transformer) (expected : Fault → Prop) (env : PassEnv) (start : Pass)
    (before : Node → Prop) (traits : Trait → Prop) (more : Trait) : Prop :=
  t.Contract expected env start before (fun _ => True)
    (fun p n => n.Has (With traits more) p)
    (fun p n => n.Has (With traits more) p)
    (Tagged (With traits more) start)

theorem NodeContract.of_hooks {before : Node → Prop} (hstmt : t.stmt = pure)
    (hlist : t.list = fun _ stmts => pure stmts)
    (hmore : 0 < more.stage) (hinit : more ≠ .noControlInit)
    (hsimple : traits .simpleHeaders) (hbranchElse : traits .branchElse)
    (hbefore : ∀ n, before n → n.Has traits start)
    (hkeep : ∀ (q : Pass) (s : Stmt), s.TagIs (fun tag => tag.isSome = true) ∨
      more ≠ .taggedSwitch → more.OnStmt q false s)
    (hexpr : ∀ {p : Pass} {e₀ e : Expr}, start.Grows p → before (.expr e₀) →
      e.outline = e₀.outline → AllHave (With traits more) p e.innerNodes →
      Yields expected env p (t.expr e) (fun e' q => e'.face = e₀.face ∧
        AllHave (With traits more) q e'.nodes))
    (hdecl : ∀ {p : Pass} {d₀ d : Decl} {top : Bool}, start.Grows p → before (.decl d₀ top) →
      d.outline = d₀.outline →
      AllHave (With traits more) p (Specs.nodes d.specs) →
      Yields expected env p (t.decl d) (fun d' q => d'.id = d₀.id ∧ d'.kind = d₀.kind ∧
        (Node.decl d' top).Has (With traits more) q ∧
        AllHave (With traits more) q (Specs.nodes d'.specs)))
    (htag : ∀ {p : Pass} {id : NodeId} {init : Option Stmt} {clauses : List CaseClause},
      start.Grows p → before (.stmt (.switch id init none clauses)) ∨
        before (.header (.switch id init none clauses)) →
      Yields expected env p t.missingTag (fun tag q => Tagged (With traits more) start tag ∧
        AllHave (With traits more) q (OptExpr.nodes tag))) :
    NodeContract t expected env start before traits more where
  fit_mono hgrows h := h.mono hgrows
  after_mono hgrows h := h.mono hgrows
  expr := hexpr
  decl hp hself _ := hdecl hp hself
  top _ hfit := hfit
  stmt _ := congrFun hstmt _
  branch := by
    intro p s₀ id init cond body els hp hself hsame hparts hfit
    have hown : (Node.stmt s₀).Has traits start ∨ (Node.header s₀).Has traits start :=
      hself.imp (hbefore _) (hbefore _)
    have hhook : BranchHook t expected env start traits more :=
      branchHook_of_pure hstmt hmore hinit
    exact hhook.yields hp hsame
      (isBranch_of_face_eq hbranchElse hown hsame) (hfit _ (.head _)).of_with hparts
  list := by
    intro p owner stmts _ hstmts
    rw [hlist]
    apply Ends.pure
    apply Stmts.Settled.of_mem
    intro s hs
    exact .of_own (hstmts s hs).1 (hstmts s hs).2
  tag := htag
  tagged_some _ _ _ := rfl
  keep := by
    intro p s₀ s hp hself hsame htag'
    have hs : (Node.stmt s).Has traits p := by
      apply has_of_tagIs hp (hbefore _ hself) hsame
      cases s with
      | switch id init tag clauses => exact fun htagged => htag' (.inl htagged)
      | _ => trivial
    apply hs.with_trait
    intro q hq hdiagnostics
    apply hkeep
    by_cases hswitch : more = .taggedSwitch
    · left
      cases s with
      | switch id init tag clauses =>
        exact htag' (.inr hswitch.symm) ((hp.trans hq).no_diagnostics (hdiagnostics hmore))
      | _ => trivial
    · exact .inr hswitch
  header hp hself hsame := has_header_with hmore hsimple hp (hbefore _ hself) hsame
  block _ := .of_block_node
  func hp hself hsame := has_func_with hmore hp (hbefore _ hself) hsame

theorem yields_expr_of_pure (hexpr : t.expr = pure) {p : Pass} {e₀ e : Expr}
    (hmore : ∀ q : Pass, more.OnExpr q e) (hp : start.Grows p)
    (hself : (Node.expr e₀).Has traits start) (hsame : e.outline = e₀.outline)
    (hinner : AllHave (With traits more) p e.innerNodes) :
    Yields expected env p (t.expr e) (fun e' q => e'.face = e₀.face ∧
      AllHave (With traits more) q e'.nodes) := by
  rw [hexpr]
  apply Ends.pure
  refine ⟨Expr.face_eq_of_outline_eq hsame, ?_⟩
  rw [e.nodes_eq]
  refine Node.All.cons_iff.mpr ⟨?_, hinner⟩
  exact ((hself.mono hp).expr_of_outline_eq hsame).with_trait fun q _ _ => hmore q

theorem yields_decl_of_pure (hdecl : t.decl = pure) {p : Pass} {d₀ d : Decl} {top : Bool}
    (hmore : ∀ q : Pass, more.OnDecl q d) (hp : start.Grows p)
    (hself : (Node.decl d₀ top).Has traits start) (hsame : d.outline = d₀.outline)
    (hspecs : AllHave (With traits more) p (Specs.nodes d.specs)) :
    Yields expected env p (t.decl d) (fun d' q => d'.id = d₀.id ∧ d'.kind = d₀.kind ∧
      (Node.decl d' top).Has (With traits more) q ∧
      AllHave (With traits more) q (Specs.nodes d'.specs)) := by
  rw [hdecl]
  apply Ends.pure
  refine ⟨Decl.id_eq_of_outline_eq hsame, Decl.kind_eq_of_outline_eq hsame, ?_, hspecs⟩
  exact ((hself.mono hp).decl_of_outline_eq hsame).with_trait fun q _ _ => hmore q

theorem yields_tag_of_pure (htag : t.missingTag = pure none) (hmore : more ≠ .taggedSwitch)
    {p : Pass} {id : NodeId} {init : Option Stmt} {clauses : List CaseClause}
    (hself : (Node.stmt (.switch id init none clauses)).Has traits start ∨
      (Node.header (.switch id init none clauses)).Has traits start) :
    Yields expected env p t.missingTag (fun tag q => Tagged (With traits more) start tag ∧
      AllHave (With traits more) q (OptExpr.nodes tag)) := by
  rw [htag]
  apply Ends.pure
  refine ⟨?_, .nil⟩
  intro htagged
  rcases htagged with htagged | heq
  · exact tagged_none hself htagged
  · exact absurd heq.symm hmore

end Transformer
end Desugar
