import Desugar.Control.Initializer
import Desugar.Control.Tag
import Desugar.Proofs.Contracts

/-!
# Control statements in normal form

Supplying tags leaves no switch without one, and moving initializers into
blocks leaves none in a control statement: not in a statement list, and not
after an else.
-/

namespace Desugar

open PassM (Yields Obtains Ends)
open Node (All AllHave)
open Trait (With)

section

variable {env : PassEnv} {start p : Pass} {traits : Trait → Prop}

/-!
## Tags
-/

namespace SwitchTag

theorem contract (hsimple : traits .simpleHeaders)
    (hbranchElse : traits .branchElse) :
    transformer.NodeContract Fault.any env start (fun n => n.Has traits start) traits
      .taggedSwitch := by
  apply Transformer.NodeContract.of_hooks rfl rfl (by decide) (by decide) hsimple hbranchElse
  · intro n hn
    exact hn
  · intro q s htag
    rcases htag with htag | hne
    · cases s with
      | switch id init tag clauses => exact htag
      | _ => trivial
    · exact absurd rfl hne
  · intro p e₀ e hp hself hsame hinner
    exact Transformer.yields_expr_of_pure rfl (fun _ => trivial) hp hself hsame hinner
  · intro p d₀ d top hp hself hsame hspecs
    exact Transformer.yields_decl_of_pure rfl (fun _ => trivial) hp hself hsame hspecs
  · intro p id init clauses _ _
    apply (PassM.yields_newTrue trivial).bind
    intro tag q _ htag
    rcases htag with ⟨tagId, rfl, htagId⟩
    have hcount : q.Grows _ := .counted q
    refine .step (PassM.exec_countChange env q) hcount (.pure ?_)
    constructor
    · intro _ _
      rfl
    · exact Expr.Settled.lit (PassM.below_mono hcount htagId)

end SwitchTag

/-!
## Initializers
-/

theorem Node.Has.stmt_of_header (hstage : ∀ trait, traits trait → trait.stage < 8) {s : Stmt}
    (h : (Node.header s).Has traits p) : (Node.stmt s).Has traits p := by
  intro q hq trait htrait hdiagnostics
  have hs : trait.OnStmt q true s := h q hq trait htrait hdiagnostics
  have hearly := hstage trait htrait
  show trait.OnStmt q false s
  cases trait with
  | simpleHeaders =>
    intro hheader
    cases hheader
  | noShortDecl | singleTarget | explicitDiscard => exact absurd hearly (by decide)
  | branchElse | balancedAssign | narrowHeaders | taggedSwitch => cases s <;> exact hs
  | singleCompound =>
    cases s with
    | assign id lhs op rhs => cases op <;> exact hs
    | _ => exact hs
  | _ => exact hs

namespace Initializer

theorem yields_enclose_eq {expected : Fault → Prop} (hexhausted : expected .exhausted)
    {labels : List Label} {init control : Stmt}
    (hmissing : ∀ what : String, expected (.problem (.missingScope control.id what))) :
    Yields expected env p (enclose labels init control)
      (fun s q => ∃ id blockId, s = .block id ⟨blockId, [init, control.label labels]⟩ ∧
        id.Below q.ids.count ∧ blockId.Below q.ids.count) := by
  apply (PassM.yields_freshId hexhausted).bind
  intro blockId p₁ hp₁ hblock
  have hmove := PassM.grows_moveScope control.id hblock
  refine .step (PassM.exec_onTable _ env p₁) hmove ?_
  have hnext : ∀ q, blockId.Below q.ids.count → Yields expected env q
      (PassM.newStmt (fun id => .block id ⟨blockId, [init, control.label labels]⟩))
      (fun s r => ∃ id blockId, s = .block id ⟨blockId, [init, control.label labels]⟩ ∧
        id.Below r.ids.count ∧ blockId.Below r.ids.count) := by
    intro q hblock'
    apply (PassM.yields_newStmt _ hexhausted).mono
    intro s r hr hs
    rcases hs with ⟨id, rfl, hid⟩
    exact ⟨id, blockId, rfl, hid, PassM.below_mono hr hblock'⟩
  split
  · exact hnext _ (PassM.below_mono hmove hblock)
  · apply (PassM.yields_scopeAt control.id fun what _ => hmissing what).bind
    intro parent q hq _
    have hblock' := PassM.below_mono (hmove.trans hq) hblock
    have hscope := PassM.grows_newScope (p := q) parent
    refine .step (PassM.exec_onTable _ env q) hscope ?_
    have hattach := PassM.grows_attachScope (q.table.newScope parent).1
      (PassM.below_mono hscope hblock')
    refine .step (PassM.exec_modifyTable _ env _) hattach ?_
    exact hnext _ (PassM.below_mono (hscope.trans hattach) hblock')

theorem yields_enclose {labels : List Label}
    {init control : Stmt} (hlabels : ∀ l ∈ labels, l.id.Below p.ids.count)
    (hinit : Stmts.Settled traits p [init]) (hcontrol : Stmts.Settled traits p [control]) :
    Obtains env p (enclose labels init control)
      (fun s q => s.isBranch = true ∧ Stmts.Settled traits q [s]) := by
  apply (yields_enclose_eq trivial fun _ => trivial).mono
  rintro s q hq ⟨id, blockId, rfl, hid, hblock⟩
  refine ⟨rfl, .block hid hblock ?_⟩
  apply Stmts.Settled.cons (hinit.mono hq)
  apply Stmts.Settled.label _ _ (hcontrol.mono hq)
  intro l hl
  exact PassM.below_mono hq (hlabels l hl)

end Initializer

namespace Stmt

theorem takeInit?_eq_none_iff (s : Stmt) : s.takeInit? = none ↔ s.hasControlInit = false := by
  cases s with
  | ifElse id init cond body els | switch id init tag clauses
  | typeSwitch id init guard clauses => cases init <;> simp [takeInit?, hasControlInit]
  | _ => simp [takeInit?, hasControlInit]

theorem onStmt_of_takeInit? {s init control : Stmt} (h : s.takeInit? = some (init, control))
    {q : Pass} {trait : Trait} (hs : trait.OnStmt q false s) : trait.OnStmt q false control := by
  cases s with
  | ifElse id start cond body els | switch id start tag clauses
  | typeSwitch id start guard clauses =>
    cases start with
    | none => cases h
    | some start =>
      cases h
      cases trait <;> first | exact hs | exact rfl
  | _ => cases h

theorem hasControlInit_of_takeInit? {s init control : Stmt}
    (h : s.takeInit? = some (init, control)) : control.hasControlInit = false := by
  cases s with
  | ifElse id start cond body els | switch id start tag clauses
  | typeSwitch id start guard clauses =>
    cases start with
    | none => cases h
    | some start =>
      cases h
      rfl
  | _ => cases h

theorem parts_of_takeInit? {s init control : Stmt} (h : s.takeInit? = some (init, control)) :
    s.parts = .header init :: init.parts ++ control.parts := by
  cases s with
  | ifElse id start cond body els | switch id start tag clauses
  | typeSwitch id start guard clauses =>
    cases start with
    | none => cases h
    | some start =>
      cases h
      simp [parts, OptStmt.headerNodes]
  | _ => cases h

theorem deep_of_takeInit? {s init control : Stmt} (h : s.takeInit? = some (init, control)) :
    s.deep = s.parts := by
  cases s <;> first | rfl | cases h

end Stmt

namespace Initializer

theorem settled_of_takeInit? (hstage : ∀ trait, traits trait → trait.stage < 8)
    {s init control : Stmt} (h : s.takeInit? = some (init, control))
    (hself : (Node.stmt s).Has traits p)
    (hparts : AllHave (With traits .noControlInit) p s.parts) :
    Stmts.Settled (With traits .noControlInit) p [init] ∧
      Stmts.Settled (With traits .noControlInit) p [control] := by
  rw [Stmt.parts_of_takeInit? h] at hparts
  rcases Node.All.append_iff.mp hparts with ⟨hinit, hcontrol⟩
  rcases Node.All.cons_iff.mp hinit with ⟨hheader, hinitParts⟩
  constructor
  · apply Stmts.Settled.singleton_iff.mpr
    refine ⟨hheader.stmt_of_header ?_, hinitParts⟩
    intro trait htrait
    rcases htrait with htrait | rfl
    · exact hstage trait htrait
    · decide
  · apply Stmts.Settled.singleton_iff.mpr
    refine ⟨?_, hcontrol⟩
    have hkept : (Node.stmt control).Has traits p := by
      intro q hq trait htrait hdiagnostics
      exact Stmt.onStmt_of_takeInit? h (hself q hq trait htrait hdiagnostics)
    apply hkept.with_trait
    intro q _ _
    exact Stmt.hasControlInit_of_takeInit? h

theorem yields_hoist
    (hstage : ∀ trait, traits trait → trait.stage < 8) (hbounded : traits .bounded) {s : Stmt}
    (hown : AllHave traits p s.own)
    (hdeep : AllHave (With traits .noControlInit) p s.deep) :
    Obtains env p (hoist s)
      (fun found q => Stmts.Settled (With traits .noControlInit) q (found.getD [s])) := by
  have hlabels := Stmt.labels_below hbounded hown
  unfold hoist
  cases htake : s.unlabeled.takeInit? with
  | none =>
    apply Ends.pure
    apply Stmts.Settled.keep (by decide) hown hdeep
    · intro q _ _
      exact (Stmt.takeInit?_eq_none_iff _).mp htake
    · intros
      trivial
  | some taken =>
    rcases taken with ⟨init, control⟩
    have hself : (Node.stmt s.unlabeled).Has traits p :=
      hown _ (s.own_unlabeled_subset (.head _))
    have hparts : AllHave (With traits .noControlInit) p s.unlabeled.parts := by
      rw [← s.deep_unlabeled, Stmt.deep_of_takeInit? htake] at hdeep
      exact hdeep
    rcases settled_of_takeInit? hstage htake hself hparts with ⟨hinit, hcontrol⟩
    apply (yields_enclose hlabels hinit hcontrol).bind
    intro block q _ hblock
    exact .pure hblock.2

theorem hoistElse_of_takeInit?_eq_none {id : NodeId} {init : Option Stmt} {cond : Expr}
    {body : Block} {els : Stmt} (h : els.takeInit? = none) :
    transformer.stmt (.ifElse id init cond body (some els)) =
      pure (.ifElse id init cond body (some els)) := by
  cases els with
  | ifElse inner start test first rest =>
    cases start with
    | none => rfl
    | some start => cases h
  | _ => rfl

theorem branchHook
    (hstage : ∀ trait, traits trait → trait.stage < 8) :
    Transformer.BranchHook transformer Fault.any env start traits .noControlInit := by
  intro p id init cond body els _ hels hself hparts
  cases htake : els.takeInit? with
  | none =>
    have hinit := (Stmt.takeInit?_eq_none_iff els).mp htake
    rw [hoistElse_of_takeInit?_eq_none htake]
    apply Ends.pure
    refine ⟨els, rfl, hels, Node.All.cons_iff.mpr ⟨?_, hparts⟩⟩
    exact hself.with_trait fun _ _ _ => hinit
  | some taken =>
    rcases taken with ⟨start', control⟩
    rcases settled_of_takeInit? hstage htake hself hparts with ⟨hstart, hcontrol⟩
    cases els with
    | ifElse inner start test first rest =>
      cases start with
      | none => cases htake
      | some start =>
        cases htake
        have hlabels : ∀ l ∈ ([] : List Label), l.id.Below p.ids.count := by
          intro l hl
          cases hl
        apply (yields_enclose hlabels hstart hcontrol).bind
        intro block q _ hblock
        have hcount : q.Grows _ := .counted q
        refine .step (PassM.exec_countChange env q) hcount (.pure ?_)
        refine ⟨block, rfl, hblock.1, ?_⟩
        exact Node.All.cons_iff.mpr (Stmts.Settled.singleton_iff.mp (hblock.2.mono hcount))
    | block _ _ => cases htake
    | _ => cases hels

theorem hoistElse_of_not_hasElse {s : Stmt} (hs : s.hasElse = false) :
    transformer.stmt s = pure s := by
  cases s with
  | ifElse id init cond body els =>
    cases els with
    | none => rfl
    | some els => cases hs
  | _ => rfl

theorem contract
    (hstage : ∀ trait, traits trait → trait.stage < 8) (hbounded : traits .bounded)
    (hsimple : traits .simpleHeaders) (hbranchElse : traits .branchElse) :
    transformer.ListContract Fault.any env start traits .noControlInit := by
  apply Transformer.ListContract.of_splice rfl rfl rfl rfl hoistElse_of_not_hasElse (by decide)
    hsimple hbranchElse (branchHook hstage)
  intro p _ s _
  exact yields_hoist hstage hbounded

end Initializer
end
end Desugar
