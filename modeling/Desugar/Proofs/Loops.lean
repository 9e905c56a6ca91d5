import Desugar.Control.Loop
import Desugar.Proofs.ControlStatements
import Desugar.Proofs.Copies

/-!
# Loops in normal form

Moving the clauses of a loop leaves it with a condition only.  The continues of
the body are replaced in two ways, one of which makes copies and may run out of
identities while the other only counts; both are covered by one argument over
the monad.
-/

namespace Desugar

open PassM (Obtains Ends)
open Node (All AllHave)
open Trait (With)

/-!
## Replacing continues
-/

structure StepLogic (m : Type → Type) [Monad m] where
  reach : Pass → Pass → Prop
  ensures : {α : Type} → Pass → m α → (α → Pass → Prop) → Prop
  refl : ∀ p, reach p p
  pure : ∀ {α : Type} {p : Pass} {a : α} {post : α → Pass → Prop},
    post a p → ensures p (pure a) post
  bind : ∀ {α β : Type} {p : Pass} {x : m α} {f : α → m β} {mid : α → Pass → Prop}
    {post : β → Pass → Prop}, ensures p x mid →
    (∀ a q, reach p q → mid a q → ensures q (f a) post) → ensures p (x >>= f) post

def StepLogic.ofCounter (reach : Pass → Pass → Prop) (refl : ∀ p, reach p p) :
    StepLogic (StateM Nat) where
  reach := reach
  ensures p x post := ∀ n, post (x.run n).1 p
  refl := refl
  pure h _ := h
  bind hx hf n := hf _ _ (refl _) (hx n) _

def StepLogic.ofPass (L : PassM.Logic) : StepLogic PassM where
  reach := L.reach
  ensures := L.ensures
  refl := L.refl
  pure := L.pure
  bind := L.bind

namespace Form

variable {m : Type → Type} [Monad m] (labels : List String)
  (replace : NodeId → Option String → m Stmt)

def isListed : Form → Bool
  | .stmt listed | .optStmt listed => listed
  | .stmts | .list _ | .block | .caseClause | .caseClauses | .typeClause | .typeClauses
  | .commClause | .commClauses => true
  | _ => false

def isJump : (f : Form) → f.Tree → Bool
  | .stmt _, .branch _ _ _ => true
  | _, _ => false

def depthInside (depth : Nat) : (f : Form) → f.Tree → Nat
  | .stmt _, .forLoop _ _ _ _ _ | .stmt _, .range _ _ _ _ _ _ => depth + 1
  | _, _ => depth

def replaceContinues (depth : Nat) : (f : Form) → f.Tree → m f.Tree
  | .stmt true, s => s.replaceContinues labels replace depth
  | .stmts, body | .list _, body => Stmts.replaceContinues labels replace depth body
  | .optStmt true, s => OptStmt.replaceContinues labels replace depth s
  | .block, b => b.replaceContinues labels replace depth
  | .caseClause, c => return { c with body := ← Stmts.replaceContinues labels replace depth c.body }
  | .caseClauses, cs => CaseClauses.replaceContinues labels replace depth cs
  | .typeClause, c => return { c with body := ← Stmts.replaceContinues labels replace depth c.body }
  | .typeClauses, cs => TypeClauses.replaceContinues labels replace depth cs
  | .commClause, c => return { c with body := ← Stmts.replaceContinues labels replace depth c.body }
  | .commClauses, cs => CommClauses.replaceContinues labels replace depth cs
  | _, x => pure x

end Form

section

variable {m : Type → Type} [Monad m] {labels : List String}
  {replace : NodeId → Option String → m Stmt}

def Parts.replaceContinues (labels : List String) (replace : NodeId → Option String → m Stmt)
    (depth : Nat) : (fs : List Form) → Parts fs → m (Parts fs)
  | [], _ => pure ()
  | f :: fs, parts => do
      let x ← f.replaceContinues labels replace depth parts.1
      let rest ← Parts.replaceContinues labels replace depth fs parts.2
      return (x, rest)

variable [LawfulMonad m]

theorem Form.replaceContinues_eq {f : Form} {x : f.Tree} (hf : f.isListed = true)
    (hx : f.isJump x = false) (depth : Nat) : f.replaceContinues labels replace depth x =
      Parts.replaceContinues labels replace (f.depthInside depth x) _ (f.makeup x).parts >>=
        fun new => pure ((f.makeup x).make new) := by
  revert hf hx
  fun_cases Form.makeup f x
  all_goals intro hf hx
  all_goals cases hf
  all_goals try cases hx
  all_goals first
    | cases ‹CaseClause›
    | cases ‹TypeClause›
    | cases ‹CommClause›
    | skip
  all_goals simp [Form.makeup, Form.replaceContinues, Form.depthInside, Parts.replaceContinues,
    Stmt.replaceContinues, Stmts.replaceContinues, OptStmt.replaceContinues, Block.replaceContinues,
    CaseClauses.replaceContinues, TypeClauses.replaceContinues, CommClauses.replaceContinues]

structure StepLogic.Replaces (logic : StepLogic m) (replace : NodeId → Option String → m Stmt)
    (pre : (f : Form) → f.Tree → Pass → Prop)
    (post : (f : Form) → f.Tree → f.Tree → Pass → Pass → Prop) : Prop where
  pre_mono : ∀ {f x p q}, logic.reach p q → pre f x p → pre f x q
  stay : ∀ {f x p}, pre f x p → post f x x p p
  parts : ∀ {f x p}, pre f x p → Parts.All (fun f y => pre f y p) _ (f.makeup x).parts
  make : ∀ {f x p q} (new), f.isListed = true → f.isJump x = false → pre f x p →
    Parts.Chain logic.reach post _ (f.makeup x).parts new p q → post f x ((f.makeup x).make new) p q
  jump : ∀ {p id label}, pre (.stmt true) (.branch id .continue label) p →
    logic.ensures p (replace id label)
      (fun s q => post (.stmt true) (.branch id .continue label) s p q)

theorem StepLogic.mono {logic : StepLogic m} {α : Type} {p : Pass} {x : m α}
    {mid post : α → Pass → Prop} (h : logic.ensures p x mid) (himp : ∀ a q, mid a q → post a q) :
    logic.ensures p x post := by
  rw [← bind_pure x]
  exact logic.bind h fun a q _ ha => logic.pure (himp a q ha)

namespace StepLogic.Replaces

variable {logic : StepLogic m} {pre : (f : Form) → f.Tree → Pass → Prop}
  {post : (f : Form) → f.Tree → f.Tree → Pass → Pass → Prop}

omit [LawfulMonad m] in
theorem ensures_parts (h : logic.Replaces replace pre post) {fs : List Form} {old : Parts fs}
    {depth : Nat} {p : Pass} (hold : Parts.All (fun f x => ∀ depth p, pre f x p →
      logic.ensures p (f.replaceContinues labels replace depth x) (fun x' q => post f x x' p q))
      fs old)
    (hpre : Parts.All (fun f x => pre f x p) fs old) :
    logic.ensures p (Parts.replaceContinues labels replace depth fs old)
      (fun new q => Parts.Chain logic.reach post fs old new p q) := by
  induction fs generalizing p with
  | nil => exact logic.pure (logic.refl p)
  | cons f fs ih =>
    refine logic.bind (hold.1 depth p hpre.1) fun x q hpq hx => ?_
    refine logic.bind (ih hold.2 (hpre.2.mono fun _ _ => h.pre_mono hpq)) fun rest r _ hrest => ?_
    exact logic.pure ⟨q, hpq, hx, hrest⟩

theorem ensures (h : logic.Replaces replace pre post) (f : Form) (x : f.Tree) (depth : Nat)
    {p : Pass} (hpre : pre f x p) : logic.ensures p (f.replaceContinues labels replace depth x)
      (fun x' q => post f x x' p q) := by
  induction f, x using Form.induction generalizing depth p with
  | h f x ih =>
    have hstay : logic.ensures p (Pure.pure x) (fun x' q => post f x x' p q) :=
      logic.pure (h.stay hpre)
    cases hf : f.isListed with
    | false =>
      have hsame : f.replaceContinues labels replace depth x = Pure.pure x := by
        cases f with
        | stmt listed | optStmt listed =>
          cases hf
          rfl
        | _ => first | rfl | cases hf
      rw [hsame]
      exact hstay
    | true =>
      cases hx : f.isJump x with
      | false =>
        rw [Form.replaceContinues_eq hf hx]
        refine logic.bind (h.ensures_parts (ih.mono fun f y hy depth p => hy depth) (h.parts hpre))
          fun new q _ hchain => logic.pure ?_
        exact h.make new hf hx hpre hchain
      | true =>
        unfold Form.isJump at hx
        split at hx
        · cases hf
          simp only [Form.replaceContinues, Stmt.replaceContinues]
          split
          · rename_i hown
            rcases hown with ⟨rfl, _⟩
            exact h.jump hpre
          · exact hstay
        · cases hx

end StepLogic.Replaces
end

/-!
## Settled bodies
-/

def Form.Kindred : (f : Form) → f.Tree → f.Tree → Prop
  | .stmt true, s, s' => s.isBranch = true → s'.isBranch = true
  | .optStmt true, s, s' => (∀ els ∈ s, els.isBranch = true) →
      s'.map Stmt.elseFace = s.map Stmt.elseFace
  | f, x, x' => f.Alike x x'

theorem Form.Alike.refl (f : Form) (x : f.Tree) : f.Alike x x := by
  unfold Form.Alike
  split <;> simp

theorem Form.Kindred.refl (f : Form) (x : f.Tree) : f.Kindred x x := by
  unfold Form.Kindred
  split
  · exact id
  · exact fun _ => rfl
  · exact .refl _ _

theorem Stmt.face_make {s : Stmt} {new : Parts ((Form.stmt true).makeup s).forms}
    (h : Parts.All₂ Form.Kindred _ ((Form.stmt true).makeup s).parts new)
    (hels : ∀ id init cond body els, s = .ifElse id init cond body els →
      ∀ branch ∈ els, branch.isBranch = true) :
    (((Form.stmt true).makeup s).make new).face = s.face := by
  cases s with
  | ifElse id init cond body els =>
    exact Form.outlined_make (.stmt true) _ new
      ⟨h.1, h.2.1, h.2.2.1, h.2.2.2.1, h.2.2.2.2.1 (hels _ _ _ _ _ rfl), trivial⟩
  | labeled => rfl
  | switch id init tag clauses => cases tag <;> exact Form.outlined_make (.stmt true) _ new h
  | _ => exact Form.outlined_make (.stmt true) _ new h

theorem Form.kindred_make {f : Form} {x : f.Tree} (hf : f.isListed = true)
    {new : Parts (f.makeup x).forms} (h : Parts.All₂ Form.Kindred _ (f.makeup x).parts new) :
    f.Kindred x ((f.makeup x).make new) := by
  revert new
  fun_cases Form.makeup f x
  all_goals intro new h
  all_goals cases hf
  all_goals simp_all
    [Form.makeup, Form.Kindred, Form.Alike, Parts.All₂, Stmt.isBranch, Stmt.elseFace]

section

variable {m : Type → Type} [Monad m] [LawfulMonad m] {labels : List String}
  {replace : NodeId → Option String → m Stmt} {traits : Trait → Prop} {origin : Pass}

theorem Form.settled_make {f : Form} {x : f.Tree} (hf : f.isListed = true)
    (hbranchElse : traits .branchElse) {q : Pass} {new : Parts (f.makeup x).forms}
    (hx : AllHave traits q (f.nodes x))
    (hkindred : Parts.All₂ Form.Kindred _ (f.makeup x).parts new)
    (hnew : Parts.All (fun f y => AllHave traits q (f.nodes y)) _ new) :
    AllHave traits q (f.nodes ((f.makeup x).make new)) := by
  intro n hn
  rcases List.mem_append.mp ((f.nodes_make x new).mem_iff.mp hn) with hn | hn
  · cases f with
    | stmt listed =>
      cases hf
      rw [List.mem_singleton.mp hn]
      have hself : (Node.stmt x).Has traits q := hx _ (.head _)
      refine hself.stmt_of_face_eq (Stmt.face_make hkindred ?_) fun htagged hdiagnostics => ?_
      · rintro id init cond body els rfl
        exact hself.holds hbranchElse fun hstage => absurd hstage (Nat.lt_irrefl 0)
      · have htag := hself.holds htagged fun _ => hdiagnostics
        cases x with
        | switch id init tag clauses =>
          cases tag with
          | none => cases htag
          | some tag => rfl
        | _ => trivial
    | block =>
      rw [List.mem_singleton.mp hn]
      exact .of_block_node
    | expr | decl | topDecl | missingTag => cases hf
    | _ => cases hn
  · exact Parts.forall_collect_iff.mpr hnew n hn

theorem Block.settled_replaceContinues (logic : StepLogic m) (hreach : logic.reach = Pass.Grows)
    (hbounded : traits .bounded) (hbranchElse : traits .branchElse)
    (h : ∀ p id label, origin.Grows p → id.Below p.ids.count →
      logic.ensures p (replace id label) (fun s q => Stmts.Settled traits q [s]))
    (b : Block) (depth : Nat) {p : Pass} (hp : origin.Grows p)
    (hb : AllHave traits p b.nodes) :
    logic.ensures p (b.replaceContinues labels replace depth) (fun b' q =>
      b'.id = b.id ∧ AllHave traits q b'.nodes) := by
  have hreplaces : logic.Replaces replace
      (fun f x p => origin.Grows p ∧ AllHave traits p (f.nodes x))
      (fun f x x' _ q => f.Kindred x x' ∧ AllHave traits q (f.nodes x')) := by
    refine ⟨?_, fun hpre => ⟨.refl _ _, hpre.2⟩, ?_, ?_, ?_⟩
    · rw [hreach]
      exact fun hpq hpre => ⟨hpre.1.trans hpq, Node.Has.all_mono hpq hpre.2⟩
    · intro f x p hpre
      have hparts := Parts.forall_collect_iff.mp fun n hn =>
        hpre.2 n ((f.mem_nodes_iff x n).mpr (.inr hn))
      exact hparts.mono fun _ _ hy => ⟨hpre.1, hy⟩
    · rw [hreach]
      intro f x p q new hf _ hpre hchain
      have hkindred : Parts.All₂ Form.Kindred _ _ new := hchain.all₂ fun _ _ _ _ _ hpost => hpost.1
      rcases hchain.all (P := fun q f y => AllHave traits q (f.nodes y))
        Pass.Grows.trans Node.Has.all_mono fun _ _ _ _ _ hpost => hpost.2 with ⟨hpq, hnew⟩
      exact ⟨Form.kindred_make hf hkindred,
        Form.settled_make hf hbranchElse (Node.Has.all_mono hpq hpre.2) hkindred hnew⟩
    · intro p id label hpre
      have hid : id.Below p.ids.count := (hpre.2 _ (.head _)).holds hbounded
        (fun hstage => absurd hstage (Nat.lt_irrefl 0)) id (.head _)
      refine logic.mono (h p id label hpre.1 hid) fun s q hs => ?_
      exact ⟨fun hbranch => (by cases hbranch),
        Node.All.cons_iff.mpr (Stmts.Settled.singleton_iff.mp hs)⟩
  exact hreplaces.ensures .block b depth ⟨hp, hb⟩

end

/-!
## The post step
-/

theorem Node.Has.of_forLoop {traits : Trait → Prop} {p : Pass} {id : NodeId} {cond : Option Expr}
    {body : Block} (hid : id.Below p.ids.count) (hbody : body.id.Below p.ids.count) :
    (Node.stmt (.forLoop id none cond none body)).Has traits p :=
  of_isPlain_stmt rfl (List.forall_mem_cons.mpr ⟨hid, List.forall_mem_singleton.mpr hbody⟩)

namespace Loop

variable {env : PassEnv} {start p : Pass} {traits : Trait → Prop}

theorem yields_refreshed {s : Stmt} {post : Stmt → Pass → Prop} (h : Refreshes p s.refresh post) :
    Obtains env p (copy s) (fun s' q => ∀ r, q.Grows r → post s' r) := by
  refine .look (PassM.exec_get env p) ?_
  cases hrun : s.refresh (p.ids, p.table) with
  | none => exact .of_exec_error (PassM.exec_throw .exhausted env p) (.refl p) trivial
  | some result =>
    rcases result with ⟨s', ids, table⟩
    rcases h s' ids table hrun with ⟨hgrows, hcopy⟩
    exact .step (PassM.exec_set _ env p) hgrows (.pure hcopy)

theorem yields_copy (hbounded : traits .bounded)
    (hdrawn : p.Drawn) {s : Stmt} (hs : Stmts.Settled traits p [s]) :
    Obtains env p (copy s) (fun s' q => Stmts.Settled traits q [s']) := by
  apply (yields_refreshed (Stmt.refreshes s)).mono
  intro s' q hgrows hcopy n' hn'
  rcases Stmts.copies_singleton hdrawn (hcopy q (.refl q)) n' hn' with ⟨n, hn, hof⟩
  exact (hs n hn).of_copyOf hbounded hgrows hof

theorem yields_runPost (hbounded : traits .bounded)
    (hdrawn : p.Drawn) {post : Stmt} (hpost : Stmts.Settled traits p [post]) (id : NodeId)
    (label : Option String) (hid : id.Below p.ids.count) :
    Obtains env p (runPost post id label) (fun s q => Stmts.Settled traits q [s]) := by
  apply (yields_copy hbounded hdrawn hpost).bind
  intro step r hr hstep
  apply (PassM.yields_newStmt _ trivial).bind
  intro jump u hu hjump
  rcases hjump with ⟨jumpId, rfl, hjumpId⟩
  apply (PassM.yields_freshId trivial).bind
  intro bodyId v hv hbodyId
  have hjump : Stmts.Settled traits u [.branch jumpId .continue label] :=
    Stmts.Settled.singleton_iff.mpr ⟨.of_branch hjumpId, .nil⟩
  refine .pure (.block (PassM.below_mono (hr.trans (hu.trans hv)) hid) hbodyId ?_)
  exact .cons (hstep.mono (hu.trans hv)) (hjump.mono hv)

def SettledBody (traits : Trait → Prop) (p : Pass) (body : Block) : Prop :=
  body.id.Below p.ids.count ∧ AllHave traits p body.nodes

theorem SettledBody.mono {q : Pass} {body : Block} (h : SettledBody traits p body)
    (hgrows : p.Grows q) : SettledBody traits q body :=
  ⟨PassM.below_mono hgrows h.1, Node.Has.all_mono hgrows h.2⟩

theorem SettledBody.stmts {body : Block} (h : SettledBody traits p body) :
    Stmts.Settled traits p body.stmts := by
  rcases body with ⟨id, stmts⟩
  exact (Node.All.cons_iff.mp h.2).2

theorem SettledBody.of_stmts {id : NodeId} {stmts : List Stmt} (hid : id.Below p.ids.count)
    (h : Stmts.Settled traits p stmts) : SettledBody traits p ⟨id, stmts⟩ :=
  ⟨hid, Node.All.cons_iff.mpr ⟨.of_block_node, h⟩⟩

theorem yields_absorbPost (hbounded : traits .bounded)
    (hbranchElse : traits .branchElse) (hdrawn : p.Drawn) (labels : List String) {post : Stmt}
    {body : Block} (hpost : Stmts.Settled traits p [post]) (hbody : SettledBody traits p body) :
    Obtains env p (absorbPost labels post body)
      (fun body' q => SettledBody traits q body') := by
  refine .search trivial fun shadowed _ => ?_
  split
  · have hname := PassM.grows_freshName (p := p) "next"
    refine .step (PassM.exec_onTable _ env p) hname ?_
    generalize (p.table.freshName "next").1 = target
    generalize ({ p with table := (p.table.freshName "next").2 } : Pass) = named at hname ⊢
    have hreplaced : ∀ n, ((body.replaceContinues labels (jumpTo target) 0).run n).1.id = body.id ∧
        AllHave traits p
          ((body.replaceContinues labels (jumpTo target) 0).run n).1.nodes :=
      Block.settled_replaceContinues (.ofCounter Pass.Grows .refl) rfl hbounded hbranchElse
        (fun q id label _ hid _ => Stmts.Settled.singleton_iff.mpr ⟨.of_branch hid, .nil⟩) body 0
        (.refl p) hbody.2
    have hinner := hreplaced 0
    generalize (body.replaceContinues labels (jumpTo target) 0).run 0 = result at hinner ⊢
    rcases result with ⟨inner, jumps⟩
    have hnext : ∀ q step, p.Grows q → Stmts.Settled traits q [step] → Obtains env q
        (do
          let block ← PassM.newStmt (fun id => .block id inner)
          return ⟨← PassM.freshId, [block, step]⟩)
        (fun body' r => SettledBody traits r body') := by
      intro q step hq hstep
      apply (PassM.yields_newStmt _ trivial).bind
      intro block r hr hblock
      rcases hblock with ⟨blockId, rfl, hblockId⟩
      apply (PassM.yields_freshId trivial).bind
      intro bodyId u hu hbodyId
      have hsettled : SettledBody traits r inner := by
        refine ⟨?_, Node.Has.all_mono (hq.trans hr) hinner.2⟩
        rw [hinner.1]
        exact PassM.below_mono (hq.trans hr) hbody.1
      have hblock : Stmts.Settled traits r [.block blockId inner] :=
        .block hblockId hsettled.1 hsettled.stmts
      exact .pure (.of_stmts hbodyId (.cons (hblock.mono hu) (hstep.mono (hr.trans hu))))
    dsimp only
    split
    · apply (PassM.yields_newStmt _ trivial).bind
      intro step q hq hstep
      rcases hstep with ⟨stepId, rfl, hstepId⟩
      apply hnext q _ (hname.trans hq)
      apply Stmts.Settled.singleton_iff.mpr
      refine ⟨.of_labeled hstepId, Node.All.cons_iff.mpr ?_⟩
      exact Stmts.Settled.singleton_iff.mp (hpost.mono (hname.trans hq))
    · exact hnext named post hname (hpost.mono hname)
  · have hreplaced : Obtains env p (body.replaceContinues labels (runPost post) 0)
        (fun body' q => body'.id = body.id ∧ AllHave traits q body'.nodes) :=
      Block.settled_replaceContinues (.ofPass (.yields Fault.any env)) rfl hbounded hbranchElse
        (fun q id label hq hid => yields_runPost hbounded (hdrawn.of_grows hq) (hpost.mono hq)
          id label hid) body 0 (.refl p) hbody.2
    apply hreplaced.bind
    rintro inner q hq ⟨hid, hnodes⟩
    have hbelow := PassM.below_mono hq hbody.1
    have hsettled : SettledBody traits q inner := by
      refine ⟨?_, hnodes⟩
      rw [hid]
      exact hbelow
    exact .pure (.of_stmts hsettled.1 (Stmts.Settled.append_iff.mpr
      ⟨hsettled.stmts, hpost.mono hq⟩))

/-!
## The loop
-/

theorem yields_settled_loop {labels : List Label} {id : NodeId}
    {init : Option Stmt} {cond : Option Expr} {body : Block}
    (hlabels : ∀ l ∈ labels, l.id.Below p.ids.count) (hid : id.Below p.ids.count)
    (hinit : ∀ s ∈ init, Stmts.Settled traits p [s])
    (hcond : AllHave traits p (OptExpr.nodes cond))
    (hbody : SettledBody traits p body) :
    Obtains env p (do
      let cond ← match cond with
        | some cond => pure cond
        | none => PassM.newTrue
      let loop := Stmt.forLoop id none (some cond) none body
      match init with
      | some init => Initializer.enclose labels init loop
      | none => return loop.label labels) (fun s q => Stmts.Settled traits q [s]) := by
  have henclosed : ∀ q cond', p.Grows q → Expr.Settled traits q cond' → Obtains env q
      (match init with
        | some init => Initializer.enclose labels init (.forLoop id none (some cond') none body)
        | none => pure ((Stmt.forLoop id none (some cond') none body).label labels))
      (fun s r => Stmts.Settled traits r [s]) := by
    intro q cond' hq hcond'
    have hbody' := hbody.mono hq
    have hloop : Stmts.Settled traits q [.forLoop id none (some cond') none body] :=
      Stmts.Settled.singleton_iff.mpr
        ⟨.of_forLoop (PassM.below_mono hq hid) hbody'.1,
          Node.All.append_iff.mpr ⟨Node.All.append_iff.mpr ⟨hcond', .nil⟩, hbody'.2⟩⟩
    have hlabels' : ∀ l ∈ labels, l.id.Below q.ids.count :=
      fun l hl => PassM.below_mono hq (hlabels l hl)
    cases init with
    | none => exact .pure (hloop.label labels hlabels')
    | some init =>
      apply (Initializer.yields_enclose hlabels' ((hinit init rfl).mono hq) hloop).mono
      intro s r _ hs
      exact hs.2
  cases cond with
  | none =>
    apply (PassM.yields_newTrue trivial).bind
    rintro _ q hq ⟨condId, rfl, hcondId⟩
    exact henclosed q _ hq (.lit hcondId)
  | some cond => exact henclosed p cond (.refl p) hcond

theorem yields_canonical (hbounded : traits .bounded)
    (hbranchElse : traits .branchElse) (hdrawn : p.Drawn) {labels : List Label} {id : NodeId}
    {init : Option Stmt} {cond : Option Expr} {post : Option Stmt} {body : Block}
    (hlabels : ∀ l ∈ labels, l.id.Below p.ids.count) (hid : id.Below p.ids.count)
    (hinit : ∀ s ∈ init, Stmts.Settled traits p [s])
    (hcond : AllHave traits p (OptExpr.nodes cond))
    (hpost : ∀ s ∈ post, Stmts.Settled traits p [s]) (hbody : SettledBody traits p body) :
    Obtains env p (canonical labels id init cond post body)
      (fun s q => Stmts.Settled traits q [s]) := by
  cases post with
  | none => exact yields_settled_loop hlabels hid hinit hcond hbody
  | some post =>
    apply (yields_absorbPost hbounded hbranchElse hdrawn _ (hpost post rfl) hbody).bind
    intro body' q hq hbody'
    exact yields_settled_loop (fun l hl => PassM.below_mono hq (hlabels l hl))
      (PassM.below_mono hq hid) (fun s hs => (hinit s hs).mono hq) (Node.Has.all_mono hq hcond)
      hbody'

theorem settled_of_headerNodes (hstage : ∀ trait, traits trait → trait.stage < 8)
    {s : Option Stmt} (h : AllHave traits p (OptStmt.headerNodes s)) :
    ∀ s' ∈ s, Stmts.Settled traits p [s'] := by
  intro s' hs'
  cases hs'
  rcases Node.All.cons_iff.mp h with ⟨hheader, hparts⟩
  exact Stmts.Settled.singleton_iff.mpr ⟨hheader.stmt_of_header hstage, hparts⟩

theorem yields_canonicalize
    (hstage : ∀ trait, traits trait → trait.stage < 8) (hbounded : traits .bounded)
    (hbranchElse : traits .branchElse) (hdrawn : p.Drawn) {s : Stmt}
    (hown : AllHave traits p s.own)
    (hdeep : AllHave (With traits .conditionLoop) p s.deep) :
    Obtains env p (canonicalize s)
      (fun found q => Stmts.Settled (With traits .conditionLoop) q (found.getD [s])) := by
  have hkeep : s.unlabeled.isThreeClauseLoop = false → Obtains env p (pure none)
      (fun found q => Stmts.Settled (With traits .conditionLoop) q (found.getD [s])) := by
    intro hshape
    apply Ends.pure
    apply Stmts.Settled.keep (by decide) hown hdeep
    · intro q _ _
      exact hshape
    · intros
      trivial
  have hlate : ∀ trait, With traits .conditionLoop trait → trait.stage < 8 := by
    intro trait htrait
    rcases htrait with htrait | rfl
    · exact hstage trait htrait
    · decide
  have hlabels := Stmt.labels_below hbounded hown
  have hself : (Node.stmt s.unlabeled).Has traits p := hown _ (s.own_unlabeled_subset (.head _))
  rw [← s.deep_unlabeled] at hdeep
  unfold canonicalize
  split
  · rename_i id init cond post body hs
    split
    · rw [hs] at hself hdeep
      have hshown := hself.holds hbounded fun hpos => absurd hpos (Nat.lt_irrefl 0)
      rcases Node.All.append_iff.mp hdeep with ⟨hclauses, hbody⟩
      rcases Node.All.append_iff.mp hclauses with ⟨hhead, hpost⟩
      rcases Node.All.append_iff.mp hhead with ⟨hinit, hcond⟩
      apply (yields_canonical (.inl hbounded) (.inl hbranchElse) hdrawn hlabels
        (hshown id (.head _)) (settled_of_headerNodes hlate hinit) hcond
        (settled_of_headerNodes hlate hpost) ⟨hshown body.id (.tail _ (.head _)), hbody⟩).bind
      intro loop q _ hloop
      exact .pure hloop
    · rename_i hclauses
      apply hkeep
      rw [hs]
      exact Bool.eq_false_iff.mpr hclauses
  · rename_i hother
    apply hkeep
    cases hs : s.unlabeled with
    | forLoop id init cond post body => exact absurd hs (hother id init cond post body)
    | _ => rfl

theorem contract
    (hstage : ∀ trait, traits trait → trait.stage < 8) (hbounded : traits .bounded)
    (hsimple : traits .simpleHeaders) (hbranchElse : traits .branchElse) (hdrawn : start.Drawn) :
    transformer.ListContract Fault.any env start traits .conditionLoop := by
  apply Transformer.ListContract.of_splice rfl rfl rfl rfl (fun _ => rfl) (by decide) hsimple
    hbranchElse (Transformer.branchHook_of_pure rfl (by decide) (by decide))
  intro p _ s hp
  exact yields_canonicalize hstage hbounded hbranchElse (hdrawn.of_grows hp)

end Loop
end Desugar
