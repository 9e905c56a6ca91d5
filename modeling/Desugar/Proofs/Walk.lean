import Desugar.Proofs.Descent
import Desugar.Proofs.Faces
import Desugar.Proofs.Growth

/-!
# What a walk achieves

A transformer keeps a contract when each of its hooks, given a node whose parts
are settled, settles the node.  Then a walk over a file settles every node of
the file.  The nodes of a statement list, with their labels and declarations,
are settled by the hook for lists; until then they are only known to be fit for
it.
-/

namespace Desugar

def Node.All (property : Pass → Node → Prop) (p : Pass) (nodes : List Node) : Prop :=
  ∀ n ∈ nodes, property p n

namespace Node.All

variable {property : Pass → Node → Prop} {p q : Pass}

@[simp] theorem nil : All property p [] := by
  intro n hn
  cases hn

@[simp] theorem cons_iff {n : Node} {nodes : List Node} :
    All property p (n :: nodes) ↔ property p n ∧ All property p nodes :=
  List.forall_mem_cons

@[simp] theorem append_iff {first second : List Node} :
    All property p (first ++ second) ↔ All property p first ∧ All property p second :=
  List.forall_mem_append

end Node.All

namespace Stmt

def hasElse : Stmt → Bool
  | .ifElse _ _ _ _ els => els.isSome
  | _ => false

def TagIs (tagged : Option Expr → Prop) : Stmt → Prop
  | .switch _ _ tag _ => tagged tag
  | _ => True

end Stmt

open PassM (Yields)
open Node (All)

namespace Transformer

/-- The contract of a transformer in a walk from a given state.  Every node of
the file has the property `before`, and every declaration of the package has the
property `beforeTop`; the walk gives the nodes the property `after`.  A statement with
its labels and its declaration has the property `fit` when its list gets it. -/
structure Contract (t : Transformer) (expected : Fault → Prop) (env : PassEnv) (start : Pass)
    (before : Node → Prop) (beforeTop : Decl → Prop) (fit after : Pass → Node → Prop)
    (tagged : Option Expr → Prop) : Prop where
  fit_mono : ∀ {p q : Pass} {n : Node}, p.Grows q → fit p n → fit q n
  after_mono : ∀ {p q : Pass} {n : Node}, p.Grows q → after p n → after q n
  expr : ∀ {p : Pass} {e₀ e : Expr}, start.Grows p → before (.expr e₀) →
    e.outline = e₀.outline → All after p e.innerNodes →
    Yields expected env p (t.expr e) (fun e' q => e'.face = e₀.face ∧ All after q e'.nodes)
  decl : ∀ {p : Pass} {d₀ d : Decl} {top : Bool}, start.Grows p → before (.decl d₀ top) →
    (top = true → beforeTop d₀) → d.outline = d₀.outline → All after p (Specs.nodes d.specs) →
    Yields expected env p (t.decl d) (fun d' q => d'.id = d₀.id ∧ d'.kind = d₀.kind ∧
      fit q (.decl d' top) ∧ All after q (Specs.nodes d'.specs))
  top : ∀ {p : Pass} {d : Decl}, start.Grows p → fit p (.decl d true) → after p (.decl d true)
  stmt : ∀ {s : Stmt}, s.hasElse = false → t.stmt s = pure s
  branch : ∀ {p : Pass} {s₀ : Stmt} {id : NodeId} {init : Option Stmt} {cond : Expr}
    {body : Block} {els : Stmt}, start.Grows p → before (.stmt s₀) ∨ before (.header s₀) →
    (Stmt.ifElse id init cond body (some els)).face = s₀.face →
    All after p (OptStmt.headerNodes init ++ cond.nodes ++ body.nodes ++ els.deep) →
    All fit p (.stmt els :: els.attached) →
    Yields expected env p (t.stmt (.ifElse id init cond body (some els)))
      (fun s q => s.face = s₀.face ∧ s.TagIs tagged ∧ s.attached = [] ∧ All after q s.deep)
  list : ∀ {p : Pass} {owner : NodeId} {stmts : List Stmt}, start.Grows p →
    (∀ s ∈ stmts, All fit p (.stmt s :: s.attached) ∧ All after p s.deep) →
    Yields expected env p (t.list owner stmts) (fun stmts' q => All after q (Stmts.nodes stmts'))
  tag : ∀ {p : Pass} {id : NodeId} {init : Option Stmt} {clauses : List CaseClause},
    start.Grows p →
    before (.stmt (.switch id init none clauses)) ∨
      before (.header (.switch id init none clauses)) →
    Yields expected env p t.missingTag (fun tag q => tagged tag ∧ All after q (OptExpr.nodes tag))
  tagged_some : ∀ e : Expr, tagged (some e)
  keep : ∀ {p : Pass} {s₀ s : Stmt}, start.Grows p → before (.stmt s₀) → s.face = s₀.face →
    s.TagIs tagged → fit p (.stmt s)
  header : ∀ {p : Pass} {s₀ s : Stmt}, start.Grows p → before (.header s₀) → s.face = s₀.face →
    after p (.header s) ∧ s.attached = []
  block : ∀ {p : Pass} (b : Block), after p (.block b)
  func : ∀ {p : Pass} {fn₀ fn : Func}, start.Grows p → before (.func fn₀) →
    fn.outline = fn₀.outline → after p (.func fn)

end Transformer

def PassM.Logic.yields (expected : Fault → Prop) (env : PassEnv) : PassM.Logic where
  reach := Pass.Grows
  ensures p m post := Yields expected env p m post
  refl := .refl
  trans := .trans
  pure := .pure
  bind := .bind
  within hmono h := .within (fun a q r hqr _ _ _ => hmono a q r hqr) fun q hpq _ _ _ => h q hpq

namespace Transformer.Contract

variable {t : Transformer} {expected : Fault → Prop} {env : PassEnv} {start : Pass}
  {before : Node → Prop} {beforeTop : Decl → Prop} {fit after : Pass → Node → Prop}
  {tagged : Option Expr → Prop}

theorem all_mono (h : t.Contract expected env start before beforeTop fit after tagged) {p q : Pass}
    {nodes : List Node} (hgrows : p.Grows q) (hall : All after p nodes) : All after q nodes :=
  fun n hn => h.after_mono hgrows (hall n hn)

theorem all_fit_mono (h : t.Contract expected env start before beforeTop fit after tagged)
    {p q : Pass}
    {nodes : List Node} (hgrows : p.Grows q) (hall : All fit p nodes) : All fit q nodes :=
  fun n hn => h.fit_mono hgrows (hall n hn)

end Transformer.Contract

/-!
## Syntax that comes back from the walk
-/

namespace Form

def Alike : (f : Form) → f.Tree → f.Tree → Prop
  | .expr, e, e' => e'.face = e.face
  | .exprs, es, es' => es'.map Expr.face = es.map Expr.face
  | .optExpr, e, e' => e'.map Expr.face = e.map Expr.face
  | .stmt _, s, s' => s'.face = s.face
  | .optStmt true, s, s' => s'.map Stmt.elseFace = s.map Stmt.elseFace
  | .optStmt false, s, s' => s'.map Stmt.headerFace = s.map Stmt.headerFace
  | .block, b, b' => b'.id = b.id
  | .caseClause, c, c' => c'.id = c.id
  | .caseClauses, cs, cs' => (cs'.map fun c => CaseClause.mk c.id none []) =
      cs.map fun c => CaseClause.mk c.id none []
  | .typeClause, c, c' => c'.id = c.id ∧ c'.types = c.types
  | .typeClauses, cs, cs' => (cs'.map fun c => TypeClause.mk c.id c.types []) =
      cs.map fun c => TypeClause.mk c.id c.types []
  | .commClause, c, c' => c'.id = c.id ∧ c'.comm.map Stmt.headerFace = c.comm.map Stmt.headerFace
  | .commClauses, cs, cs' => (cs'.map fun c => CommClause.mk c.id (c.comm.map Stmt.headerFace) []) =
      cs.map fun c => CommClause.mk c.id (c.comm.map Stmt.headerFace) []
  | .decl _, d, d' => d'.id = d.id ∧ d'.kind = d.kind
  | .specs, all, all' => all'.map Spec.outline = all.map Spec.outline
  | .file, whole, whole' => whole'.id = whole.id
  | _, _, _ => True

def Outlined : (f : Form) → f.Tree → f.Tree → Prop
  | .expr, e, e' => e'.outline = e.outline
  | .decl _, d, d' => d'.outline = d.outline
  | .topDecl, .func fn, d' => ∃ fn', d' = .func fn' ∧ fn'.outline = fn.outline
  | f, x, x' => f.Alike x x'

def Tops (P : Decl → Prop) : (f : Form) → f.Tree → Prop
  | .decl true, d => P d
  | .topDecl, d' => ∀ d, d' = .decl d → P d
  | .topDecls, ds => ∀ d, .decl d ∈ ds → P d
  | .file, whole => ∀ d, .decl d ∈ whole.decls → P d
  | _, _ => True

def isPlain : Form → Bool
  | .stmt _ | .stmts | .list _ | .topDecl => false
  | .optStmt listed => !listed
  | _ => true

theorem Tops.parts {P : Decl → Prop} {f : Form} {x : f.Tree} (h : f.Tops P x) :
    Parts.All (fun f y => f.Tops P y) _ (f.makeup x).parts := by
  revert h
  fun_cases Form.makeup f x
  all_goals intro h
  all_goals simp_all [Form.makeup, Parts.All, Tops]

theorem outlined_make (f : Form) (x : f.Tree) (new : Parts (f.makeup x).forms)
    (h : Parts.All₂ Alike _ (f.makeup x).parts new) : f.Outlined x ((f.makeup x).make new) := by
  revert new
  fun_cases Form.makeup f x
  all_goals intro new h
  case case33 listed s =>
    cases listed with
    | true => exact congrArg some (Stmt.elseFace_eq_of_face_eq h.1)
    | false => exact congrArg some (Stmt.headerFace_eq_of_face_eq h.1)
  case case64 listed => cases listed <;> rfl
  all_goals simp only [Form.makeup, Outlined, Alike, Parts.All₂] at h ⊢
  case case27 =>
    simp only [Stmt.face, h.2.1, h.2.2.2.1, Stmt.headerFace_eq_of_face_eq h.2.2.1]
  all_goals simp_all [Expr.outline, Stmt.face, Spec.outline, Decl.outline, Func.outline]

end Form

namespace Transformer.Contract

variable {t : Transformer} {expected : Fault → Prop} {env : PassEnv} {start : Pass}
  {before : Node → Prop} {beforeTop : Decl → Prop} {fit after : Pass → Node → Prop}
  {tagged : Option Expr → Prop}

def Pending (fit after : Pass → Node → Prop) (q : Pass) (s : Stmt) : Prop :=
  All fit q (.stmt s :: s.attached) ∧ All after q s.deep

def Walked (fit after : Pass → Node → Prop) (tagged : Option Expr → Prop) (q : Pass) :
    (f : Form) → f.Tree → Prop
  | .stmt true, s => Pending fit after q s
  | .stmts, body => ∀ s ∈ body, Pending fit after q s
  | .optStmt true, s => ∀ els ∈ s, Pending fit after q els
  | .decl top, d => fit q (.decl d top) ∧ All after q (Specs.nodes d.specs)
  | .missingTag _ _ _ _, tag => tagged tag ∧ All after q (OptExpr.nodes tag)
  | f, x => All after q (f.nodes x)

theorem walked_mono (h : t.Contract expected env start before beforeTop fit after tagged)
    {p q : Pass} (hgrows : p.Grows q) {f : Form} {x : f.Tree}
    (hwalked : Walked fit after tagged p f x) : Walked fit after tagged q f x := by
  have hpending : ∀ s, Pending fit after p s → Pending fit after q s := fun s hs =>
    ⟨h.all_fit_mono hgrows hs.1, h.all_mono hgrows hs.2⟩
  revert hwalked
  unfold Walked
  split
  · exact hpending _
  · exact fun hall s hs => hpending s (hall s hs)
  · exact fun hall s hs => hpending s (hall s hs)
  · exact fun hd => ⟨h.fit_mono hgrows hd.1, h.all_mono hgrows hd.2⟩
  · exact fun htag => ⟨htag.1, h.all_mono hgrows htag.2⟩
  · exact h.all_mono hgrows

theorem made_stmt (htag : ∀ e : Expr, tagged (some e)) {q : Pass} {listed : Bool} {s : Stmt}
    {new : Parts ((Form.stmt listed).makeup s).forms}
    (hparts : Parts.All (Walked fit after tagged q) _ new) :
    let s' := ((Form.stmt listed).makeup s).make new
    s'.TagIs tagged ∧ (s'.hasElse = false → All fit q s'.attached ∧ All after q s'.deep) := by
  cases s
  case switch id init tag clauses =>
    cases tag <;> simp_all [Form.makeup, Parts.All, Walked, Stmt.attached, Stmt.deep, Stmt.parts,
      Stmt.TagIs, Form.nodes, OptStmt.headerNodes_eq, OptExpr.nodes]
  all_goals simp only [Form.makeup, Parts.All, Walked, Pending, Form.nodes] at hparts ⊢
  all_goals simp_all [Stmt.attached, Stmt.deep, Stmt.parts, Stmt.TagIs, Stmt.hasElse,
    OptStmt.headerNodes_eq, OptStmt.nodes, Form.nodes, Stmt.node]

theorem yields_stmt (h : t.Contract expected env start before beforeTop fit after tagged)
    {q : Pass} {listed : Bool} {s : Stmt} {new : Parts ((Form.stmt listed).makeup s).forms}
    (hq : start.Grows q) (hself : before (s.node listed))
    (halike : Parts.All₂ Form.Alike _ ((Form.stmt listed).makeup s).parts new)
    (hparts : Parts.All (Walked fit after tagged q) _ new) :
    Yields expected env q (t.stmt (((Form.stmt listed).makeup s).make new)) (fun s' r =>
      s'.face = s.face ∧ s'.TagIs tagged ∧ All fit r s'.attached ∧ All after r s'.deep) := by
  have hface := Form.outlined_make (.stmt listed) s new halike
  have hmade := made_stmt h.tagged_some hparts
  cases hels : (((Form.stmt listed).makeup s).make new).hasElse with
  | false =>
    rw [h.stmt hels]
    exact .pure ⟨hface, hmade.1, hmade.2 hels⟩
  | true =>
    cases s with
    | ifElse id init cond body els =>
      rcases new with ⟨_, init', cond', body', els', _⟩
      cases els' with
      | none => cases hels
      | some els' =>
        rcases hparts with ⟨_, hinit, hcond, hbody, hels', _⟩
        rcases hels' els' rfl with ⟨hfit, hdeep⟩
        have hself' : before (.stmt (.ifElse id init cond body els)) ∨
            before (.header (.ifElse id init cond body els)) := by
          cases listed with
          | true => exact .inl hself
          | false => exact .inr hself
        have hall :
            All after q (OptStmt.headerNodes init' ++ cond'.nodes ++ body'.nodes ++ els'.deep) := by
          rw [OptStmt.headerNodes_eq]
          exact All.append_iff.mpr
            ⟨All.append_iff.mpr ⟨All.append_iff.mpr ⟨hinit, hcond⟩, hbody⟩, hdeep⟩
        apply (h.branch hq hself' hface hall hfit).mono
        rintro s r _ ⟨hface', htag, hattached, hdeep'⟩
        exact ⟨hface', htag, hattached ▸ .nil, hdeep'⟩
    | switch id init tag clauses => cases tag <;> cases hels
    | _ => cases hels

theorem all_parts {s : Stmt} {p : Pass} (hattached : s.attached = [])
    (hdeep : All after p s.deep) : All after p s.parts := by
  intro n hn
  rcases (s.mem_parts_iff n).mp hn with hn | hn
  · rw [hattached] at hn
    cases hn
  · exact hdeep n hn

theorem all_inner {q : Pass} {f : Form} {x : f.Tree} {new : Parts (f.makeup x).forms}
    (hf : f.isPlain = true) (hparts : Parts.All (Walked fit after tagged q) _ new) :
    All after q (Parts.nodes _ new) := by
  revert new
  fun_cases Form.makeup f x
  all_goals intro new hparts
  case case33 listed s =>
    cases listed with
    | true => cases hf
    | false => exact Parts.forall_collect_iff.mpr hparts
  all_goals first
    | exact Parts.forall_collect_iff.mpr hparts
    | cases hf

theorem all_plain {q : Pass} {f : Form} {x : f.Tree} {new : Parts (f.makeup x).forms}
    (hf : f.isPlain = true) (hparts : Parts.All (Walked fit after tagged q) _ new)
    (hown : All after q (f.own ((f.makeup x).make new))) :
    All after q (f.nodes ((f.makeup x).make new)) := by
  intro n hn
  rcases List.mem_append.mp ((f.nodes_make x new).mem_iff.mp hn) with hn | hn
  · exact hown n hn
  · exact all_inner hf hparts n hn

theorem yields_hook (h : t.Contract expected env start before beforeTop fit after tagged)
    {q : Pass} {f : Form} {x : f.Tree} {new : Parts (f.makeup x).forms}
    (hq : start.Grows q) (hx : f.Holds before x) (htop : f.Tops beforeTop x)
    (halike : Parts.All₂ Form.Alike _ (f.makeup x).parts new)
    (hparts : Parts.All (Walked fit after tagged q) _ new) :
    Yields expected env q (f.hook t ((f.makeup x).make new)) (fun x' r =>
      f.Alike x x' ∧ Walked fit after tagged r f x') := by
  have hown : ∀ n ∈ f.own x, n ∈ f.nodes x := fun n hn => (f.mem_nodes_iff x n).mpr (.inl hn)
  have hout := f.outlined_make x new halike
  cases f with
  | expr =>
    refine h.expr hq (hx _ (hown _ (.head _))) hout fun n hn => all_inner rfl hparts n ?_
    have hperm := Form.nodes_make .expr x new
    rw [Form.nodes, Expr.nodes_eq] at hperm
    exact hperm.cons_inv.mem_iff.mp hn
  | stmt listed =>
    have hself := hx _ (hown _ (.head _))
    apply (h.yields_stmt hq hself halike hparts).mono
    rintro s r hr ⟨hface, htag, hattached, hdeep⟩
    refine ⟨hface, ?_⟩
    cases listed with
    | true => exact ⟨All.cons_iff.mpr ⟨h.keep (hq.trans hr) hself hface htag, hattached⟩, hdeep⟩
    | false =>
      have hheader := h.header (hq.trans hr) hself hface
      exact All.cons_iff.mpr ⟨hheader.1, all_parts hheader.2 hdeep⟩
  | decl top =>
    rcases x with ⟨id, kind, specs⟩
    have hbefore : top = true → beforeTop ⟨id, kind, specs⟩ := by
      rintro rfl
      exact htop
    apply (h.decl hq (hx _ (hown _ (.head _))) hbefore hout hparts.1).mono
    exact fun d r _ hd => ⟨⟨hd.1, hd.2.1⟩, hd.2.2⟩
  | list owner => exact (h.list hq hparts.1).mono fun body r _ hbody => ⟨trivial, hbody⟩
  | missingTag listed id init clauses =>
    have hself : before (.stmt (.switch id init none clauses)) ∨
        before (.header (.switch id init none clauses)) := by
      cases listed with
      | true => exact .inl hx.2
      | false => exact .inr hx.2
    exact (h.tag hq hself).mono fun tag r _ htag => ⟨trivial, htag⟩
  | stmts =>
    refine .pure ⟨trivial, ?_⟩
    cases x with
    | nil => rintro _ ⟨⟩
    | cons s rest => exact List.forall_mem_cons.mpr ⟨hparts.1, hparts.2.1⟩
  | topDecl =>
    refine .pure ⟨trivial, ?_⟩
    cases x with
    | decl d =>
      rcases hparts with ⟨⟨hfit, hall⟩, _⟩
      rcases new with ⟨⟨id, kind, specs⟩, _⟩
      exact All.cons_iff.mpr ⟨h.top hq hfit, hall⟩
    | func fn =>
      have hfunc : before (.func fn) := hx _ (.head _)
      rcases fn with ⟨id, name, recv, sig, _ | body⟩
      · exact All.cons_iff.mpr ⟨h.func hq hfunc rfl, .nil⟩
      · rcases hout with ⟨fn', hfn, hout⟩
        cases hfn
        exact All.cons_iff.mpr ⟨h.func hq hfunc hout, hparts.2.1⟩
  | block => exact .pure ⟨hout, all_plain rfl hparts (All.cons_iff.mpr ⟨h.block _, .nil⟩)⟩
  | optStmt listed =>
    refine .pure ⟨hout, ?_⟩
    cases listed with
    | false => exact all_plain rfl hparts .nil
    | true =>
      cases x with
      | none => rintro _ ⟨⟩
      | some s =>
        intro els hels
        cases hels
        exact hparts.1
  | _ => exact .pure ⟨hout, all_plain rfl hparts .nil⟩

theorem walks (h : t.Contract expected env start before beforeTop fit after tagged) :
    t.Walks (.yields expected env)
      (fun f x p => start.Grows p ∧ f.Holds before x ∧ f.Tops beforeTop x)
      (fun f x x' _ q => f.Alike x x' ∧ Walked fit after tagged q f x') where
  pre_mono hpq hpre := ⟨hpre.1.trans hpq, hpre.2⟩
  earlier _ _ hpost := hpost
  later hqr hpost := ⟨hpost.1, h.walked_mono hqr hpost.2⟩
  parts hpre := (hpre.2.1.parts.and hpre.2.2.parts).mono fun _ _ hy => ⟨hpre.1, hy⟩
  hook := by
    intro f x p q new hpre hpq hchain
    have halike : Parts.All₂ Form.Alike _ _ new := hchain.all₂ fun _ _ _ _ _ hpost => hpost.1
    have hparts := hchain.all (P := Walked fit after tagged) Pass.Grows.trans
      (fun hqr => h.walked_mono hqr) fun _ _ _ _ _ hpost => hpost.2
    exact h.yields_hook (hpre.1.trans hpq) hpre.2.1 hpre.2.2 halike hparts.2

theorem walk_file (h : t.Contract expected env start before beforeTop fit after tagged)
    (file : File) {p : Pass} (hp : start.Grows p) (hb : ∀ n ∈ file.nodes, before n)
    (htop : ∀ d, .decl d ∈ file.decls → beforeTop d) :
    Yields expected env p (file.transform t) (fun file' q =>
      file'.id = file.id ∧ All after q file'.nodes) :=
  h.walks.ensures .file file ⟨hp, hb, htop⟩

theorem run (h : t.Contract expected env start before beforeTop fit after tagged) {p : Pass}
    (hp : start.Grows p) (hb : ∀ n ∈ p.file.nodes, before n)
    (htop : ∀ d, .decl d ∈ p.file.decls → beforeTop d) :
    Yields expected env p t.run (fun _ q =>
      q.file.id = p.file.id ∧ All after q q.file.nodes) := by
  have hstart : p.Grows { p with scopes := .empty, changes := 0 } := .of_same_record rfl rfl rfl
  refine .step (PassM.exec_startWalk env p) hstart ?_
  refine .look (PassM.exec_getFile env _) ?_
  apply (h.walk_file p.file (hp.trans hstart) hb htop).bind
  intro file q hq hfile
  have hset : q.Grows { q with file := file } := .of_same_record rfl rfl rfl
  refine .step (PassM.exec_setFile file env q) hset ?_
  refine .look (PassM.exec_get env _) (.pure ?_)
  exact ⟨hfile.1, h.all_mono hset hfile.2⟩

end Transformer.Contract
end Desugar
