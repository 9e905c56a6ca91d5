import Desugar.Proofs.Descent
import Desugar.Proofs.Faces
import Desugar.Proofs.Renewal

/-!
# Walks that renew

When each hook of a transformer renews the inventory of the node it gets, a walk
over a file renews the inventory of the file.  What surrounds a changed part
looks as before: an expression keeps its identity, a list its length.
-/

namespace Desugar

open PassM (Leaves Replaces)

/-!
## Nodes with their parts
-/

def Stmt.inventoryAt (listed : Bool) (s : Stmt) : Multiset Entry :=
  {⟨s.id, s.kind listed⟩} + (plainEntries s.clauseIds : Multiset Entry) + inventory s.parts

theorem Stmts.inventory_singleton_eq (s : Stmt) :
    inventory (Stmts.nodes [s]) = s.inventoryAt true :=
  Stmts.inventory_singleton s

theorem inventory_stmt (s : Stmt) : inventory (.stmt s :: s.parts) = s.inventoryAt true :=
  inventory_cons _ _

theorem inventory_header (s : Stmt) : inventory (.header s :: s.parts) = s.inventoryAt false :=
  inventory_cons _ _

theorem OptStmt.inventory_headerNodes_some (s : Stmt) :
    inventory (OptStmt.headerNodes (some s)) = s.inventoryAt false :=
  inventory_header s

theorem Stmt.inventoryAt_of_clauseIds {s : Stmt} (h : s.clauseIds = []) (listed : Bool) :
    s.inventoryAt listed = {⟨s.id, s.kind listed⟩} + inventory s.parts := by
  unfold Stmt.inventoryAt
  rw [h]
  show _ + 0 + _ = _
  rw [add_zero]

theorem inventory_block (id blockId : NodeId) (stmts : List Stmt) :
    inventory (Stmts.nodes [.block id ⟨blockId, stmts⟩]) =
      {⟨id, .plain⟩} + {⟨blockId, .plain⟩} + inventory (Stmts.nodes stmts) := by
  rw [Stmts.inventory_singleton, Stmt.parts, Block.nodes, inventory_cons, ← add_assoc]
  rfl

theorem inventory_assign (node : NodeId) (op : AssignOp) (lhs rhs : List Expr) :
    inventory (Stmts.nodes [.assign node lhs op rhs]) =
      {⟨node, (Stmt.assign node lhs op rhs).kind true⟩} +
        (inventory (Exprs.nodes lhs) + inventory (Exprs.nodes rhs)) := by
  rw [Stmts.inventory_singleton_eq, Stmt.inventoryAt_of_clauseIds rfl, Stmt.parts,
    inventory_append]
  rfl

theorem Decl.inventory_top (d : Decl) :
    inventory (d.nodes true) = inventory (d.nodes false) := by
  cases d
  rfl

theorem TopDecls.inventory_eq_sum (decls : List TopDecl) :
    inventory (decls.flatMap TopDecl.nodes) = (decls.map fun d => inventory d.nodes).sum := by
  induction decls with
  | nil => rfl
  | cons d rest ih =>
    rw [List.flatMap_cons, inventory_append, ih]
    rfl

def Stmt.Softens (lib : Liberty) (keeps : Property → Prop) (s s' : Stmt) : Prop :=
  s'.clauseIds = s.clauseIds ∧ ∀ listed p, Renews lib keeps p p {⟨s.id, s.kind listed⟩}
    {⟨s'.id, s'.kind listed⟩}

namespace Renews

variable {lib : Liberty} {keeps : Property → Prop} {p q : Pass}

theorem stmt {s s' : Stmt} (hhead : s.Softens lib keeps s')
    (hparts : Renews lib keeps p q (inventory s.parts) (inventory s'.parts)) (listed : Bool) :
    Renews lib keeps p q (s.inventoryAt listed) (s'.inventoryAt listed) := by
  unfold Stmt.inventoryAt
  rw [hhead.1]
  exact ((hhead.2 listed p).add (refl p _)).add hparts

end Renews

theorem Stmt.Softens.of_eq {lib : Liberty} {keeps : Property → Prop} {s s' : Stmt}
    (hid : s'.id = s.id) (hkind : ∀ listed, s'.kind listed = s.kind listed)
    (hclauses : s'.clauseIds = s.clauseIds) : s.Softens lib keeps s' := by
  refine ⟨hclauses, fun listed p => ?_⟩
  rw [hid, hkind]
  exact .refl p _

/-!
## The walk
-/

/-- A transformer whose hooks renew the nodes they get, in a walk from a given
state. -/
structure Transformer.Renewing (t : Transformer) (lib : Liberty) (keeps : Property → Prop)
    (env : PassEnv) (start : Pass) : Prop where
  expr : ∀ {p : Pass} (e : Expr), start.Evolves lib p → Leaves lib env p (t.expr e) (fun e' q =>
    e'.id = e.id ∧ Renews lib keeps p q (inventory e.nodes) (inventory e'.nodes))
  stmt : ∀ {p : Pass} (s : Stmt), start.Evolves lib p → Leaves lib env p (t.stmt s) (fun s' q =>
    s'.operands = s.operands ∧
      ∀ listed, Renews lib keeps p q (s.inventoryAt listed) (s'.inventoryAt listed))
  decl : ∀ {p : Pass} (d : Decl), start.Evolves lib p → Leaves lib env p (t.decl d) (fun d' q =>
    Renews lib keeps p q (inventory (d.nodes false)) (inventory (d'.nodes false)))
  list : ∀ {p : Pass} (owner : NodeId) (stmts : List Stmt), start.Evolves lib p →
    Leaves lib env p (t.list owner stmts) (fun stmts' q =>
      Renews lib keeps p q (inventory (Stmts.nodes stmts)) (inventory (Stmts.nodes stmts')))
  tag : ∀ {p : Pass}, start.Evolves lib p → Replaces lib keeps env p t.missingTag
    0 (fun tag => inventory (OptExpr.nodes tag))

def Form.Keeps : (f : Form) → f.Tree → f.Tree → Prop
  | .expr, e, e' => e'.id = e.id
  | .exprs, es, es' => es'.length = es.length
  | .optExpr, e, e' => e'.isSome = e.isSome
  | .stmt _, s, s' => s'.operands = s.operands
  | .optStmt _, s, s' => s'.isSome = s.isSome ∧ OptStmt.operands s' = OptStmt.operands s
  | .block, b, b' => b'.id = b.id
  | .caseClause, c, c' => c'.id = c.id
  | .caseClauses, cs, cs' => cs'.map CaseClause.id = cs.map CaseClause.id
  | .typeClause, c, c' => c'.id = c.id
  | .typeClauses, cs, cs' => cs'.map TypeClause.id = cs.map TypeClause.id
  | .commClause, c, c' => c'.id = c.id
  | .commClauses, cs, cs' => cs'.map CommClause.id = cs.map CommClause.id
  | .specs, all, all' =>
    ∀ isVar, all'.flatMap (Spec.entries isVar) = all.flatMap (Spec.entries isVar)
  | .file, whole, whole' => whole'.id = whole.id
  | _, _, _ => True

theorem Form.Keeps.trans {f : Form} {x x' x'' : f.Tree} (h : f.Keeps x x') (h' : f.Keeps x' x'') :
    f.Keeps x x'' := by
  cases f with
  | specs => exact fun isVar => (h' isVar).trans (h isVar)
  | optStmt => exact ⟨h'.1.trans h.1, h'.2.trans h.2⟩
  | missingTag | stmts | list | decl | topDecl | topDecls | scope => trivial
  | _ => exact Eq.trans h' h

theorem List.isEmpty_eq_of_length_eq {α : Type} {as bs : List α} (h : as.length = bs.length) :
    as.isEmpty = bs.isEmpty := by
  cases as <;> cases bs <;> simp_all

theorem Form.keeps_make (f : Form) (x : f.Tree) (new : Parts (f.makeup x).forms)
    (h : Parts.All₂ Form.Keeps _ (f.makeup x).parts new) : f.Keeps x ((f.makeup x).make new) := by
  revert new
  fun_cases Form.makeup f x
  all_goals intro new h
  case case44 =>
    intro isVar
    simp [Form.makeup, Spec.entries, ValueSpec.kind, h.2.1 isVar, List.isEmpty_eq_of_length_eq h.1]
  all_goals simp_all [Form.makeup, Form.Keeps, Parts.All₂, Expr.id, OptStmt.operands,
    Stmt.operands]

theorem Stmt.entries_node (listed : Bool) (s : Stmt) :
    (s.node listed).entries = ⟨s.id, s.kind listed⟩ :: plainEntries s.clauseIds := by
  cases listed <;> rfl

theorem Form.own_make (f : Form) (x : f.Tree) (new : Parts (f.makeup x).forms)
    (h : Parts.All₂ Form.Keeps _ (f.makeup x).parts new) (lib : Liberty) (keeps : Property → Prop)
    (p : Pass) :
    Renews lib keeps p p (inventory (f.own x)) (inventory (f.own ((f.makeup x).make new))) := by
  revert new
  fun_cases Form.makeup f x
  all_goals intro new h
  case case25 listed id init clauses =>
    -- The tag can only have been supplied.
    simp only [Form.makeup, Form.own, inventory_cons, Stmt.entries_node] at h ⊢
    simp only [Form.Keeps, Parts.All₂] at h
    simp only [Stmt.kind, Stmt.clauseIds, h, Stmt.id, ← Multiset.cons_coe, ← Multiset.singleton_add]
    refine Renews.add (.add (.change (by rintro ⟨⟩) (by rintro _ ⟨⟩) ?_) (.refl p _)) (.refl p _)
    intro property _ hspared
    cases property with
    | noControlInit => exact .of_blind rfl hspared.intact
    | explicitDiscard => exact ⟨hspared.known, hspared.intact⟩
    | taggedSwitch =>
      exact .of_blind rfl fun _ _ => by cases hspared.intact p (.refl p)
    | _ => exact .of_blind rfl fun _ _ => rfl
  case case11 id op x => cases op <;> exact .refl p _
  all_goals refine Renews.cast (.refl p _) rfl ?_
  all_goals simp only [Form.makeup, Form.own, Form.Keeps, Parts.All₂, inventory_cons,
    Stmt.entries_node] at h ⊢
  all_goals first
    | rfl
    | simp only [Node.entries, Expr.kind, Stmt.kind, Stmt.clauseIds, h]
      rfl

theorem Parts.renews_of_chain {lib : Liberty} {keeps : Property → Prop} {fs : List Form}
    {old new : Parts fs} {p q : Pass}
    (h : Parts.Chain (Pass.Evolves lib) (fun f x x' p q => f.Keeps x x' ∧
      Renews lib keeps p q (inventory (f.nodes x)) (inventory (f.nodes x'))) fs old new p q) :
    Renews lib keeps p q (inventory (Parts.nodes fs old)) (inventory (Parts.nodes fs new)) := by
  induction fs generalizing p with
  | nil => exact .stay h _
  | cons f fs ih =>
    rcases h with ⟨r, _, hfirst, hrest⟩
    exact (hfirst.2.add (ih hrest)).cast (inventory_append _ _) (inventory_append _ _)

def PassM.Logic.leaves (lib : Liberty) (env : PassEnv) : PassM.Logic where
  reach := Pass.Evolves lib
  ensures p m post := Leaves lib env p m post
  refl := .refl
  trans := .trans
  pure := .pure
  bind := .bind
  within hmono h := .within (fun a q r hqr _ _ _ => hmono a q r hqr) fun q hq _ _ _ => h q hq

namespace Transformer.Renewing

variable {t : Transformer} {lib : Liberty} {keeps : Property → Prop} {env : PassEnv}
  {start : Pass}

theorem leaves_hook (h : t.Renewing lib keeps env start) (f : Form) (x : f.Tree) {p : Pass}
    (hp : start.Evolves lib p) (htag : f.Holds (fun _ => True) x) :
    Leaves lib env p (f.hook t x) (fun x' q => f.Keeps x x' ∧
      Renews lib keeps p q (inventory (f.nodes x)) (inventory (f.nodes x'))) := by
  cases f with
  | expr => exact h.expr x hp
  | stmt listed =>
    apply (h.stmt x hp).mono
    intro s q _ hs
    have hlisted := hs.2 listed
    cases listed with
    | true => exact ⟨hs.1, hlisted.cast (inventory_stmt x) (inventory_stmt s)⟩
    | false => exact ⟨hs.1, hlisted.cast (inventory_header x) (inventory_header s)⟩
  | decl top =>
    apply (h.decl x hp).mono
    intro d q _ hd
    cases top with
    | true => exact ⟨trivial, hd.cast x.inventory_top d.inventory_top⟩
    | false => exact ⟨trivial, hd⟩
  | list owner => exact (h.list owner x hp).mono fun body q _ hbody => ⟨trivial, hbody⟩
  | missingTag listed id init clauses =>
    rcases htag with ⟨rfl, _⟩
    exact (h.tag hp).mono fun tag q _ htag => ⟨trivial, htag⟩
  | _ => exact .pure ⟨by simp [Form.Keeps], .refl p _⟩

theorem walks (h : t.Renewing lib keeps env start) :
    t.Walks (.leaves lib env)
      (fun f x p => start.Evolves lib p ∧ f.Holds (fun _ => True) x)
      (fun f x x' p q => f.Keeps x x' ∧
        Renews lib keeps p q (inventory (f.nodes x)) (inventory (f.nodes x'))) where
  pre_mono hpq hpre := ⟨hpre.1.trans hpq, hpre.2⟩
  earlier _ hpq hpost := ⟨hpost.1, (Renews.stay hpq _).trans hpost.2⟩
  later hqr hpost := ⟨hpost.1, hpost.2.trans (.stay hqr _)⟩
  parts hpre := hpre.2.parts.mono fun _ _ hy => ⟨hpre.1, hy⟩
  hook := by
    intro f x p q new hpre hpq hchain
    have hkeeps : Parts.All₂ Form.Keeps _ _ new := hchain.all₂ fun _ _ _ _ _ hpost => hpost.1
    have hparts := Parts.renews_of_chain hchain
    have hmade : Renews lib keeps p q (inventory (f.nodes x))
        (inventory (f.nodes ((f.makeup x).make new))) := by
      have hold := inventory_perm (f.nodes_make x (f.makeup x).parts)
      have hnew := inventory_perm (f.nodes_make x new)
      rw [f.make_parts, inventory_append] at hold
      rw [inventory_append] at hnew
      rw [hold, hnew]
      exact (f.own_make x new hkeeps lib keeps p).add hparts
    have htag : f.Holds (fun _ => True) ((f.makeup x).make new) := by
      cases f with
      | missingTag listed id init clauses => exact hpre.2
      | _ => exact fun _ _ => trivial
    apply (h.leaves_hook f _ (hpre.1.trans hpq) htag).mono
    rintro x' r _ ⟨hkept, hrenews⟩
    exact ⟨(f.keeps_make x new hkeeps).trans hkept, hmade.trans hrenews⟩

theorem walk_file (h : t.Renewing lib keeps env start) (file : File) {p : Pass}
    (hp : start.Evolves lib p) :
    Leaves lib env p (file.transform t) (fun file' q => file'.id = file.id ∧
      Renews lib keeps p q (inventory file.nodes) (inventory file'.nodes)) :=
  h.walks.ensures .file file ⟨hp, fun _ _ => trivial⟩

theorem leaves_run {p : Pass} (h : t.Renewing lib keeps env p) :
    Leaves lib env p t.run (fun _ q => q.file.id = p.file.id ∧
      Renews lib keeps p q (inventory p.file.nodes) (inventory q.file.nodes)) := by
  have hstart : p.Evolves lib { p with scopes := .empty, changes := 0 } :=
    .of_same_record rfl rfl rfl
  refine .step (PassM.exec_startWalk env p) hstart ?_
  refine .look (PassM.exec_getFile env _) ?_
  refine (h.walk_file p.file hstart).bind fun file q hq hfile => ?_
  have hset : q.Evolves lib { q with file := file } := .of_same_record rfl rfl rfl
  refine .step (PassM.exec_setFile file env q) hset ?_
  refine .look (PassM.exec_get env _) (.pure ⟨hfile.1, ?_⟩)
  exact ((Renews.stay hstart _).trans hfile.2).trans (.stay hset _)

end Transformer.Renewing

/-!
## Hooks
-/

namespace Transformer

variable {t : Transformer} {lib : Liberty} {keeps : Property → Prop} {env : PassEnv} {p : Pass}

theorem leaves_splice {replace : Stmt → PassM (Option (List Stmt))} (stmts : List Stmt)
    (h : ∀ s ∈ stmts, ∀ q, p.Evolves lib q → Replaces lib keeps env q (replace s)
      (inventory (Stmts.nodes [s])) (fun found => inventory (Stmts.nodes (found.getD [s])))) :
    Leaves lib env p (splice replace stmts) (fun stmts' q =>
      Renews lib keeps p q (inventory (Stmts.nodes stmts)) (inventory (Stmts.nodes stmts'))) := by
  induction stmts generalizing p with
  | nil => exact .pure (.refl p _)
  | cons s rest ih =>
    rw [splice]
    refine (h s (.head _) p (.refl p)).bind fun found q hq hfound => ?_
    have hrest : ∀ r, p.Evolves lib r → Leaves lib env r (splice replace rest)
        (fun rest' u => Renews lib keeps r u (inventory (Stmts.nodes rest))
          (inventory (Stmts.nodes rest'))) :=
      fun r hr => ih fun a ha u hu => h a (.tail _ ha) u (hr.trans hu)
    cases found with
    | none =>
      refine (hrest q hq).bind fun rest' r _ hrest' => .pure ?_
      exact (hfound.add hrest').cast (Stmts.inventory_cons s rest) (Stmts.inventory_cons s rest')
    | some stmts' =>
      have hcount : q.Evolves lib _ := .counted q
      refine .step (PassM.exec_countChange env q) hcount ?_
      refine (hrest _ (hq.trans hcount)).bind fun rest' r _ hrest' => .pure ?_
      refine ((hfound.trans (.stay hcount _)).add hrest').cast (Stmts.inventory_cons s rest) ?_
      exact Stmts.inventory_append stmts' rest'

theorem Renewing.of_list (hexpr : t.expr = pure) (hstmt : t.stmt = pure) (hdecl : t.decl = pure)
    (htag : t.missingTag = pure none)
    (hlist : ∀ {q : Pass} (owner : NodeId) (stmts : List Stmt), p.Evolves lib q →
      Leaves lib env q (t.list owner stmts) (fun stmts' r =>
        Renews lib keeps q r (inventory (Stmts.nodes stmts)) (inventory (Stmts.nodes stmts')))) :
    t.Renewing lib keeps env p where
  expr e _ := by
    rw [hexpr]
    exact .pure ⟨rfl, .refl _ _⟩
  stmt s _ := by
    rw [hstmt]
    exact .pure ⟨rfl, fun _ => .refl _ _⟩
  decl d _ := by
    rw [hdecl]
    exact .pure (.refl _ _)
  list owner stmts hq := hlist owner stmts hq
  tag _ := by
    rw [htag]
    exact .pure (.refl _ _)

end Transformer
end Desugar
