import Desugar.Proofs.Descent

/-!
# The layout of a tree

How the nodes of a tree hang together.  With a node come its parts, the nodes
show all identities of the tree and no others, and a statement in a header
belongs to the statement whose header it is.
-/

namespace Desugar

def Node.shownIds : Node → List NodeId
  | .expr e => e.shownIds
  | .stmt s => s.shownIds
  | .header s => s.shownIds
  | .decl d _ => d.shownIds
  | .func fn => fn.shownIds
  | .block _ => []

def Node.parts : Node → List Node
  | .expr e => e.innerNodes
  | .stmt s => s.parts
  | .header s => s.parts
  | .decl d _ => Specs.nodes d.specs
  | .func fn => fn.body.elim [] Block.nodes
  | .block b => Stmts.nodes b.stmts

def Stmt.headers : Stmt → List Stmt
  | .ifElse _ init _ _ _ => init.toList
  | .switch _ init _ _ => init.toList
  | .typeSwitch _ init guard _ => init.toList ++ [guard]
  | .select _ clauses => clauses.filterMap CommClause.comm
  | .forLoop _ init _ post _ => init.toList ++ post.toList
  | _ => []

/-- The nodes of a piece of a tree with some identities.  Headers belong to a
statement among the nodes or are given from outside; the identities are shown by
the nodes or outside. -/
structure Node.Layout (outer : List Stmt) (shown ids : List NodeId) (nodes : List Node) :
    Prop where
  closed : ∀ n ∈ nodes, n.parts ⊆ nodes
  owned : ∀ s, .header s ∈ nodes → s ∈ outer ∨
    ∃ n ∈ nodes, ∃ owner, n.stmt? = some owner ∧ s ∈ owner.headers
  inside : ∀ n ∈ nodes, ∀ id ∈ n.shownIds, id ∈ ids
  covered : ∀ id ∈ ids, id ∈ shown ∨ ∃ n ∈ nodes, id ∈ n.shownIds

namespace Form

def headers : (f : Form) → f.Tree → List Stmt
  | .stmt listed, s => bif listed then [] else [s]
  | .optStmt listed, s => bif listed then [] else s.toList
  | .commClause, c => c.comm.toList
  | .commClauses, cs => cs.filterMap CommClause.comm
  | _, _ => []

def handles : (f : Form) → f.Tree → List NodeId
  | .expr, e => [e.id]
  | .block, b => [b.id]
  | .caseClause, c => [c.id]
  | .caseClauses, cs => cs.map CaseClause.id
  | .typeClause, c => [c.id]
  | .typeClauses, cs => cs.map TypeClause.id
  | .commClause, c => [c.id]
  | .commClauses, cs => cs.map CommClause.id
  | .specs, all => all.flatMap Spec.shownIds
  | .file, whole => [whole.id]
  | _, _ => []

def shown : (f : Form) → f.Tree → List NodeId
  | .expr, _ => []
  | f, x => f.handles x

end Form

theorem Expr.id_mem_ids (e : Expr) : e.id ∈ e.ids := by
  cases e <;> exact .head _

theorem Stmt.stmt?_node (listed : Bool) (s : Stmt) : (s.node listed).stmt? = some s := by
  cases listed <;> rfl

theorem Stmt.shownIds_node (listed : Bool) (s : Stmt) : (s.node listed).shownIds = s.shownIds := by
  cases listed <;> rfl

theorem Node.shownIds_expr (e : Expr) : (Node.expr e).shownIds = e.shownIds := rfl

theorem Node.shownIds_decl (d : Decl) (top : Bool) :
    (Node.decl d top).shownIds = d.id :: d.specs.flatMap Spec.shownIds := rfl

theorem Node.parts_subset_own {f : Form} {x : f.Tree} (h : f.Holds (fun _ => True) x) {n : Node}
    (hn : n ∈ f.own x) : n.parts ⊆ f.nodes x := by
  cases f with
  | expr =>
    cases List.mem_singleton.mp hn
    rw [Form.nodes, Expr.nodes_eq]
    exact List.subset_cons_self _ _
  | stmt listed =>
    cases List.mem_singleton.mp hn
    cases listed <;> exact List.subset_cons_self _ _
  | block | decl top =>
    cases x
    cases List.mem_singleton.mp hn
    exact List.subset_cons_self _ _
  | topDecl =>
    cases x with
    | decl d => cases hn
    | func fn =>
      cases List.mem_singleton.mp hn
      exact List.subset_cons_self _ _
  | missingTag listed id init clauses =>
    cases h.1
    cases hn
  | _ => cases hn

namespace Form

theorem headers_parts (f : Form) (x : f.Tree) :
    ∀ s ∈ Parts.collect Form.headers _ (f.makeup x).parts, s ∈ f.headers x ∨
      ∃ n ∈ f.own x, ∃ owner, n.stmt? = some owner ∧ s ∈ owner.headers := by
  fun_cases Form.makeup f x
  all_goals simp [Form.makeup, Parts.collect, Form.headers, Form.own, Stmt.stmt?_node, Stmt.headers]
  all_goals grind

theorem shown_parts {f : Form} {x : f.Tree} (h : f.Holds (fun _ => True) x) :
    ∀ id ∈ f.ownIds x ++ Parts.collect Form.shown _ (f.makeup x).parts, id ∈ f.shown x ∨
      ∃ n ∈ f.own x, id ∈ n.shownIds := by
  revert h
  fun_cases Form.makeup f x
  all_goals intro h
  case case65 =>
    cases h.1
    rintro _ ⟨⟩
  all_goals simp [Form.makeup, Parts.collect, Form.shown, Form.handles, Form.own, Form.ownIds,
    Stmt.shownIds_node, Node.shownIds_expr, Node.shownIds_decl, Expr.shownIds, Expr.boundIds,
    Expr.id, Stmt.id, Stmt.shownIds]
  all_goals grind [Node.shownIds, Func.shownIds]

theorem handles_own {f : Form} {x : f.Tree} (h : f.Holds (fun _ => True) x) :
    ∀ id ∈ f.handles x ++ (f.own x).flatMap Node.shownIds,
      id ∈ f.ownIds x ++ Parts.collect Form.handles _ (f.makeup x).parts := by
  revert h
  fun_cases Form.makeup f x
  all_goals intro h
  case case65 =>
    cases h.1
    rintro _ ⟨⟩
  all_goals simp only [Form.makeup, Parts.collect, Form.handles, Form.own, Form.ownIds,
    Stmt.shownIds_node, Node.shownIds_expr, Node.shownIds_decl, List.flatMap_singleton,
    Expr.shownIds, Stmt.id, Stmt.shownIds]
  all_goals grind [Expr.id, Expr.boundIds, Node.shownIds, Func.shownIds]

theorem header_own {f : Form} {x : f.Tree} (h : f.Holds (fun _ => True) x) {s : Stmt}
    (hs : .header s ∈ f.own x) : s ∈ f.headers x := by
  cases f with
  | stmt listed =>
    cases listed with
    | true => cases List.mem_singleton.mp hs
    | false =>
      cases List.mem_singleton.mp hs
      exact .head _
  | missingTag listed id init clauses =>
    cases h.1
    cases hs
  | topDecl =>
    cases x with
    | decl d => cases hs
    | func fn => cases List.mem_singleton.mp hs
  | expr | block | decl top => cases List.mem_singleton.mp hs
  | _ => cases hs

theorem mem_ids_iff (f : Form) (x : f.Tree) (id : NodeId) :
    id ∈ f.ids x ↔ id ∈ f.ownIds x ∨ id ∈ Parts.collect Form.ids _ (f.makeup x).parts := by
  rw [(f.ids_perm x).mem_iff, List.mem_append]

end Form

theorem Parts.mem_collect {α : Type} {all : (f : Form) → f.Tree → List α}
    {P : (f : Form) → f.Tree → Prop} {a : α} : ∀ {fs : List Form} {parts : Parts fs},
    a ∈ Parts.collect all fs parts → Parts.All P fs parts → ∃ f y, a ∈ all f y ∧ P f y ∧
      ∀ {β : Type} (other : (f : Form) → f.Tree → List β), other f y ⊆ Parts.collect other fs parts
  | f :: fs, parts, ha, hparts => by
    rcases List.mem_append.mp ha with ha | ha
    · exact ⟨f, parts.1, ha, hparts.1, fun _ => List.subset_append_left _ _⟩
    · rcases mem_collect ha hparts.2 with ⟨g, y, hy, hP, hall⟩
      exact ⟨g, y, hy, hP, fun other => List.subset_append_of_subset_right _ (hall other)⟩

theorem Form.layout (f : Form) (x : f.Tree) (h : f.Holds (fun _ => True) x) :
    Node.Layout (f.headers x) (f.shown x) (f.ids x) (f.nodes x) ∧ f.handles x ⊆ f.ids x := by
  induction f, x using Form.induction with
  | h f x ih =>
    have ih := (ih.and h.parts).mono fun _ _ hy => hy.1 hy.2
    have hnodes : Parts.nodes _ (f.makeup x).parts ⊆ f.nodes x := fun n hn =>
      (f.mem_nodes_iff x n).mpr (.inr hn)
    have hown : f.own x ⊆ f.nodes x := fun n hn => (f.mem_nodes_iff x n).mpr (.inl hn)
    have hids : Parts.collect Form.ids _ (f.makeup x).parts ⊆ f.ids x := fun id hid =>
      (f.mem_ids_iff x id).mpr (.inr hid)
    have hhandles : ∀ id ∈ f.handles x ++ (f.own x).flatMap Node.shownIds, id ∈ f.ids x := by
      intro id hid
      rcases List.mem_append.mp (handles_own h id hid) with hid | hid
      · exact (f.mem_ids_iff x id).mpr (.inl hid)
      · rcases Parts.mem_collect hid ih with ⟨g, y, hy, hlayout, hall⟩
        exact hids (hall _ (hlayout.2 hy))
    refine ⟨⟨?_, ?_, ?_, ?_⟩, fun id hid => hhandles id (List.mem_append_left _ hid)⟩
    · intro n hn
      rcases (f.mem_nodes_iff x n).mp hn with hn | hn
      · exact Node.parts_subset_own h hn
      · rcases Parts.mem_collect hn ih with ⟨g, y, hy, hlayout, hall⟩
        exact fun m hm => hnodes (hall _ (hlayout.1.closed n hy hm))
    · intro s hs
      have howned : ∀ s, s ∈ Parts.collect Form.headers _ (f.makeup x).parts → s ∈ f.headers x ∨
          ∃ n ∈ f.nodes x, ∃ owner, n.stmt? = some owner ∧ s ∈ owner.headers := fun s hs =>
        (f.headers_parts x s hs).imp_right fun ⟨n, hn, howner⟩ => ⟨n, hown hn, howner⟩
      rcases (f.mem_nodes_iff x _).mp hs with hs | hs
      · exact .inl (header_own h hs)
      · rcases Parts.mem_collect hs ih with ⟨g, y, hy, hlayout, hall⟩
        rcases hlayout.1.owned s hy with hout | ⟨n, hn, howner⟩
        · exact howned s (hall _ hout)
        · exact .inr ⟨n, hnodes (hall _ hn), howner⟩
    · intro n hn id hid
      rcases (f.mem_nodes_iff x n).mp hn with hn | hn
      · exact hhandles id (List.mem_append_right _ (List.mem_flatMap.mpr ⟨n, hn, hid⟩))
      · rcases Parts.mem_collect hn ih with ⟨g, y, hy, hlayout, hall⟩
        exact hids (hall _ (hlayout.1.inside n hy id hid))
    · have hcovered : ∀ id ∈ f.ownIds x ++ Parts.collect Form.shown _ (f.makeup x).parts,
          id ∈ f.shown x ∨ ∃ n ∈ f.nodes x, id ∈ n.shownIds := fun id hid =>
        (shown_parts h id hid).imp_right fun ⟨n, hn, hshown⟩ => ⟨n, hown hn, hshown⟩
      intro id hid
      rcases (f.mem_ids_iff x id).mp hid with hid | hid
      · exact hcovered id (List.mem_append_left _ hid)
      · rcases Parts.mem_collect hid ih with ⟨g, y, hy, hlayout, hall⟩
        rcases hlayout.1.covered id hy with hout | ⟨n, hn, hshown⟩
        · exact hcovered id (List.mem_append_right _ (hall _ hout))
        · exact .inr ⟨n, hnodes (hall _ hn), hshown⟩

theorem File.layout (file : File) : Node.Layout [] [file.id] file.ids file.nodes :=
  (Form.layout .file file fun _ _ => trivial).1

theorem File.unlabeled_mem {file : File} {s : Stmt} (h : .stmt s ∈ file.nodes) :
    .stmt s.unlabeled ∈ file.nodes := by
  cases s with
  | labeled id label inner =>
    have hinner : .stmt inner ∈ file.nodes := file.layout.closed _ h (.head _)
    exact unlabeled_mem (s := inner) hinner
  | _ => exact h

theorem File.parts_subset {file : File} {s : Stmt}
    (h : .stmt s ∈ file.nodes ∨ .header s ∈ file.nodes) : s.parts ⊆ file.nodes := by
  rcases h with h | h
  · exact file.layout.closed _ h
  · exact file.layout.closed _ h

end Desugar
