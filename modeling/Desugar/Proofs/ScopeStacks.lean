import Desugar.Proofs.LawfulRules
import Desugar.Proofs.LoopMeaning
import Desugar.Syntax.Visits

/-!
# The scopes in force

A walk enters and leaves nodes in a nested way, and the stack of scopes mirrors the nodes
that are entered and not yet left: it has a frame for each of them that has a scope,
innermost first.  This holds of the itinerary of a file, for any table.  It also holds at
every statement list of the walks that rewrite lists and hand scopes over on the way back,
since they move the scopes of nodes only that are below the list, or new.
-/

namespace Desugar

/-!
## Itineraries
-/

namespace Visit

/-- The nodes that are open after a visit, innermost first.  Only the innermost one can be
left. -/
def opens (path : List NodeId) : Visit → Option (List NodeId)
  | .enter node => some (node :: path)
  | .exit node =>
    match path with
    | [] => none
    | top :: rest => if top = node then some rest else none
  | _ => some path

def onStack (table : SymbolTable) (stack : ScopeStack) : Visit → ScopeStack
  | .enter node => stack.enter table node
  | .exit node => stack.exit node
  | _ => stack

end Visit

def SymbolTable.frame? (table : SymbolTable) (node : NodeId) : Option (NodeId × ScopeId) :=
  (table.scopeOf[node]?).map fun scope => (node, scope)

def ScopeStack.Mirrors (stack : ScopeStack) (table : SymbolTable) (path : List NodeId) : Prop :=
  stack.frames = path.filterMap table.frame?

instance (stack : ScopeStack) (table : SymbolTable) (path : List NodeId) :
    Decidable (stack.Mirrors table path) :=
  inferInstanceAs (Decidable (stack.frames = _))

namespace ScopeStack.Mirrors

variable {stack : ScopeStack} {table : SymbolTable} {path : List NodeId}

theorem enter (h : stack.Mirrors table path) (node : NodeId) :
    (stack.enter table node).Mirrors table (node :: path) := by
  unfold Mirrors ScopeStack.enter
  rw [List.filterMap_cons]
  unfold SymbolTable.frame?
  cases table.scopeOf[node]? with
  | none => exact h
  | some scope => exact congrArg ((node, scope) :: ·) h

theorem exit {node : NodeId} (h : stack.Mirrors table (node :: path)) :
    (stack.exit node).Mirrors table path := by
  unfold Mirrors at h ⊢
  unfold ScopeStack.exit
  rw [List.filterMap_cons] at h
  cases hscope : table.scopeOf[node]? with
  | some scope =>
    rw [SymbolTable.frame?, hscope] at h
    simp only [h, Option.map_some, if_true]
  | none =>
    rw [SymbolTable.frame?, hscope] at h
    have hframes : stack.frames = path.filterMap table.frame? := h
    split
    · rename_i top scope rest htop
      split
      · -- The frame on top belongs to a node that has a scope.
        rename_i hsame
        have hmem : (top, scope) ∈ path.filterMap table.frame? := by
          rw [← hframes, htop]
          exact .head _
        rcases List.mem_filterMap.mp hmem with ⟨other, _, hother⟩
        rcases Option.map_eq_some_iff.mp hother with ⟨_, hfound, heq⟩
        cases heq
        rw [hsame, hscope] at hfound
        cases hfound
      · exact h
    · exact h

theorem current (h : stack.Mirrors table path) :
    stack.current = path.findSome? (fun node => table.scopeOf[node]?) := by
  unfold ScopeStack.current
  rw [show stack.frames = _ from h, List.head?_filterMap, List.map_findSome?]
  congr 1
  funext node
  simp [SymbolTable.frame?, Function.comp_def]

theorem visit {visit : Visit} {after : List NodeId} (h : stack.Mirrors table path)
    (hopens : visit.opens path = some after) : (visit.onStack table stack).Mirrors table after := by
  cases visit with
  | enter node =>
    cases hopens
    exact h.enter node
  | exit node =>
    cases path with
    | nil => cases hopens
    | cons top rest =>
      rw [Visit.opens] at hopens
      split at hopens
      · rename_i htop
        cases hopens
        exact (htop ▸ h).exit
      · cases hopens
  | decl | list | stmt | expr =>
    cases hopens
    exact h

theorem visits {visits : List Visit} {after : List NodeId} (h : stack.Mirrors table path)
    (hopens : visits.foldlM Visit.opens path = some after) :
    (visits.foldl (Visit.onStack table) stack).Mirrors table after := by
  induction visits generalizing stack path with
  | nil =>
    cases hopens
    exact h
  | cons visit rest ih =>
    rw [List.foldlM_cons] at hopens
    rcases Option.bind_eq_some_iff.mp hopens with ⟨next, hnext, hrest⟩
    exact ih (h.visit hnext) hrest

end ScopeStack.Mirrors

def Form.visits : (f : Form) → f.Tree → List Visit
  | .expr, e => e.visits
  | .exprs, es => Exprs.visits es
  | .optExpr, e => OptExpr.visits e
  | .stmt _, s => s.visits
  | .stmts, body => Stmts.visits body
  | .optStmt _, s => OptStmt.visits s
  | .list owner, body => .list owner body.length :: Stmts.visits body
  | .block, b => b.visits
  | .caseClause, c => CaseClauses.visits [c]
  | .caseClauses, cs => CaseClauses.visits cs
  | .typeClause, c => TypeClauses.visits [c]
  | .typeClauses, cs => TypeClauses.visits cs
  | .commClause, c => CommClauses.visits [c]
  | .commClauses, cs => CommClauses.visits cs
  | .decl _, d => d.visits
  | .specs, all => Specs.visits all
  | .topDecl, d => d.visits
  | .topDecls, ds => ds.flatMap TopDecl.visits
  | .file, whole => whole.visits
  | .missingTag _ _ _ _, _ | .scope _, _ => []

def Form.ownVisit : (f : Form) → f.Tree → List Visit
  | .expr, e => [.expr e.id]
  | .stmt _, s => [.stmt s.id]
  | .decl _, d => [.decl d.id]
  | .list owner, body => [.list owner body.length]
  | _, _ => []

def Form.wraps : Form → List Visit → List Visit
  | .scope node, visits => Visit.within node visits
  | _, visits => visits

def Parts.visits : (fs : List Form) → Parts fs → List Visit
  | [], _ => []
  | f :: fs, parts => f.visits parts.1 ++ f.wraps (Parts.visits fs parts.2)

theorem Form.visits_eq (f : Form) (x : f.Tree) :
    f.visits x = f.ownVisit x ++ Parts.visits _ (f.makeup x).parts := by
  fun_cases Form.makeup f x
  all_goals simp [Form.makeup, Form.visits, Form.ownVisit, Form.wraps, Parts.visits, Expr.visits,
    Expr.id, Exprs.visits, OptExpr.visits, Stmt.visits, Stmt.id, Stmts.visits, OptStmt.visits,
    Block.visits, CaseClauses.visits, TypeClauses.visits, CommClauses.visits, Decl.visits,
    Specs.visits, TopDecl.visits, File.visits, Visit.within]
  case case38 c rest =>
    rcases c with ⟨id, _ | values, body⟩ <;> simp [CaseClauses.visits, Visit.within]
  case case40 c rest => cases c; simp [TypeClauses.visits, Visit.within]
  case case42 c rest => cases c; simp [CommClauses.visits, Visit.within]

theorem Form.visits_balanced (f : Form) (x : f.Tree) (path : List NodeId) :
    (f.visits x).foldlM Visit.opens path = some path := by
  induction f, x using Form.induction generalizing path with
  | h f x ih =>
    have hparts : ∀ (fs : List Form) (parts : Parts fs) (path : List NodeId),
        Parts.All (fun f x => ∀ path, (f.visits x).foldlM Visit.opens path = some path) fs parts →
        (Parts.visits fs parts).foldlM Visit.opens path = some path := by
      intro fs
      induction fs with
      | nil => exact fun _ _ _ => rfl
      | cons f fs ih =>
        intro parts path hparts
        have hrest := fun path => ih parts.2 path hparts.2
        rw [Parts.visits, List.foldlM_append, hparts.1 path]
        unfold Form.wraps
        split
        · rename_i node
          show (Parts.visits fs parts.2 ++ [Visit.exit node]).foldlM Visit.opens (node :: path) = _
          rw [List.foldlM_append, hrest]
          show ((if node = node then some path else none).bind some : Option _) = some path
          rw [if_pos rfl]
          rfl
        · exact hrest path
    rw [Form.visits_eq, List.foldlM_append]
    have hown : (f.ownVisit x).foldlM Visit.opens path = some path := by
      cases f <;> rfl
    rw [hown]
    exact hparts _ _ path ih

/-!
## Walks that move scopes
-/

theorem ScopeStack.Mirrors.of_same {stack : ScopeStack} {table table' : SymbolTable}
    {path : List NodeId} (h : stack.Mirrors table path)
    (hsame : ∀ node ∈ path, table'.scopeOf[node]? = table.scopeOf[node]?) :
    stack.Mirrors table' path := by
  refine Eq.trans h (List.filterMap_congr fun node hnode => ?_)
  rw [SymbolTable.frame?, SymbolTable.frame?, hsame node hnode]

theorem Pass.Act.scopeOf_eq {p q : Pass} {made : List Token} {valid : Token → Prop}
    (h : p.Act valid q made) {node : NodeId} (hnode : ¬ valid (.node node)) :
    q.table.scopeOf[node]? = p.table.scopeOf[node]? := by
  have hne : ∀ {other}, valid (.node other) → other ≠ node := by
    rintro other hother rfl
    exact hnode hother
  cases h with
  | intern =>
    unfold SymbolTable.intern
    split
    · rfl
    · split <;> rfl
  | attachScope hother => exact NodeMap.getElem?_insert_of_ne (hne hother)
  | moveScope hsource htarget =>
    unfold SymbolTable.moveScope
    split
    · rfl
    · exact (NodeMap.getElem?_insert_of_ne (hne htarget)).trans
        (NodeMap.getElem?_erase_of_ne (hne hsource))
  | copyFacts source htarget => exact SymbolTable.getElem?_copyEntry_of_ne (hne htarget)
  | _ => rfl

theorem Pass.Act.nodes_made {p q : Pass} {made : List Token} {valid : Token → Prop}
    (h : p.Act valid q made) : p.ids.count ≤ q.ids.count ∧
      ∀ id, .node id ∈ made → p.ids.count ≤ id.val.toNat := by
  cases h with
  | draw htake =>
    rcases NodeSupply.take?_eq_some htake with ⟨rfl, hcount⟩
    refine ⟨Nat.le.intro hcount.symm, fun id hid => ?_⟩
    cases List.mem_singleton.mp hid
    exact Nat.le_refl _
  | _ => exact ⟨Nat.le_refl _, by simp⟩

/-- The stack mirrors a path of nodes, and the scopes of nodes off the path may move. -/
def Law.mooring (path : List NodeId) : Law where
  holds p := p.scopes.Mirrors p.table path ∧ ∀ node ∈ path, node.Below p.ids.count
  valid _
    | .node id => id ∉ path
    | _ => True
  act := by
    intro p q made hp hact
    have hmirrors : q.scopes.Mirrors q.table path := by
      rw [hact.scopes_eq]
      exact hp.1.of_same fun node hnode => hact.scopeOf_eq (not_not_intro hnode)
    refine ⟨⟨hmirrors, fun node hnode => Nat.lt_of_lt_of_le (hp.2 node hnode) hact.nodes_made.1⟩,
      fun _ hk => hk, fun k hk => ?_⟩
    cases k with
    | node id => exact fun hid => (hp.2 id hid).ne (hact.nodes_made.2 id hk) rfl
    | _ => trivial
  current _ _ := trivial
  table _ := trivial
  recorded _ _ := trivial
  bound _ _ _ := trivial
  part _ _ _ := trivial

namespace Visit

/-- The owners of the lists on an itinerary, with the nodes that are open there. -/
def listings : List NodeId → List Visit → List (NodeId × List NodeId)
  | _, [] => []
  | path, .list owner _ :: rest => (owner, path) :: listings path rest
  | path, visit :: rest => listings ((visit.opens path).getD path) rest

theorem listings_append {path after : List NodeId} {first : List Visit} (second : List Visit)
    (h : first.foldlM opens path = some after) :
    listings path (first ++ second) = listings path first ++ listings after second := by
  induction first generalizing path with
  | nil =>
    cases h
    rfl
  | cons visit rest ih =>
    rw [List.foldlM_cons] at h
    rcases Option.bind_eq_some_iff.mp h with ⟨next, hnext, hrest⟩
    cases visit with
    | list owner count =>
      cases hnext
      exact congrArg ((owner, path) :: ·) (ih hrest)
    | _ => simp only [List.cons_append, listings, hnext, Option.getD_some, ih hrest]

theorem listings_subset_append (path : List NodeId) (first second : List Visit) :
    listings path first ⊆ listings path (first ++ second) := by
  induction first generalizing path with
  | nil => exact List.nil_subset _
  | cons visit rest ih =>
    cases visit with
    | list owner count => exact List.cons_subset_cons _ (ih path)
    | _ => exact ih _

end Visit

/-- A transformer that sounds an alarm at a list where the stack does not mirror the nodes
that are open there. -/
def Transformer.guarded (t : Transformer) (places : List (NodeId × List NodeId))
    (alarm : PassM (List Stmt)) : Transformer :=
  { t with
    list := fun owner stmts => do
      let p ← get
      if ∃ place ∈ places, place.1 = owner ∧
        p.scopes.Mirrors p.table place.2 then t.list owner stmts
      else alarm }

/-- A transformer whose actions move the scopes of nodes only that they are given. -/
structure Transformer.Moored (t : Transformer) (env : PassEnv) : Prop where
  expr : ∀ (L : Law) (K : Token → Prop) (e : Expr), Sound L env K (t.expr e) := by
    exact fun L K e => inferInstanceAs (Sound L env K (pure e))
  decl : ∀ (L : Law) (K : Token → Prop) (d : Decl), Sound L env K (t.decl d) := by
    exact fun L K d => inferInstanceAs (Sound L env K (pure d))
  missingTag : ∀ (L : Law) (K : Token → Prop), Sound L env K t.missingTag := by
    exact fun L K => inferInstanceAs (Sound L env K (pure none))
  stmt : ∀ (L : Law) (K : Token → Prop) (s : Stmt),
    (∀ id init cond body inner, s = .ifElse id init cond body (some inner) → Knows L K inner.id) →
    Sound L env K (t.stmt s) := by exact fun L K s _ => inferInstanceAs (Sound L env K (pure s))
  list : ∀ (L : Law) (K : Token → Prop) (owner : NodeId) (stmts : List Stmt),
    (∀ id ∈ Stmts.ids stmts, Knows L K id) → Sound L env K (t.list owner stmts)

/-- Two actions that do the same in a state that mirrors a path, and keep it so. -/
def Moors {α : Type} (env : PassEnv) (path : List NodeId) (p : Pass) (m' m : PassM α) : Prop :=
  m'.exec env p = m.exec env p ∧
    ∀ a q, m.exec env p = (.ok a, q) → (Law.mooring path).holds q

namespace Moors

variable {α β : Type} {env : PassEnv} {path : List NodeId} {p : Pass} {m' m : PassM α}

theorem pure (hp : (Law.mooring path).holds p) (a : α) :
    Moors env path p (Pure.pure a) (Pure.pure a) := by
  refine ⟨rfl, ?_⟩
  rintro _ _ ⟨⟩
  exact hp

theorem bind {f' f : α → PassM β} (hm : Moors env path p m' m)
    (hf : ∀ a q, m.exec env p = (.ok a, q) → (Law.mooring path).holds q →
      Moors env path q (f' a) (f a)) : Moors env path p (m' >>= f') (m >>= f) := by
  cases hexec : m.exec env p with
  | mk result q =>
    have hexec' := hm.1.trans hexec
    cases result with
    | ok a =>
      have h := hf a q hexec (hm.2 a q hexec)
      unfold Moors
      rw [PassM.exec_bind_ok hexec, PassM.exec_bind_ok hexec']
      exact h
    | error fault =>
      unfold Moors
      rw [PassM.exec_bind_error hexec, PassM.exec_bind_error hexec']
      exact ⟨rfl, fun a q h => by cases h⟩

theorem of_sound [Bears α] (hp : (Law.mooring path).holds p)
    (h : Sound (Law.mooring path) env (fun _ => False) m) : Moors env path p m m := by
  refine ⟨rfl, fun a q hexec => ?_⟩
  have hq := (h.keeps p hp fun _ hk => hk.elim).1
  rwa [hexec] at hq

theorem within {node : NodeId} (hp : (Law.mooring path).holds p) (hnode : node.Below p.ids.count)
    (h : (Law.mooring (node :: path)).holds { p with scopes := p.scopes.enter p.table node } →
      Moors env (node :: path) { p with scopes := p.scopes.enter p.table node } m' m) :
    Moors env path p (PassM.within node m') (PassM.within node m) := by
  have hinside := h ⟨hp.1.enter node, List.forall_mem_cons.mpr ⟨hnode, hp.2⟩⟩
  unfold PassM.within Moors
  rw [PassM.exec_bind_ok (PassM.exec_enter node env p),
    PassM.exec_bind_ok (PassM.exec_enter node env p)]
  cases hexec : m.exec env { p with scopes := p.scopes.enter p.table node } with
  | mk result q =>
    have hexec' := hinside.1.trans hexec
    cases result with
    | ok a =>
      have hq := hinside.2 a q hexec
      rw [PassM.exec_bind_ok hexec, PassM.exec_bind_ok hexec']
      refine ⟨rfl, ?_⟩
      rintro _ _ ⟨⟩
      exact ⟨hq.1.exit, fun other hother => hq.2 other (.tail _ hother)⟩
    | error fault =>
      rw [PassM.exec_bind_error hexec, PassM.exec_bind_error hexec']
      exact ⟨rfl, fun a q h => by cases h⟩

end Moors

/-- The nodes whose scopes open between parts. -/
def Parts.scopes (fs : List Form) : List NodeId :=
  fs.flatMap fun
    | .scope node => [node]
    | _ => []

theorem Form.scopes_makeup (f : Form) (x : f.Tree) :
    (Parts.scopes (f.makeup x).forms).Sublist (f.ownIds x) := by
  fun_cases Form.makeup f x
  all_goals simp [Form.makeup, Parts.scopes, Form.ownIds, Expr.id, Stmt.id]

def NodeId.OffPath (path : List NodeId) (p : Pass) (ids : List NodeId) : Prop :=
  ids.Nodup ∧ ∀ id ∈ ids, id ∉ path ∧ id.Below p.ids.count

namespace NodeId.OffPath

variable {path ids ids' : List NodeId} {p q : Pass}

theorem sublist (h : OffPath path p ids) (hsub : ids'.Sublist ids) : OffPath path p ids' :=
  ⟨h.1.sublist hsub, fun id hid => h.2 id (hsub.subset hid)⟩

theorem later (h : OffPath path p ids) (hq : p.Grows q) : OffPath path q ids :=
  ⟨h.1, fun id hid => ⟨(h.2 id hid).1, PassM.below_mono hq (h.2 id hid).2⟩⟩

theorem inside {node : NodeId} {scopes : ScopeStack} (h : OffPath path p (node :: ids)) :
    OffPath (node :: path) { p with scopes := scopes } ids := by
  rcases List.nodup_cons.mp h.1 with ⟨hnode, hnodup⟩
  refine ⟨hnodup, fun id hid => ⟨fun hmem => ?_, (h.2 id (.tail _ hid)).2⟩⟩
  rcases List.mem_cons.mp hmem with rfl | hmem
  · exact hnode hid
  · exact (h.2 id (.tail _ hid)).1 hmem

end NodeId.OffPath

section

variable {t : Transformer} {env : PassEnv} {start : Pass} {places : List (NodeId × List NodeId)}
  {alarm : PassM (List Stmt)}

/-- The guarded walk through syntax does what the walk does. -/
def Form.Moors (t : Transformer) (env : PassEnv) (start : Pass)
    (places : List (NodeId × List NodeId)) (alarm : PassM (List Stmt)) (f : Form) (x : f.Tree) :
    Prop :=
  ∀ path p, start.Evolves .full p → f.Holds (fun _ => True) x → (Law.mooring path).holds p →
    NodeId.OffPath path p (f.ids x) → Visit.listings path (f.visits x) ⊆ places →
    Desugar.Moors env path p (f.transform (t.guarded places alarm) x) (f.transform t x)

theorem Parts.moors (hr : t.Renewing .full Property.Unkept env start) {fs : List Form}
    {parts : Parts fs} (h : Parts.All (Form.Moors t env start places alarm) fs parts)
    {path : List NodeId} {p : Pass} (hp : start.Evolves .full p)
    (hholds : Parts.All (fun f x => f.Holds (fun _ => True) x) fs parts)
    (hmoored : (Law.mooring path).holds p)
    (hoff : NodeId.OffPath path p (Parts.scopes fs ++ Parts.collect Form.ids fs parts))
    (hplaces : Visit.listings path (Parts.visits fs parts) ⊆ places) :
    Moors env path p (Parts.transform (t.guarded places alarm) fs parts)
      (Parts.transform t fs parts) := by
  induction fs generalizing path p with
  | nil => exact .pure hmoored ()
  | cons f fs ih =>
    rw [Parts.visits, Visit.listings_append _ (f.visits_balanced _ path), List.append_subset]
      at hplaces
    have hfirst : NodeId.OffPath path p (f.ids parts.1) :=
      hoff.sublist (((List.sublist_append_left _ _).trans (List.sublist_append_right _ _)))
    refine (h.1 path p hp hholds.1 hmoored hfirst hplaces.1).bind fun x q hexec hq => ?_
    have hevolves : p.Evolves .full q := ((hr.walks.ensures f parts.1 ⟨hp, hholds.1⟩).of_ok hexec).1
    have hoff := hoff.later hevolves.toGrows
    refine Moors.bind ?_ fun rest r _ hr' => .pure hr' _
    cases f with
    | scope node =>
      refine .within hq (hoff.2 node (.head _)).2 fun hinside => ?_
      have hentered : q.Evolves .full { q with scopes := q.scopes.enter q.table node } :=
        .of_same_record rfl rfl rfl
      refine ih h.2 ((hp.trans hevolves).trans hentered) hholds.2 hinside hoff.inside ?_
      exact fun _ hx => hplaces.2 (Visit.listings_subset_append (node :: path) _ [.exit node] hx)
    | _ =>
      refine ih h.2 (hp.trans hevolves) hholds.2 hq (hoff.sublist ?_) hplaces.2
      exact (List.sublist_append_right _ _).append_left _

theorem Parts.off_path (hr : t.Renewing .full Property.Unkept env start) {fs : List Form}
    {old new : Parts fs} {path : List NodeId} {p q : Pass} (hp : start.Evolves .full p)
    (hholds : Parts.All (fun f x => f.Holds (fun _ => True) x) fs old)
    (hmoored : (Law.mooring path).holds p)
    (hoff : NodeId.OffPath path p (Parts.collect Form.ids fs old))
    (hexec : (Parts.transform t fs old).exec env p = (.ok new, q)) {id : NodeId}
    (hid : id ∈ identities (inventory (Parts.nodes fs new))) : id ∉ path := by
  have hchain := (hr.walks.ensures_parts (hholds.mono fun f x _ p hpre => hr.walks.ensures f x hpre)
    (hholds.mono fun _ _ hx => ⟨hp, hx⟩)).of_ok hexec
  have hfew := (Parts.renews_of_chain hchain.2).few id
  have hold := Parts.ids_inventory (hholds.mono fun f x hx => f.ids_inventory x hx)
  intro hpath
  by_cases hmem : id ∈ identities (inventory (Parts.nodes fs old))
  · have hids : id ∈ (Parts.collect Form.ids fs old : Multiset NodeId) :=
      hold ▸ Multiset.mem_add.mpr (.inr hmem)
    exact (hoff.2 id (Multiset.mem_coe.mp hids)).1 hpath
  · have hdrawn : id.timesDrawn p q = 0 :=
      if_neg fun h => Nat.lt_irrefl _ (Nat.lt_of_lt_of_le (hmoored.2 id hpath) h.1)
    rw [Multiset.count_eq_zero_of_notMem hmem, hdrawn] at hfew
    exact absurd (Multiset.count_pos.mpr hid) (Nat.not_lt_of_le hfew)

theorem Stmt.else_mem {listed : Bool} {s : Stmt} {new : Parts ((Form.stmt listed).makeup s).forms}
    {id : NodeId} {init : Option Stmt} {cond : Expr} {body : Block} {inner : Stmt}
    (h : ((Form.stmt listed).makeup s).make new = .ifElse id init cond body (some inner)) :
    inner.id ∈ identities (inventory (Parts.nodes _ new)) := by
  cases s with
  | ifElse id' init' cond' body' els' =>
    rcases new with ⟨_, init'', cond'', body'', els'', _⟩
    cases h
    have hids : (0 + identities (inventory ((Form.optStmt true).nodes (some inner))) :
        Multiset NodeId) = inner.ids :=
          Form.ids_inventory (.optStmt true) (some inner) fun _ _ => trivial
    have hmem : inner.id ∈ identities (inventory ((Form.optStmt true).nodes (some inner))) := by
      rw [← zero_add (identities _), hids]
      cases inner <;> simp [Stmt.id, Stmt.ids]
    simp only [Form.makeup, Parts.nodes, Parts.collect, inventory_append, identities_add,
      Multiset.mem_add]
    exact .inr (.inr (.inr (.inr (.inl hmem))))
  | switch id' init' tag' clauses' => cases tag' <;> cases h
  | _ => cases h

theorem Transformer.Moored.walk (h : t.Moored env)
    (hr : t.Renewing .full Property.Unkept env start) (f : Form) (x : f.Tree) :
    Form.Moors t env start places alarm f x := by
  induction f, x using Form.induction with
  | h f x ih =>
    intro path p hp hholds hmoored hoff hplaces
    have hparts : NodeId.OffPath path p
        (Parts.scopes (f.makeup x).forms ++ Parts.collect Form.ids _ (f.makeup x).parts) := by
      have hperm := f.ids_perm x
      have hall : NodeId.OffPath path p
          (f.ownIds x ++ Parts.collect Form.ids _ (f.makeup x).parts) :=
        ⟨hperm.nodup_iff.mp hoff.1, fun id hid => hoff.2 id (hperm.mem_iff.mpr hid)⟩
      exact hall.sublist ((f.scopes_makeup x).append_right _)
    have hown : (f.ownVisit x).foldlM Visit.opens path = some path := by
      cases f <;> rfl
    rw [f.visits_eq, Visit.listings_append _ hown, List.append_subset] at hplaces
    rw [Form.transform_eq, Form.transform_eq]
    refine (Parts.moors hr ih hp hholds.parts hmoored hparts hplaces.2).bind fun new q hexec hq =>
      ?_
    have hnew : ∀ id ∈ identities (inventory (Parts.nodes _ new)), id ∉ path := fun id hid =>
      Parts.off_path hr hp hholds.parts hmoored (hparts.sublist (List.sublist_append_right _ _))
        hexec hid
    have hknows : ∀ id ∈ identities (inventory (Parts.nodes _ new)),
        Knows (Law.mooring path) (fun _ => False) id := by
      refine fun id hid => ⟨fun _ _ k hk => ?_⟩
      rw [hk]
      exact hnew id hid
    cases f with
    | expr => exact .of_sound hq (h.expr ..)
    | stmt listed =>
      exact .of_sound hq (h.stmt _ _ _ fun _ _ _ _ inner hmake => hknows _ (Stmt.else_mem hmake))
    | decl top => exact .of_sound hq (h.decl ..)
    | list owner =>
      have hlist : Moors env path q (t.list owner new.1) (t.list owner new.1) := by
        refine .of_sound hq (h.list _ _ owner new.1 fun id hid => hknows id ?_)
        show id ∈ identities (inventory (Stmts.nodes new.1 ++ []))
        rw [List.append_nil, Stmts.ids_inventory]
        exact Multiset.mem_coe.mpr hid
      have hguard : ((t.guarded places alarm).list owner new.1).exec env q =
          (t.list owner new.1).exec env q :=
        (PassM.exec_bind_ok (PassM.exec_get env q)).trans
          (congrArg (PassM.exec · env q) (if_pos ⟨(owner, path), hplaces.1 (.head _), rfl, hq.1⟩))
      exact ⟨hguard, hlist.2⟩
    | missingTag listed id init clauses => exact .of_sound hq (h.missingTag ..)
    | _ => exact .pure hq _

end

/-!
## Walks that rewrite lists
-/

theorem Stmt.id_mem_ids (s : Stmt) : s.id ∈ s.ids := by
  cases s <;> simp [Stmt.id, Stmt.ids]

theorem Stmts.unlabeled_mem_ids {s : Stmt} {stmts : List Stmt} (h : s ∈ stmts) :
    s.unlabeled.id ∈ Stmts.ids stmts := by
  induction h with
  | head rest =>
    exact List.mem_append_left _ (s.ids_unlabeled_subset s.unlabeled.id_mem_ids)
  | tail other _ ih => exact List.mem_append_right _ ih

def Transformer.rewriters : List Transformer :=
  [Initializer.transformer, Loop.transformer, Split.transformer, Short.transformer,
    Parallel.transformer]

theorem Transformer.moored_of_mem_rewriters {t : Transformer} (h : t ∈ rewriters) (env : PassEnv) :
    t.Moored env := by
  simp only [rewriters, List.mem_cons, List.not_mem_nil, or_false] at h
  rcases h with rfl | rfl | rfl | rfl | rfl
  · exact
      { stmt := fun _ _ => Initializer.sound_hoistElse
        list := fun _ _ _ stmts hids => Transformer.sound_splice stmts fun s hs =>
          Initializer.sound_hoist s (hids _ (Stmts.unlabeled_mem_ids hs)) }
  · exact
      { list := fun _ _ _ stmts hids => Transformer.sound_splice stmts fun s hs =>
          Loop.sound_canonicalize s (hids _ (Stmts.unlabeled_mem_ids hs)) }
  all_goals exact
    { list := fun _ _ _ stmts _ => Transformer.sound_splice stmts fun _ _ => inferInstance }

theorem Transformer.renewing_of_mem_rewriters {t : Transformer} (h : t ∈ rewriters) (env : PassEnv)
    {p : Pass} (hdrawn : p.Drawn) : t.Renewing .full Property.Unkept env p := by
  simp only [rewriters, List.mem_cons, List.not_mem_nil, or_false] at h
  rcases h with rfl | rfl | rfl | rfl | rfl
  · exact Initializer.renewing rfl id
  · exact Loop.renewing rfl id trivial hdrawn
  · exact Split.renewing id id trivial fun _ => trivial
  · exact Short.renewing trivial id fun _ => trivial
  · exact Parallel.renewing trivial (fun _ => trivial) fun _ => trivial

/-- The stack of scopes mirrors the nodes that are open, at every visit of a file and at every
list that a walk rewrites, and it is empty in the end.  A guard at the lists, whatever it
would do, is never called. -/
theorem File.walk_mirrors_scopes (file : File) :
    (file.visits.foldlM Visit.opens [] = some [] ∧ ∀ table : SymbolTable,
      (∀ before visit after, file.visits = before ++ visit :: after →
        ∃ path, before.foldlM Visit.opens [] = some path ∧
          (before.foldl (Visit.onStack table) .empty).Mirrors table path ∧
          (before.foldl (Visit.onStack table) .empty).current =
            path.findSome? fun node => table.scopeOf[node]?) ∧
      file.visits.foldl (Visit.onStack table) .empty = .empty) ∧
    (file.ids.Nodup → ∀ t ∈ Transformer.rewriters, ∀ (env : PassEnv) (p : Pass)
      (alarm : PassM (List Stmt)), p.Drawn → (∀ id ∈ file.ids, id.Below p.ids.count) →
      p.scopes = .empty →
      (file.transform (t.guarded (Visit.listings [] file.visits) alarm)).exec env p =
        (file.transform t).exec env p ∧
      ∀ file' q, (file.transform t).exec env p = (.ok file', q) → q.scopes = .empty) := by
  have hbalanced : file.visits.foldlM Visit.opens [] = some [] := Form.visits_balanced .file file []
  have hempty : ∀ {stack : ScopeStack} {table}, stack.Mirrors table [] → stack = .empty :=
    fun h => congrArg ScopeStack.mk h
  have hstart : ∀ table, ScopeStack.empty.Mirrors table [] := fun _ => rfl
  refine ⟨⟨hbalanced, fun table => ⟨?_, ?_⟩⟩, ?_⟩
  · intro before visit after hvisits
    rw [hvisits, List.foldlM_append] at hbalanced
    rcases Option.bind_eq_some_iff.mp hbalanced with ⟨path, hpath, _⟩
    have hmirrors : (before.foldl (Visit.onStack table) .empty).Mirrors table path :=
      (hstart table).visits hpath
    exact ⟨path, hpath, hmirrors, hmirrors.current⟩
  · exact hempty ((hstart table).visits hbalanced)
  · intro hnodup t ht env p alarm hdrawn hbelow hscopes
    have hmoored : (Law.mooring []).holds p :=
      ⟨congrArg ScopeStack.frames hscopes, fun _ h => by cases h⟩
    have hform : Form.Moors t env p (Visit.listings [] file.visits) alarm .file file :=
      (Transformer.moored_of_mem_rewriters ht env).walk
        (Transformer.renewing_of_mem_rewriters ht env hdrawn) .file file
    have hwalk := hform [] p (.refl _) (fun _ _ => trivial) hmoored
      ⟨hnodup, fun id hid => ⟨List.not_mem_nil, hbelow id hid⟩⟩ (List.Subset.refl _)
    exact ⟨hwalk.1, fun file' q hexec => hempty (hwalk.2 file' q hexec).1⟩

/-- The list of the only function is in force where the exchange is split. -/
theorem exchangeFile_mirrors_scopes :
    Visit.listings [] exchangeFile.visits = [(⟨3⟩, [⟨3⟩, ⟨1⟩, ⟨0⟩])] ∧
      exchangeFile.ids.Nodup ∧
      ∃ p : Pass, p.file = exchangeFile ∧ p.Drawn ∧ p.scopes = .empty ∧ ∀ env alarm,
        (exchangeFile.transform (Parallel.transformer.guarded
          [(⟨3⟩, [⟨3⟩, ⟨1⟩, ⟨0⟩])] alarm)).exec env p =
            (exchangeFile.transform Parallel.transformer).exec env p := by
  have hnodup : exchangeFile.ids.Nodup := by decide +kernel
  have hlistings :
      Visit.listings [] exchangeFile.visits = [(⟨3⟩, [⟨3⟩, ⟨1⟩, ⟨0⟩])] := by decide +kernel
  rcases @Progress.start_drawn _ _ _ ⟨[], []⟩ [] (after?_exchangeFile none) with ⟨hdrawn, hbelow⟩
  refine ⟨hlistings, hnodup, _, rfl, hdrawn, rfl, fun env alarm => ?_⟩
  have hwalk := (File.walk_mirrors_scopes exchangeFile).2 hnodup Parallel.transformer
    (by simp [Transformer.rewriters]) env _ alarm hdrawn hbelow rfl
  rw [hlistings] at hwalk
  exact hwalk.1

end Desugar
