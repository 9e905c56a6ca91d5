import Desugar.Proofs.Laws
import Desugar.Proofs.RunRenewal

/-!
# Lawful rules

Every rule keeps every law that a walk keeps between its actions, and so does a run.
-/

namespace Desugar

-- Each step of an action adds to what is known when the next one starts.
set_option synthInstance.maxSize 20000
set_option synthInstance.maxHeartbeats 200000

/-!
## Rules
-/

section

variable {L : Law} {env : PassEnv} {K : Token → Prop}

theorem Transformer.sound_splice {replace : Stmt → PassM (Option (List Stmt))} (stmts : List Stmt)
    (h : ∀ s ∈ stmts, Sound L env K (replace s)) : Sound L env K (splice replace stmts) := by
  induction stmts with
  | nil => exact inferInstanceAs (Sound L env K (pure []))
  | cons s rest ih =>
    unfold splice
    have hs := h s (.head _)
    have hrest := ih fun other hother => h other (.tail _ hother)
    refine @Sound.bind _ _ _ _ _ _ _ _ _ hs fun found => ?_
    have hrest' : Sound L env (Token.also found K) (splice replace rest) := hrest.older
    have hrest'' (u : PUnit) :
        Sound L env (Token.also u (Token.also found K)) (splice replace rest) :=
      hrest'.older
    split <;> infer_instance

namespace Dereference

instance (x : Expr) : Sound L env K (isPointerToArray x) := by
  unfold isPointerToArray operandType
  infer_instance

instance (e : Expr) : Sound L env K (isImplicit e) := by
  unfold isImplicit operandType
  split
  case h_3 =>
    refine @Sound.bind _ _ _ _ _ _ _ _ _ _ fun table => ?_
    split <;> infer_instance
  all_goals infer_instance

instance (operand : Expr) : Sound L env K (deref operand) := by
  unfold deref
  refine @Sound.bind _ _ _ _ _ _ _ _ _ _ fun table =>
    @Sound.bind _ _ _ _ _ _ _ _ _ _ fun ty => ?_
  split
  · rename_i elem helem
    have :=
      (Knows.pointerElem_bind (L := L) (K := Token.also ty (Token.also table K)) ty).of_some helem
    infer_instance
  · infer_instance

instance (operand : Expr) (path : List StructField) [hpath : Knows L K path] :
    Sound L env K (follow operand path) := by
  induction path generalizing operand K with
  | nil => exact inferInstanceAs (Sound L env K (pure operand))
  | cons field rest ih =>
    unfold follow
    have hfield : Knows L K field := hpath.of_mem (.head _)
    have hty : Knows L K field.ty := hfield.mono fun _ hk => hk
    have hrest : Knows L K rest := .list fun a ha => hpath.of_mem (.tail _ ha)
    infer_instance

instance (e : Expr) : Sound L env K (expose e) := by
  unfold expose
  split <;> infer_instance

end Dereference

namespace Parallel

instance (scope : ScopeId) (ty : TypeId) (spelled : TypeExpr) (value : Expr) [Knows L K scope]
    [Knows L K ty] : Sound L env K (hold scope ty spelled value) := by
  unfold hold
  infer_instance

instance (scope : ScopeId) (operand : Expr) [Knows L K scope] :
    Sound L env K (holdOperand scope operand) := by
  unfold holdOperand
  infer_instance

instance (scope : ScopeId) (place : Expr) [Knows L K scope] :
    Sound L env K (pinAddress scope place) := by
  unfold pinAddress
  infer_instance

instance (scope : ScopeId) (e : Expr) [Knows L K scope] : Sound L env K (pin scope e) := by
  fun_induction pin scope e with
  | case3 id x index =>
    refine @Sound.bind _ _ _ _ _ _ _ _ _ _ fun table => ?_
    split
    · rename_i key hkey
      have := (Knows.mapKey (L := L) (K := Token.also table K) x).of_some hkey
      infer_instance
    · infer_instance
  | _ => infer_instance

instance (scope : ScopeId) (node : NodeId) (target source : Expr) [Knows L K scope] :
    Sound L env K (evaluate scope node target source) := by
  unfold evaluate
  infer_instance

instance (owner node : NodeId) (lhs rhs : List Expr) :
    Sound L env K (sequence owner node lhs rhs) := by
  unfold sequence
  infer_instance

instance (owner : NodeId) (s : Stmt) : Sound L env K (splitStmt owner s) := by
  unfold splitStmt splitAssign
  split <;> infer_instance

end Parallel

namespace Short

instance (binding : BindingId) (node : NodeId) : Sound L env K (bindingType binding node) := by
  unfold bindingType
  infer_instance

instance (node : NodeId) (targets : List Target) : Sound L env K (freshDecls node targets) := by
  unfold freshDecls
  refine @Sound.filterMapM _ _ _ _ _ _ _ _ _ _ fun target => ?_
  cases target <;> infer_instance

instance (target : Target) (value : Expr) : Sound L env K (heldType target value) := by
  unfold heldType
  cases target <;> infer_instance

instance (owner node : NodeId) (targets : List Target) (values : List Expr) :
    Sound L env K (holdList owner node targets values) := by
  unfold holdList
  infer_instance

instance (owner node : NodeId) (targets : List Target) (value : Expr) :
    Sound L env K (holdTuple owner node targets value) := by
  unfold holdTuple
  dsimp only
  refine @Sound.bind _ _ _ _ _ _ _ _ _ _ fun known => @Sound.bind _ _ _ _ _ _ _ _ _ _ fun tuple =>
    @Sound.bind _ _ _ _ _ _ _ _ _ _ fun table => ?_
  split <;> infer_instance

instance (owner node : NodeId) (targets : List Target) (values : List Expr) :
    Sound L env K (hold owner node targets values) := by
  unfold hold
  split
  · infer_instance
  · split <;> infer_instance

instance (owner node : NodeId) (lhs rhs : List Expr) :
    Sound L env K (eliminate owner node lhs rhs) := by
  have hclassified : ∀ (K : Token → Prop) (result : Except Problem Target), Sound L env K (
      match result with
      | .ok target => pure target
      | .error problem => PassM.raise problem : PassM Target) := by
    intro K result
    cases result <;> infer_instance
  have hassigned : ∀ (K : Token → Prop) (target : Target), Sound L env K (
      match target with
      | .fresh _ _ binding => PassM.newUse binding
      | .blank e => pure e
      | .existing e => pure e : PassM Expr) := by
    intro K target
    cases target <;> infer_instance
  unfold eliminate
  dsimp only
  split <;> infer_instance

instance (owner : NodeId) (s : Stmt) : Sound L env K (eliminateStmt owner s) := by
  unfold eliminateStmt
  split <;> infer_instance

end Short

namespace Annotations

instance (spec : ValueSpec) : Sound L env K (annotationOf spec) := by
  unfold annotationOf nameType
  refine @Sound.bind _ _ _ _ _ _ _ _ _ _ fun types => ?_
  split <;> infer_instance

instance (spec : ValueSpec) : Sound L env K (annotate spec) := by
  unfold annotate
  infer_instance

instance (change : ValueSpec → PassM ValueSpec) (d : Decl)
    [h : ∀ K spec, Sound L env K (change spec)] : Sound L env K (onVarSpecs change d) := by
  have hspec : ∀ (K : Token → Prop) (spec : Spec), Sound L env K (
      match spec with
      | .value spec => Spec.value <$> change spec
      | .type spec => pure (.type spec) : PassM Spec) := by
    intro K spec
    cases spec with
    | value spec =>
      have := h K spec
      infer_instance
    | type spec => infer_instance
  unfold onVarSpecs
  infer_instance

end Annotations

namespace Zero

instance (spec : ValueSpec) : Sound L env K (zeros spec) := by
  unfold zeros
  infer_instance

instance (spec : ValueSpec) : Sound L env K (giveZeros spec) := by
  unfold giveZeros
  infer_instance

end Zero

namespace Discard

instance (x : Expr) : Sound L env K (arity x) := by
  unfold arity
  refine @Sound.bind _ _ _ _ _ _ _ _ _ _ fun known => @Sound.bind _ _ _ _ _ _ _ _ _ _ fun ty =>
    @Sound.bind _ _ _ _ _ _ _ _ _ _ fun table => ?_
  split <;> infer_instance

instance (s : Stmt) : Sound L env K (expand s) := by
  unfold expand
  split <;> infer_instance

end Discard

namespace Split

instance (whole : NodeId) (n : Nat) [Knows L K whole] : Sound L env K (pieceIds whole n) := by
  unfold pieceIds
  split <;> infer_instance

instance (spec : ValueSpec) [Knows L K spec.id] : Sound L env K (splitPackageSpec spec) := by
  unfold splitPackageSpec
  infer_instance

section

variable [∀ (K : Token → Prop) (id : NodeId), Knows L K id]

instance (first : Option NodeId) (found : List Spec) :
    Sound L env K (declarePieces first found) := by
  induction found generalizing first K with
  | nil => exact inferInstanceAs (Sound L env K (pure []))
  | cons piece rest ih =>
    unfold declarePieces
    cases first <;> infer_instance

instance (first : Option NodeId) (specs : List Spec) :
    Sound L env K (splitPackageSpecs first specs) := by
  induction specs generalizing first K with
  | nil => exact inferInstanceAs (Sound L env K (pure []))
  | cons spec rest ih =>
    unfold splitPackageSpecs
    cases spec <;> infer_instance

end

instance (owner : NodeId) (spec : ValueSpec) : Sound L env K (splitList owner spec) := by
  have htype : ∀ (K : Token → Prop) (name : Ident) (value : Expr),
      Sound L env K (temporaryType name value) := by
    intro K name value
    unfold temporaryType
    refine @Sound.bind _ _ _ _ _ _ _ _ _ _ fun declared => ?_
    cases declared <;> infer_instance
  unfold splitList
  infer_instance

instance (owner : NodeId) (spec : ValueSpec) (members : List TypeId)
    (bindings : List (Option BindingId)) [Knows L K members] :
    Sound L env K (holdMembers owner spec members bindings) := by
  unfold holdMembers
  refine @Sound.mapM _ _ _ _ _ _ _ _ _ _ fun member => ?_
  rcases member with ⟨binding, position⟩
  cases binding <;> infer_instance

instance (owner : NodeId) (spec : ValueSpec) (value : Expr) :
    Sound L env K (splitTuple owner spec value) := by
  have hbindings : ∀ (K : Token → Prop) (names : List Ident), Sound L env K (bindingsOf names) := by
    intro K names
    unfold bindingsOf
    infer_instance
  have htarget : ∀ (K : Token → Prop) (binding : Option BindingId),
      Sound L env K (target binding) := by
    intro K binding
    cases binding <;> unfold target <;> infer_instance
  have hdeclared : ∀ (K : Token → Prop) (pair : Ident × Option (BindingId × Stmt)), Sound L env K (
      match pair with
      | (_, none) => pure none
      | (name, some (temp, _)) => do
          let value ← PassM.newUse temp
          some <$> PassM.newVar name spec.ty [value] : PassM (Option Stmt)) := by
    intro K pair
    rcases pair with ⟨name, temp⟩
    cases temp <;> infer_instance
  unfold splitTuple
  infer_instance

instance (owner : NodeId) (s : Stmt) : Sound L env K (splitStmt owner s) := by
  have hvalues : ∀ (K : Token → Prop) (spec : ValueSpec),
      Sound L env K (splitValues owner spec) := by
    intro K spec
    unfold splitValues
    split
    · infer_instance
    · split <;> infer_instance
  have hspec : ∀ (K : Token → Prop) (spec : Spec), Sound L env K (splitSpec owner spec) := by
    intro K spec
    cases spec <;> unfold splitSpec <;> infer_instance
  unfold splitStmt
  split <;> infer_instance

end Split

/-!
### Control statements
-/

instance Initializer.enclose_sound (labels : List Label) (init control : Stmt)
    [Knows L K control.id] : Sound L env K (Initializer.enclose labels init control) := by
  unfold Initializer.enclose
  refine @Sound.bind _ _ _ _ _ _ _ _ _ _ fun blockId =>
    @Sound.bind _ _ _ _ _ _ _ _ _ _ fun moved => ?_
  cases moved <;> infer_instance

theorem Initializer.sound_hoist (s : Stmt) (h : Knows L K s.unlabeled.id) :
    Sound L env K (hoist s) := by
  unfold hoist
  split
  · rename_i init control htake
    have hid : control.id = s.unlabeled.id := by
      unfold Stmt.takeInit? at htake
      split at htake <;> cases htake
      all_goals
        rename_i hs
        rw [hs]
        rfl
    have : Knows L K control.id := hid ▸ h
    infer_instance
  · infer_instance

theorem Initializer.sound_hoistElse (s : Stmt)
    (h : ∀ id init cond body inner, s = .ifElse id init cond body (some inner) →
      Knows L K inner.id) :
    Sound L env K (hoistElse s) := by
  unfold hoistElse
  split
  · rename_i inner start test first rest
    have : Knows L K (Stmt.ifElse inner none test first rest).id :=
      h _ _ _ _ (.ifElse inner (some start) test first rest) rfl
    infer_instance
  · infer_instance

namespace Loop

theorem keeps_refresh (sources : List NodeId) {p : Pass} (hp : L.holds p) {copies : List NodeId}
    {ids : NodeSupply} {table : SymbolTable}
    (h : sources.mapM NodeId.refresh (p.ids, p.table) = some (copies, ids, table)) :
    L.holds { p with ids := ids, table := table } ∧
      ∀ k, L.valid p k → L.valid { p with ids := ids, table := table } k := by
  induction sources generalizing p copies with
  | nil =>
    rw [List.mapM_nil] at h
    cases h
    exact ⟨hp, fun _ hk => hk⟩
  | cons source rest ih =>
    rw [List.mapM_cons] at h
    rcases Option.bind_eq_some_iff.mp h with ⟨⟨fresh, ids', table'⟩, hfirst, h⟩
    rcases Option.bind_eq_some_iff.mp h with ⟨⟨others, ids'', table''⟩, hrest, h⟩
    cases h
    rw [NodeId.refresh_run] at hfirst
    cases htake : p.ids.take? with
    | none =>
      rw [htake] at hfirst
      cases hfirst
    | some drawn =>
      rw [htake] at hfirst
      cases hfirst
      rcases L.act hp (.draw htake) with ⟨hq, hkeeps, hnew⟩
      rcases L.act hq (.copyFacts source (hnew _ (.head _))) with ⟨hr, hkeeps', -⟩
      rcases ih hr hrest with ⟨hs, hkeeps''⟩
      exact ⟨hs, fun k hk => hkeeps'' k (hkeeps' k (hkeeps k hk))⟩

instance (s : Stmt) : Sound L env K (copy s) := by
  refine ⟨fun p hp hK => ?_, fun p h => ?_⟩
  case refine_2 =>
    unfold copy at h
    rw [PassM.exec_bind_ok (PassM.exec_get env p)] at h
    split at h <;> cases h
  rcases s.shaped true with ⟨make, hmakes⟩
  have hrun : s.refresh = s.ids.mapM NodeId.refresh >>= fun ids => pure (make ids) :=
    Renaming.map_eq hmakes NodeId.refresh
  unfold copy
  rw [PassM.exec_bind_ok (PassM.exec_get env p)]
  cases hcopy : s.refresh (p.ids, p.table) with
  | none => exact ⟨hp, fun _ hk => hk, fun a ha => by cases ha⟩
  | some copied =>
    rcases copied with ⟨s', ids, table⟩
    rw [hrun] at hcopy
    rcases Option.bind_eq_some_iff.mp hcopy with ⟨⟨copies, ids', table'⟩, hids, hmake⟩
    cases hmake
    rcases keeps_refresh s.ids hp hids with ⟨hq, hkeeps⟩
    exact ⟨hq, hkeeps, fun a _ k hk => hk.elim⟩

instance (post : Stmt) (id : NodeId) (label : Option String) :
    Sound L env K (runPost post id label) := by
  unfold runPost
  infer_instance

theorem sound_replaceContinues (labels : List String)
    {replace : NodeId → Option String → PassM Stmt}
    (h : ∀ K id label, Sound L env K (replace id label)) (depth : Nat) (b : Block) :
    Sound L env K (b.replaceContinues labels replace depth) := by
  refine (Stmt.replaceContinues.mutual_induct labels
    (fun depth s => ∀ K, Sound L env K (s.replaceContinues labels replace depth))
    (fun depth cs => ∀ K, Sound L env K (CommClauses.replaceContinues labels replace depth cs))
    (fun depth stmts => ∀ K, Sound L env K (Stmts.replaceContinues labels replace depth stmts))
    (fun depth cs => ∀ K, Sound L env K (TypeClauses.replaceContinues labels replace depth cs))
    (fun depth cs => ∀ K, Sound L env K (CaseClauses.replaceContinues labels replace depth cs))
    (fun depth s => ∀ K, Sound L env K (OptStmt.replaceContinues labels replace depth s))
    (fun depth b => ∀ K, Sound L env K (b.replaceContinues labels replace depth))
    ?_ ?_ ?_ ?_ ?_ ?_ ?_ ?_ ?_ ?_ ?_ ?_ ?_ ?_ ?_ ?_ ?_ ?_ ?_ ?_ ?_ ?_).2.2.2.2.2.2 depth b K
  case refine_11 =>
    intros
    unfold Stmt.replaceContinues
    split <;> first | infer_instance | grind
  all_goals
    intros
    first
    | unfold Stmt.replaceContinues
    | unfold CommClauses.replaceContinues
    | unfold Stmts.replaceContinues
    | unfold TypeClauses.replaceContinues
    | unfold CaseClauses.replaceContinues
    | unfold OptStmt.replaceContinues
    | unfold Block.replaceContinues
    infer_instance

instance (labels : List String) (post : Stmt) (body : Block) :
    Sound L env K (absorbPost labels post body) := by
  have hreplaced : ∀ K, Sound L env K (body.replaceContinues labels (runPost post) 0) :=
    fun _ => sound_replaceContinues labels (fun _ _ _ => inferInstance) 0 body
  unfold absorbPost
  refine @Sound.bind _ _ _ _ _ _ _ _ _ _ fun shadowed => ?_
  split
  · refine @Sound.bind _ _ _ _ _ _ _ _ _ _ fun target => ?_
    dsimp only
    split
    infer_instance
  · infer_instance

theorem sound_canonicalize (s : Stmt) (h : Knows L K s.unlabeled.id) :
    Sound L env K (canonicalize s) := by
  unfold canonicalize canonical
  split
  · rename_i id init cond post body hs
    rw [hs] at h
    have hid : Knows L K id := h
    have hcontrol :
        ∀ K [Knows L K id] cond body, Knows L K (Stmt.forLoop id none (some cond) none body).id :=
      fun _ hid _ _ => hid
    cases init <;> cases cond <;> cases post <;> infer_instance
  · infer_instance

end Loop

/-!
## Walks
-/

/-- A law about the table and the scopes in force, which a walk keeps between its actions. -/
class Law.Walking (L : Law) : Prop where
  node : ∀ p id, L.valid p (.node id)
  enter : ∀ {p} node, L.holds p → L.holds { p with scopes := p.scopes.enter p.table node }
  exit : ∀ {p} node, L.holds p → L.holds { p with scopes := p.scopes.exit node }
  other : ∀ {p q : Pass}, q.table = p.table → q.scopes = p.scopes ∨ q.scopes = .empty →
    L.holds p → L.holds q

instance [L.Walking] (id : NodeId) : Knows L K id := by
  refine ⟨fun p _ k hk => ?_⟩
  rw [hk]
  exact Law.Walking.node p id

namespace Law

/-- An action that keeps a law however it ends, and searches without an end only where
parents go on for ever. -/
def Keeps (L : Law) (env : PassEnv) {α : Type} (m : PassM α) : Prop :=
  ∀ p, (L.holds p → L.holds (m.exec env p).2) ∧
    ((m.exec env p).1 = .error .endless → (m.exec env p).2.table.Endless)

namespace Keeps

variable {α β : Type} {m : PassM α} {f : α → PassM β}

theorem of_sound [Bears α] (h : Sound L env (fun _ => False) m) : L.Keeps env m :=
  fun p => ⟨fun hp => (h.keeps p hp fun _ hk => hk.elim).1, h.ends p⟩

theorem of_exec {result : Pass → Except Fault α} {next : Pass → Pass}
    (hexec : ∀ p, m.exec env p = (result p, next p)) (hends : ∀ p, result p ≠ .error .endless)
    (h : ∀ p, L.holds p → L.holds (next p)) : L.Keeps env m := by
  intro p
  rw [hexec]
  exact ⟨h p, fun hfault => absurd hfault (hends p)⟩

theorem pure (a : α) : L.Keeps env (Pure.pure a) :=
  of_exec (fun _ => rfl) (fun _ h => by cases h) fun _ hp => hp

theorem raise (problem : Problem) : L.Keeps env (PassM.raise problem : PassM α) :=
  of_exec (fun _ => rfl) (fun _ h => by cases h) fun _ hp => hp

theorem bind (hm : L.Keeps env m) (hf : ∀ a, L.Keeps env (f a)) : L.Keeps env (m >>= f) := by
  refine fun p => ⟨fun hp => ?_, PassM.ends_bind (hm p).2 fun a q => (hf a q).2⟩
  have hq := (hm p).1 hp
  cases hexec : m.exec env p with
  | mk result q =>
    rw [hexec] at hq
    cases result with
    | ok a =>
      rw [PassM.exec_bind_ok hexec]
      exact (hf a q).1 hq
    | error fault =>
      rw [PassM.exec_bind_error hexec]
      exact hq

theorem mapM (xs : List α) (h : ∀ x, L.Keeps env (f x)) : L.Keeps env (xs.mapM f) := by
  induction xs with
  | nil => exact pure []
  | cons x rest ih =>
    rw [List.mapM_cons]
    exact (h x).bind fun _ => ih.bind fun _ => pure _

end Keeps
end Law

structure Transformer.Lawful (t : Transformer) (L : Law) (env : PassEnv) : Prop where
  expr : ∀ e, L.Keeps env (t.expr e) := by exact fun e => .pure e
  stmt : ∀ s, L.Keeps env (t.stmt s) := by exact fun s => .pure s
  decl : ∀ d, L.Keeps env (t.decl d) := by exact fun d => .pure d
  list : ∀ owner stmts, L.Keeps env (t.list owner stmts) := by exact fun _ stmts => .pure stmts
  missingTag : L.Keeps env t.missingTag := by exact .pure none

section

variable [L.Walking]

theorem Law.Keeps.within {α : Type} {m : PassM α} (node : NodeId) (h : L.Keeps env m) :
    L.Keeps env (PassM.within node m) := by
  have henter : L.Keeps env (PassM.enter node) :=
    .of_exec (fun _ => rfl) (fun _ h => by cases h) fun _ => Law.Walking.enter node
  have hexit : L.Keeps env (PassM.exit node) :=
    .of_exec (fun _ => rfl) (fun _ h => by cases h) fun _ => Law.Walking.exit node
  exact henter.bind fun _ => h.bind fun _ => hexit.bind fun _ => .pure _

theorem Parts.keeps_transform {t : Transformer} {fs : List Form} {parts : Parts fs}
    (h : Parts.All (fun f x => L.Keeps env (f.transform t x)) fs parts) :
    L.Keeps env (Parts.transform t fs parts) := by
  induction fs with
  | nil => exact .pure ()
  | cons f fs ih =>
    have hrest := ih h.2
    have haround : L.Keeps env (f.around (Parts.transform t fs parts.2)) := by
      unfold Form.around
      split
      · exact hrest.within _
      · exact hrest
    exact h.1.bind fun _ => haround.bind fun _ => .pure _

theorem Transformer.Lawful.walk {t : Transformer} (h : t.Lawful L env) (f : Form) (x : f.Tree) :
    L.Keeps env (f.transform t x) := by
  induction f, x using Form.induction with
  | h f x ih =>
    rw [Form.transform_eq]
    refine (Parts.keeps_transform ih).bind fun parts => ?_
    cases f with
    | expr => exact h.expr _
    | stmt listed => exact h.stmt _
    | decl top => exact h.decl _
    | list owner => exact h.list owner _
    | missingTag listed id init clauses => exact h.missingTag
    | _ => exact .pure _

theorem Law.Keeps.startWalk : L.Keeps env PassM.startWalk :=
  .of_exec (fun _ => rfl) (fun _ h => by cases h) fun _ => Law.Walking.other rfl (.inr rfl)

omit [L.Walking] in
theorem Law.Keeps.getFile : L.Keeps env PassM.getFile :=
  .of_exec (fun _ => rfl) (fun _ h => by cases h) fun _ hp => hp

theorem Law.Keeps.store {m : PassM File} (h : L.Keeps env m) :
    L.Keeps env (do
      let file ← m
      PassM.setFile file
      return (← get).changes) :=
  h.bind fun _ => .of_exec (fun _ => rfl) (fun _ h => by cases h) fun _ =>
    Law.Walking.other rfl (.inl rfl)

theorem Transformer.Lawful.run {t : Transformer} (h : t.Lawful L env) : L.Keeps env t.run :=
  Law.Keeps.startWalk.bind fun _ => Law.Keeps.getFile.bind fun file => (h.walk .file file).store

/-!
## Rules and runs
-/

omit [L.Walking] in
theorem Transformer.keeps_splice {replace : Stmt → PassM (Option (List Stmt))} {stmts : List Stmt}
    (h : ∀ s, Sound L env (fun _ => False) (replace s)) : L.Keeps env (splice replace stmts) :=
  .of_sound (sound_splice stmts fun s _ => h s)

namespace Split

theorem keeps_splitPackageDecl (d : TopDecl) : L.Keeps env (splitPackageDecl d) := by
  apply Law.Keeps.of_sound
  unfold splitPackageDecl
  split <;> infer_instance

theorem keeps_run : L.Keeps env run := by
  have hsplit : transformer.Lawful L env :=
    { list := fun _ _ => Transformer.keeps_splice fun _ => inferInstance }
  refine Law.Keeps.startWalk.bind fun _ => Law.Keeps.getFile.bind fun file => ?_
  exact Law.Keeps.bind (.mapM _ keeps_splitPackageDecl) fun decls => (hsplit.walk .file _).store

end Split

theorem Rule.keeps_apply {rule : Rule} (hrule : rule ∈ catalog) : L.Keeps env rule.apply := by
  simp only [catalog, List.mem_cons, List.not_mem_nil, or_false] at hrule
  rcases hrule with rfl | rfl | rfl | rfl | rfl | rfl | rfl | rfl | rfl | rfl
  · refine Transformer.Lawful.run { expr := fun e => .of_sound ?_ }
    unfold Dereference.transformer
    infer_instance
  · refine Transformer.Lawful.run { missingTag := .of_sound ?_ }
    unfold SwitchTag.transformer
    infer_instance
  · exact Transformer.Lawful.run
      { stmt := fun s => .of_sound (Initializer.sound_hoistElse s fun _ _ _ _ _ _ => inferInstance)
        list := fun _ _ =>
          Transformer.keeps_splice fun s => Initializer.sound_hoist s inferInstance }
  · exact Transformer.Lawful.run
      { list := fun _ _ =>
          Transformer.keeps_splice fun s => Loop.sound_canonicalize s inferInstance }
  · exact Split.keeps_run
  · refine Transformer.Lawful.run { decl := fun d => .of_sound ?_ }
    exact inferInstanceAs (Sound L env _ (Annotations.onVarSpecs Annotations.annotate d))
  · refine Transformer.Lawful.run { decl := fun d => .of_sound ?_ }
    exact inferInstanceAs (Sound L env _ (Annotations.onVarSpecs Zero.giveZeros d))
  · exact Transformer.Lawful.run
      { list := fun _ _ => Transformer.keeps_splice fun _ => inferInstance }
  · exact Transformer.Lawful.run
      { list := fun _ _ => Transformer.keeps_splice fun _ => inferInstance }
  · refine Transformer.Lawful.run { list := fun _ stmts => .of_sound ?_ }
    exact inferInstanceAs (Sound L env _ (stmts.mapM Discard.expand))

theorem Rule.keeps_pass {rule : Rule} (hrule : rule ∈ catalog) (config : Config) :
    L.Keeps env (rule.pass config) := by
  have hiterate : ∀ limit n total, L.Keeps env (rule.iterate limit n total) := by
    intro limit n
    induction n with
    | zero => exact fun _ => .raise _
    | succ n ih =>
      intro total
      unfold iterate
      refine (keeps_apply hrule).bind fun changes => ?_
      have hcount : L.Keeps env (modify fun pass : Pass =>
          { pass with applications := pass.applications + 1 } : PassM Unit) :=
        .of_exec (fun _ => rfl) (fun _ h => by cases h) fun _ => Law.Walking.other rfl (.inl rfl)
      refine hcount.bind fun _ => ?_
      split
      · exact .of_exec (fun _ => rfl) (fun _ h => by cases h) fun _ hp => hp
      · split
        · exact .pure _
        · exact ih _
  unfold pass
  refine (hiterate _ _ _).bind fun changes => ?_
  split
  · have hlook : L.Keeps env (get : PassM Pass) :=
      .of_exec (fun _ => rfl) (fun _ h => by cases h) fun _ hp => hp
    refine hlook.bind fun p => ?_
    split
    · exact .raise _
    · exact .pure _
  · exact .pure _

structure Law.Governs (L : Law) (P : SymbolTable → Prop) : Prop where
  start : ∀ {p}, p.scopes = .empty → P p.table → L.holds p
  leave : ∀ {p}, L.holds p → P p.table

namespace Pipeline

variable {P : SymbolTable → Prop} {config : Config} {view : PackageView}

theorem step_keeps (h : L.Governs P) {progress left : Progress} {rule : Rule}
    (hrule : rule ∈ Rule.catalog) (hp : P progress.table) {result : Except Fault Progress}
    (hstep : step config view progress rule = (result, left)) :
    P left.table ∧ (∀ next, result = .ok next → next = left) ∧
      (result = .error .endless → left.table.Endless) := by
  have hkeeps : L.Keeps ⟨rule.name, view, config.tempStem⟩ (rule.pass config) :=
    Rule.keeps_pass hrule config
  have hpass := hkeeps progress.start
  have hleave := h.leave (hpass.1 (h.start rfl hp))
  cases stepEnds hstep with
  | skipped _ hnext | undone _ _ _ hnext =>
    subst hnext
    exact ⟨hp, by rintro _ ⟨⟩; rfl, fun hfault => by cases hfault⟩
  | applied _ hexec hnext =>
    subst hnext
    rw [hexec] at hleave
    exact ⟨hleave, by rintro _ ⟨⟩; rfl, fun hfault => by cases hfault⟩
  | stopped _ hexec =>
    rw [hexec] at hleave hpass
    refine ⟨hleave, by rintro _ ⟨⟩, fun hfault => hpass.2 ?_⟩
    cases hfault
    rfl

theorem steps_keep (h : L.Governs P) {rules : List Rule} (hrules : rules ⊆ Rule.catalog)
    {progress : Progress} (hp : P progress.table) :
    P (steps config view progress rules).2.table ∧
      ((steps config view progress rules).1 = .error .endless →
        (steps config view progress rules).2.table.Endless) := by
  induction rules generalizing progress with
  | nil => exact ⟨hp, fun hfault => by cases hfault⟩
  | cons rule rest ih =>
    unfold steps
    cases hstep : step config view progress rule with
    | mk outcome left =>
      rcases step_keeps h (hrules (.head _)) hp hstep with ⟨hleft, hnext, hends⟩
      cases outcome with
      | ok next =>
        rw [← hnext next rfl] at hleft
        exact ih (fun other hother => hrules (.tail _ hother)) hleft
      | error fault =>
        refine ⟨hleft, fun hfault => hends ?_⟩
        cases hfault
        rfl

theorem run_keeps (h : L.Governs P) {pipeline : Pipeline} (hconfig : ofConfig config = .ok pipeline)
    (file : File) {table : SymbolTable} (hp : P table) :
    P (pipeline.run file table).table ∧ ((pipeline.run file table).result = .error .endless →
      (pipeline.run file table).table.Endless) := by
  have hreserved : P (table.reserve file.spelledNames) := by
    let start : Pass := ⟨file, table, ⟨0⟩, [], .empty, 0, 0⟩
    have hstart : L.holds start := h.start rfl hp
    exact h.leave (L.act hstart (.note ..)).1
  unfold run
  dsimp only
  split
  · exact ⟨hreserved, fun hfault => by cases hfault⟩
  · rename_i ids _
    let start : Progress := ⟨file, table.reserve file.spelledNames, ids, ⟨[], []⟩⟩
    have hstart : P start.table := hreserved
    exact steps_keep h (accepted_of_ofConfig hconfig).2.subset hstart

end Pipeline
end
end
end Desugar
