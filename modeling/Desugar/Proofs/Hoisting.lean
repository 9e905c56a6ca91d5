import Desugar.Proofs.Idempotence
import Desugar.Proofs.Jumps
import Desugar.Proofs.KeptGoing

/-!
# Initializers are moved at once

One walk over a file moves every initializer of an if, switch or type switch
into a block, however deep the control statements stand: what is moved has been
walked before, and the block around it is not a control statement.  So a second
walk finds nothing to do, and two applications are enough for the rule.
-/

namespace Desugar

open PassM (Yields Obtains Ends)
open Node (All)

/-- What moving initializers relies on: a statement in a header is simple, and an
else is followed by an if or a block. -/
def Node.isOrderly : Node → Bool
  | .header s => s.isSimple
  | .stmt (.ifElse _ _ _ _ els) => els.all Stmt.isBranch
  | _ => true

/-- No if, switch or type switch of a file has an initializer. -/
def File.IsHoisted (file : File) : Prop :=
  ∀ n ∈ file.nodes, n.hasControlInit = false

/-!
## What the walk leaves
-/

namespace Stmt

theorem hasControlInit_of_isSimple {s : Stmt} (hs : s.isSimple = true) :
    s.hasControlInit = false := by
  cases s with
  | ifElse id init cond body els | switch id init tag clauses
  | typeSwitch id init guard clauses => cases hs
  | _ => rfl

theorem isOrderly_face (s : Stmt) : (Node.stmt s.face).isOrderly = (Node.stmt s).isOrderly := by
  cases s with
  | ifElse id init cond body els =>
    cases els with
    | none => rfl
    | some els => exact isBranch_elseFace els
  | _ => rfl

theorem isBranch_of_isOrderly {s₀ els : Stmt} {id : NodeId} {init : Option Stmt} {cond : Expr}
    {body : Block} (h : (Node.stmt s₀).isOrderly = true ∨ (Node.header s₀).isOrderly = true)
    (hsame : (Stmt.ifElse id init cond body (some els)).face = s₀.face) :
    els.isBranch = true := by
  rcases h with h | h
  · rw [← isOrderly_face, ← hsame, isOrderly_face] at h
    exact h
  · have hs₀ : s₀.isSimple = true := h
    rw [← isSimple_face, ← hsame] at hs₀
    cases hs₀

end Stmt

namespace Initializer

variable {expected : Fault → Prop} {env : PassEnv} {start p : Pass}

theorem all_own {s : Stmt} (h : s.unlabeled.hasControlInit = false) :
    ∀ n ∈ s.own, n.hasControlInit = false := by
  cases s with
  | labeled id label inner =>
    rw [Stmt.own_labeled]
    exact List.forall_mem_cons.mpr ⟨rfl, all_own h⟩
  | decl id d => exact List.forall_mem_cons.mpr ⟨rfl, List.forall_mem_singleton.mpr rfl⟩
  | _ => exact List.forall_mem_singleton.mpr h

theorem all_label {s : Stmt} (labels : List Label)
    (h : ∀ n ∈ Stmts.nodes [s], n.hasControlInit = false) :
    ∀ n ∈ Stmts.nodes [s.label labels], n.hasControlInit = false := by
  induction labels with
  | nil => exact h
  | cons l rest ih => exact List.forall_mem_cons.mpr ⟨rfl, ih⟩

theorem nodes_block (id blockId : NodeId) (labels : List Label) (init control : Stmt) :
    Stmts.nodes [.block id ⟨blockId, [init, control.label labels]⟩] =
      .stmt (.block id ⟨blockId, [init, control.label labels]⟩) ::
        .block ⟨blockId, [init, control.label labels]⟩ ::
        (Stmts.nodes [init] ++ Stmts.nodes [control.label labels]) := by
  simp [Stmts.nodes, Stmt.parts, Block.nodes]

theorem all_block {init control : Stmt} (id blockId : NodeId) (labels : List Label)
    (hinit : ∀ n ∈ Stmts.nodes [init], n.hasControlInit = false)
    (hcontrol : ∀ n ∈ Stmts.nodes [control], n.hasControlInit = false) :
    ∀ n ∈ Stmts.nodes [.block id ⟨blockId, [init, control.label labels]⟩],
      n.hasControlInit = false := by
  rw [nodes_block]
  refine List.forall_mem_cons.mpr ⟨rfl, List.forall_mem_cons.mpr ⟨rfl, ?_⟩⟩
  exact List.forall_mem_append.mpr ⟨hinit, all_label labels hcontrol⟩

theorem all_of_takeInit? {s init control : Stmt} (h : s.takeInit? = some (init, control))
    (hparts : ∀ n ∈ s.parts, n.hasControlInit = false) :
    (∀ n ∈ Stmts.nodes [init], n.hasControlInit = false) ∧
      ∀ n ∈ Stmts.nodes [control], n.hasControlInit = false := by
  rw [Stmt.parts_of_takeInit? h] at hparts
  rcases List.forall_mem_append.mp hparts with ⟨hinit, hcontrol⟩
  rcases List.forall_mem_cons.mp hinit with ⟨hheader, hinitParts⟩
  simp only [Stmts.nodes, List.append_nil]
  constructor
  · exact List.forall_mem_cons.mpr ⟨hheader, hinitParts⟩
  · exact List.forall_mem_cons.mpr ⟨Stmt.hasControlInit_of_takeInit? h, hcontrol⟩

theorem yields_hoist_all (hexhausted : expected .exhausted)
    (hmissing : ∀ (node : NodeId) (what : String), expected (.problem (.missingScope node what)))
    {s : Stmt} (hdeep : ∀ n ∈ s.deep, n.hasControlInit = false) :
    Yields expected env p (hoist s)
      (fun found _ => ∀ n ∈ Stmts.nodes (found.getD [s]), n.hasControlInit = false) := by
  unfold hoist
  cases htake : s.unlabeled.takeInit? with
  | none =>
    apply Ends.pure
    intro n hn
    have hown := all_own ((Stmt.takeInit?_eq_none_iff _).mp htake)
    rcases (Stmts.mem_nodes_iff [s] n).mp hn with ⟨s', hs', hn'⟩
    rw [List.mem_singleton.mp hs'] at hn'
    rcases hn' with rfl | hn' | hn'
    · exact hown _ (.head _)
    · exact hown _ (.tail _ hn')
    · exact hdeep _ hn'
  | some taken =>
    rcases taken with ⟨init, control⟩
    rw [← s.deep_unlabeled, Stmt.deep_of_takeInit? htake] at hdeep
    rcases all_of_takeInit? htake hdeep with ⟨hinit, hcontrol⟩
    apply (yields_enclose_eq hexhausted (hmissing control.id)).bind
    rintro block q _ ⟨id, blockId, rfl, _, _⟩
    exact .pure (all_block id blockId s.labels hinit hcontrol)

theorem yields_hoistElse_all (hexhausted : expected .exhausted)
    (hmissing : ∀ (node : NodeId) (what : String), expected (.problem (.missingScope node what)))
    {id : NodeId} {init : Option Stmt} {cond : Expr} {body : Block} {els : Stmt}
    (hels : els.isBranch = true) (hparts : ∀ n ∈ els.parts, n.hasControlInit = false) :
    Yields expected env p (transformer.stmt (.ifElse id init cond body (some els)))
      (fun s _ => ∃ els', s = .ifElse id init cond body (some els') ∧ els'.isBranch = true ∧
        ∀ n ∈ Stmts.nodes [els'], n.hasControlInit = false) := by
  cases htake : els.takeInit? with
  | none =>
    rw [hoistElse_of_takeInit?_eq_none htake]
    apply Ends.pure
    refine ⟨els, rfl, hels, ?_⟩
    simp only [Stmts.nodes, List.append_nil]
    exact List.forall_mem_cons.mpr ⟨(Stmt.takeInit?_eq_none_iff els).mp htake, hparts⟩
  | some taken =>
    rcases taken with ⟨start', control⟩
    rcases all_of_takeInit? htake hparts with ⟨hstart, hcontrol⟩
    cases els with
    | ifElse inner start test first rest =>
      cases start with
      | none => cases htake
      | some start =>
        cases htake
        apply (yields_enclose_eq hexhausted (hmissing _)).bind
        rintro block q _ ⟨blockId, bodyId, rfl, _, _⟩
        have hcount : q.Grows _ := .counted q
        refine .step (PassM.exec_countChange env q) hcount (.pure ?_)
        exact ⟨_, rfl, rfl, all_block blockId bodyId [] hstart hcontrol⟩
    | block _ _ => cases htake
    | _ => cases hels

theorem contract_orderly (hexhausted : expected .exhausted)
    (hmissing : ∀ (node : NodeId) (what : String), expected (.problem (.missingScope node what))) :
    transformer.Contract expected env start (fun n => n.isOrderly = true) (fun _ => True)
      (fun _ _ => True) (fun _ n => n.hasControlInit = false) (fun _ => True) where
  fit_mono _ _ := trivial
  after_mono _ h := h
  expr := by
    intro p e₀ e _ _ hsame hinner
    apply Ends.pure
    refine ⟨Expr.face_eq_of_outline_eq hsame, ?_⟩
    rw [e.nodes_eq]
    exact Node.All.cons_iff.mpr ⟨rfl, hinner⟩
  decl := by
    intro p d₀ d top _ _ _ hsame hspecs
    exact .pure ⟨Decl.id_eq_of_outline_eq hsame, Decl.kind_eq_of_outline_eq hsame, trivial, hspecs⟩
  top _ _ := rfl
  stmt := hoistElse_of_not_hasElse
  branch := by
    intro p s₀ id init cond body els _ hbefore hsame hall _
    have hels := Stmt.isBranch_of_isOrderly hbefore hsame
    rcases Node.All.append_iff.mp hall with ⟨hheader, hdeep⟩
    rw [Transformer.parts_of_isBranch hels] at hdeep
    apply (yields_hoistElse_all hexhausted hmissing hels hdeep).mono
    rintro s q _ ⟨els', rfl, hels', helse⟩
    refine ⟨?_, trivial, rfl, ?_⟩
    · rw [← hsame]
      simp only [Stmt.face, Option.map_some, Stmt.elseFace, hels, hels']
    · simp only [Stmts.nodes, List.append_nil] at helse
      exact Node.All.append_iff.mpr ⟨hheader, helse⟩
  list := by
    intro p owner stmts _ hstmts
    apply Transformer.yields_splice_all fun _ h => h
    intro s hs q _
    exact yields_hoist_all hexhausted hmissing (hstmts s hs).2
  tag := by
    intro p id init clauses _ _
    exact .pure ⟨trivial, .nil⟩
  tagged_some _ := trivial
  keep _ _ _ _ := trivial
  header := by
    intro p s₀ s _ hbefore hsame
    have hs : s.isSimple = true := by
      rw [← Stmt.isSimple_face, hsame, Stmt.isSimple_face]
      exact hbefore
    exact ⟨Stmt.hasControlInit_of_isSimple hs, Stmt.attached_of_isSimple hs⟩
  block _ := rfl
  func _ _ _ := rfl

end Initializer

/-!
## Applications of the rule
-/

namespace Rule

variable {env : PassEnv} {p : Pass}

def EndsBy (fault : Fault) : Prop :=
  ∀ (rule : String) (limit : Nat), fault ≠ .problem (.noFixpoint rule limit)

theorem endsBy_exhausted : EndsBy .exhausted := by
  intro rule limit h
  cases h

theorem endsBy_missingScope (node : NodeId) (what : String) :
    EndsBy (.problem (.missingScope node what)) := by
  intro rule limit h
  cases h

theorem yields_hoistInit {expected : Fault → Prop} (hexhausted : expected .exhausted)
    (hmissing : ∀ (node : NodeId) (what : String), expected (.problem (.missingScope node what)))
    (h : ∀ n ∈ p.file.nodes, n.isOrderly = true) :
    Yields expected env p hoistInit.apply (fun _ q => q.file.IsHoisted) := by
  apply ((Initializer.contract_orderly hexhausted hmissing).run (.refl p) h
    fun _ _ => trivial).mono
  intro changes q _ hq
  exact hq.2

theorem exec_hoistInit_of_isHoisted (h : p.file.IsHoisted) (env : PassEnv) :
    ∃ scopes, hoistInit.apply.exec env p = (.ok 0, { p with scopes := scopes, changes := 0 }) := by
  have hidle : Initializer.transformer.Idle env p.table (· ∈ p.file.nodes) := by
    apply Initializer.idle
    intro n hn
    have hn' := h n hn
    cases n with
    | stmt s | header s => exact hn'
    | _ => trivial
  exact hidle.exec_run

theorem yields_iterate_hoistInit (h : ∀ n ∈ p.file.nodes, n.isOrderly = true) (limit n : Nat) :
    Yields EndsBy env p (hoistInit.iterate limit (n + 2) 0) (fun _ q => q.file.IsHoisted) := by
  have hlast : ∀ (total : Nat) (q : Pass), q.file.IsHoisted →
      Yields EndsBy env q (hoistInit.iterate limit (n + 1) total)
        (fun _ r => r.file.IsHoisted) := by
    intro total q hq
    rcases exec_hoistInit_of_isHoisted hq env with ⟨scopes, happly⟩
    refine .step happly (.of_same_record rfl rfl rfl) ?_
    refine .step (PassM.exec_modify _ env _) (.of_same_record rfl rfl rfl) ?_
    split
    · exact .of_exec_error (PassM.exec_throw .exhausted env _) (.refl _) endsBy_exhausted
    · exact .pure hq
  apply (yields_hoistInit endsBy_exhausted endsBy_missingScope h).bind
  intro changes q _ hq
  refine .step (PassM.exec_modify _ env q) (.of_same_record rfl rfl rfl) ?_
  split
  · exact .of_exec_error (PassM.exec_throw .exhausted env _) (.refl _) endsBy_exhausted
  · split
    · exact .pure hq
    · exact hlast _ _ hq

theorem endsBy_of_validate {file : File} {table : SymbolTable} {diagnostics : List Diagnostic}
    {problem : Problem} (h : hoistInit.validate file table diagnostics = some problem) :
    EndsBy (.problem problem) := by
  rcases File.problem_of_brokenProperty h with ⟨detail, rfl⟩
  intro rule limit heq
  cases heq

theorem yields_pass_hoistInit (h : ∀ n ∈ p.file.nodes, n.isOrderly = true) {config : Config}
    (hlimit : 2 ≤ config.maxIterations) :
    Yields EndsBy env p (hoistInit.pass config) (fun _ q => q.file.IsHoisted) := by
  have hlimit' : 2 ≤ config.maxIterations.toNat := UInt64.le_iff_toNat_le.mp hlimit
  rcases Nat.exists_eq_add_of_le (Nat.le_trans hlimit' (Nat.le_max_left _ 1)) with ⟨n, hn⟩
  unfold pass
  dsimp only
  rw [hn, Nat.add_comm 2 n]
  apply (yields_iterate_hoistInit h _ n).bind
  intro changes q _ hq
  split
  · refine .look (PassM.exec_get env q) ?_
    split
    · rename_i problem hproblem
      exact .raise_bind (endsBy_of_validate hproblem)
    · exact .pure hq
  · exact .pure hq

/-- Moving initializers is settled at once.  Whether the rule is applied once or as a pass
that asks for more, as soon as it gives a result no if, switch or type switch of the file has
an initializer, and another application, wherever that file is, counts no change and leaves
everything as it is but for the scopes in force.  So a pass that may apply the rule twice
comes to an end. -/
theorem hoistInit_settled_at_once (env : PassEnv) (config : Config) (p : Pass)
    (horderly : ∀ n ∈ p.file.nodes, n.isOrderly = true) :
    (∀ action ∈ [hoistInit.apply, hoistInit.pass config], ∀ changes q,
      action.exec env p = (.ok changes, q) → q.file.IsHoisted ∧
        ∀ (env' : PassEnv) (r : Pass), r.file = q.file → ∃ scopes,
          hoistInit.apply.exec env' r = (.ok 0, { r with scopes := scopes, changes := 0 })) ∧
    (2 ≤ config.maxIterations → ∀ fault q, (hoistInit.pass config).exec env p = (.error fault, q) →
      ∀ (rule : String) (limit : Nat), fault ≠ .problem (.noFixpoint rule limit)) := by
  have hagain : ∀ q : Pass, q.file.IsHoisted → ∀ (env' : PassEnv) (r : Pass), r.file = q.file →
      ∃ scopes, hoistInit.apply.exec env' r =
        (.ok 0, { r with scopes := scopes, changes := 0 }) := by
    intro q hq env' r hr
    rw [← hr] at hq
    exact exec_hoistInit_of_isHoisted hq env'
  have hsettled : ∀ action ∈ [hoistInit.apply, hoistInit.pass config],
      Obtains env p action (fun _ q => q.file.IsHoisted) := by
    let before : Pass → Prop := fun q =>
      (∀ n ∈ q.file.nodes, n.isOrderly = true) ∨ q.file.IsHoisted
    have happly : ∀ q, before q →
        Obtains env q hoistInit.apply (fun _ r => r.file.IsHoisted) := by
      intro q hq
      rcases hq with hq | hq
      · exact yields_hoistInit trivial (fun _ _ => trivial) hq
      · rcases exec_hoistInit_of_isHoisted hq env with ⟨scopes, happly⟩
        exact .of_exec happly (.of_same_record rfl rfl rfl) hq
    intro action haction
    rcases List.mem_pair.mp haction with rfl | rfl
    · exact happly p (.inl horderly)
    · exact yields_pass happly (fun _ hq => hq) (fun _ _ hq => .inr hq) config
        (.inl horderly)
  constructor
  · intro action haction changes q hexec
    have hq : q.file.IsHoisted := ((hsettled action haction).of_ok hexec).2
    exact ⟨hq, hagain q hq⟩
  · intro hlimit fault q hexec
    exact ((yields_pass_hoistInit horderly hlimit).of_error hexec).2

end Rule

def mainFile (body : List Stmt) : File :=
  ⟨⟨0⟩, "main", "", [], [.func ⟨⟨1⟩, ⟨⟨2⟩, "main"⟩, none, ⟨[], [], false⟩, some ⟨⟨3⟩, body⟩⟩]⟩

/-- A labelled if with an initializer, followed by an else-if with another one.  Its block
holds a switch with an initializer, and the function literal of the second initializer holds
one more if. -/
def nestedIf : Stmt :=
  let inner : Stmt := .ifElse ⟨20⟩ (some (.expr ⟨21⟩ (.ident ⟨22⟩ "f"))) (.ident ⟨23⟩ "c")
    ⟨⟨24⟩, []⟩ none
  let switch : Stmt := .switch ⟨30⟩ (some (.incDec ⟨31⟩ (.ident ⟨32⟩ "x") true))
    (some (.ident ⟨33⟩ "x")) []
  let other : Stmt := .ifElse ⟨10⟩
    (some (.assign ⟨11⟩ [.ident ⟨12⟩ "g"] .assign
      [.funcLit ⟨13⟩ ⟨[], [], false⟩ ⟨⟨14⟩, [inner]⟩])) (.ident ⟨15⟩ "d") ⟨⟨16⟩, [switch]⟩ none
  .labeled ⟨4⟩ "L" (.ifElse ⟨5⟩ (some (.expr ⟨6⟩ (.ident ⟨7⟩ "f"))) (.ident ⟨8⟩ "c") ⟨⟨9⟩, []⟩
    (some other))

/-- Of the nodes around the statement, only the body of the function has a scope. -/
def nestedInits : Pass where
  file := mainFile [nestedIf]
  table := { SymbolTable.empty with scopeOf := (∅ : NodeMap ScopeId).insert ⟨3⟩ ⟨0⟩ }
  ids := ⟨34⟩
  diagnostics := []
  scopes := .empty
  changes := 0
  applications := 0

/-- Four initializers are moved by the first application, and none by the second. -/
theorem nestedInits_settled :
    (∀ n ∈ nestedInits.file.nodes, n.isOrderly = true) ∧
    ∃ q r, Rule.hoistInit.apply.exec ⟨"hoist-init", .ofFile nestedInits.file, "tmp"⟩ nestedInits =
        (.ok 4, q) ∧ q.file.IsHoisted ∧
      Rule.hoistInit.apply.exec ⟨"hoist-init", .ofFile nestedInits.file, "tmp"⟩ q = (.ok 0, r) ∧
      r.file = q.file := by
  have horderly : ∀ n ∈ nestedInits.file.nodes, n.isOrderly = true := by
    decide +kernel
  refine ⟨horderly, ?_⟩
  have hfirst : (Rule.hoistInit.apply.exec ⟨"hoist-init", .ofFile nestedInits.file, "tmp"⟩
      nestedInits).1.toOption = some 4 := by
    decide +kernel
  cases hexec : Rule.hoistInit.apply.exec ⟨"hoist-init", .ofFile nestedInits.file, "tmp"⟩
    nestedInits with
  | mk result q =>
    rw [hexec] at hfirst
    cases result with
    | error fault => cases hfirst
    | ok changes =>
      cases hfirst
      rcases (Rule.hoistInit_settled_at_once _ {} nestedInits horderly).1 _ (.head _) 4 q hexec with
        ⟨hhoisted, hagain⟩
      rcases hagain _ q rfl with ⟨scopes, hsecond⟩
      exact ⟨q, _, rfl, hhoisted, hsecond, rfl⟩

/-- The second if of a chain, without a scope: `if y := x; y {}`. -/
def elseIf : Stmt :=
  .ifElse ⟨10⟩ (some (.assign ⟨11⟩ [.ident ⟨12⟩ "y"] .define [.ident ⟨13⟩ "x"])) (.ident ⟨14⟩ "y")
    ⟨⟨15⟩, []⟩ none

/-- The first if of the chain, `if x := c; x {} else …`, has a scope, in which its variable is
declared. -/
def chainedIfs : Pass where
  file := mainFile [.ifElse ⟨4⟩ (some (.assign ⟨5⟩ [.ident ⟨6⟩ "x"] .define [.ident ⟨7⟩ "c"]))
    (.ident ⟨8⟩ "x") ⟨⟨9⟩, []⟩ (some elseIf)]
  table :=
    { SymbolTable.empty with
      scopes := #[⟨none, []⟩, ⟨some ⟨0⟩, [("x", ⟨0⟩)]⟩]
      scopeOf := ((∅ : NodeMap ScopeId).insert ⟨3⟩ ⟨0⟩).insert ⟨4⟩ ⟨1⟩
      bindings := #[⟨"x", none, ⟨1⟩, .var, false⟩] }
  ids := ⟨16⟩
  diagnostics := []
  scopes := .empty
  changes := 0
  applications := 0

/-- The block of an if whose initializer has moved, in a scope in which a name is not
visible. -/
def Node.hides (table : SymbolTable) (name : String) (control : NodeId) : Node → Bool
  | .stmt (.block _ ⟨body, [_, moved]⟩) =>
      moved.id == control && (table.scopeOf[body]?).any fun scope =>
        table.scope? scope == some ⟨some ⟨0⟩, []⟩ && (table.lookup scope name).isNone
  | _ => false

/-- The variable of the first if is visible at the second one, and is not visible any
more in the block around the second initializer: the scope of the first if is passed
over. -/
theorem elseIf_scope_passed_over :
    chainedIfs.table.scopeOf[(⟨4⟩ : NodeId)]? = some ⟨1⟩ ∧
    chainedIfs.table.scopeOf[elseIf.id]? = none ∧
    chainedIfs.table.lookup ⟨1⟩ "x" = some ⟨0⟩ ∧
    ∃ q, Rule.hoistInit.apply.exec ⟨"hoist-init", .ofFile chainedIfs.file, "tmp"⟩ chainedIfs =
        (.ok 2, q) ∧
      ∃ n ∈ q.file.nodes, n.hides q.table "x" elseIf.id = true := by
  have hresult : (Rule.hoistInit.apply.exec ⟨"hoist-init", .ofFile chainedIfs.file, "tmp"⟩
      chainedIfs).1 = .ok 2 := by
    decide +kernel
  have hhidden : (Rule.hoistInit.apply.exec ⟨"hoist-init", .ofFile chainedIfs.file, "tmp"⟩
      chainedIfs).2.file.nodes.any (Node.hides (Rule.hoistInit.apply.exec
        ⟨"hoist-init", .ofFile chainedIfs.file, "tmp"⟩ chainedIfs).2.table "x" elseIf.id) =
          true := by
    decide +kernel
  refine ⟨by decide +kernel, by decide +kernel, by decide +kernel, ?_⟩
  cases hexec : Rule.hoistInit.apply.exec ⟨"hoist-init", .ofFile chainedIfs.file, "tmp"⟩
    chainedIfs with
  | mk result q =>
    rw [hexec] at hresult hhidden
    cases hresult
    exact ⟨q, rfl, List.any_eq_true.mp hhidden⟩

/-!
## Jumps to a hoisted statement
-/

/-- A conditional with an initializer and a label, to which a goto goes back. -/
def reentryFile : File :=
  let check : Stmt := .ifElse ⟨5⟩ (some (.assign ⟨6⟩ [.ident ⟨7⟩ "x"] .assign [.ident ⟨8⟩ "y"]))
    (.ident ⟨9⟩ "c") ⟨⟨10⟩, []⟩ none
  mainFile [.labeled ⟨4⟩ "L" check, .branch ⟨11⟩ .goto (some "L")]

def reentryTable : SymbolTable :=
  { SymbolTable.empty with
    types := #[.basic .int, .basic .bool]
    exprTypes := (((∅ : NodeMap TypeId).insert ⟨7⟩ ⟨0⟩).insert ⟨8⟩ ⟨0⟩).insert ⟨9⟩ ⟨1⟩
    scopes := #[⟨none, []⟩, ⟨some ⟨0⟩, []⟩, ⟨some ⟨1⟩, []⟩, ⟨some ⟨2⟩, []⟩]
    scopeOf := (((∅ : NodeMap ScopeId).insert ⟨3⟩ ⟨1⟩).insert ⟨5⟩ ⟨2⟩).insert ⟨10⟩ ⟨3⟩ }

theorem after?_reentryFile :
    NodeSupply.after? (reentryFile.maxId.larger reentryTable.maxNode) = some ⟨12⟩ :=
  NodeSupply.after?_of_largest 11 (by decide) (by decide) (by decide)
    (by decide)

/-- A label stays behind with the statement whose initializer moves in front of it,
so that a goto goes into the block of the two. -/
theorem reentryFile_jumps_into_block :
    reentryFile.WellFormed reentryTable ∧ reentryFile.JumpsValid Stmt.labelNames ∧
      (Pipeline.default.run reentryFile reentryTable).isClean = true ∧
      ¬ (Pipeline.default.run reentryFile reentryTable).file.JumpsValid Stmt.labelNames := by
  refine ⟨⟨?_, ?_⟩, ?_, ?_, ?_⟩
  · simp [reentryFile, mainFile, File.nodes, TopDecl.nodes, Block.nodes, Stmts.nodes, Stmt.parts,
      Exprs.nodes, Expr.nodes, OptStmt.headerNodes, OptStmt.nodes, Node.WellFormed, Stmt.WellFormed,
      Stmt.isSimple]
  · simp [reentryFile, mainFile, File.nodes, TopDecl.nodes, Block.nodes, Stmts.nodes, Stmt.parts,
      Exprs.nodes, Expr.nodes, OptStmt.headerNodes, OptStmt.nodes, Node.Direct, Expr.Direct]
  · unfold File.JumpsValid
    decide +kernel
  · rw [Pipeline.run_eq_of_ids after?_reentryFile]
    decide +kernel
  · unfold File.JumpsValid
    rw [Pipeline.run_eq_of_ids after?_reentryFile]
    decide +kernel

end Desugar
