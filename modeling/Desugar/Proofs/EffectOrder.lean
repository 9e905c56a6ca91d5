import Desugar.Assignment.Parallel
import Desugar.Proofs.Results

/-!
# The order of effects

Evaluating an expression acts on the world through the impure calls and the
receives in it.  Splitting an assignment to several targets moves expressions, so
the order in which these take place is at stake.  A split through temporaries keeps
it.  A direct split keeps it exactly when no source that acts comes before a target
that does.
-/

namespace Desugar

open PassM (Gives)

variable {env : PassEnv}

/-!
## Events
-/

mutual

/-- The impure calls and the receives of an expression, in the order in which they
take place: those of the operands first, from left to right. -/
def Expr.events (table : SymbolTable) : Expr → List Expr
  | .ident _ _ => []
  | .lit _ _ => []
  | .composite _ _ elts => Exprs.events table elts
  | .keyValue _ key value => key.events table ++ value.events table
  -- The body of a function literal is not evaluated.
  | .funcLit _ _ _ => []
  | .paren _ x => x.events table
  | .selector _ x _ => x.events table
  | .index _ x index => x.events table ++ index.events table
  | .slice _ x low high max =>
    x.events table ++ OptExpr.events table low ++ OptExpr.events table high ++
      OptExpr.events table max
  | .typeAssert _ x _ => x.events table
  | .call id callee args spread =>
    callee.events table ++ Exprs.events table args ++
      if table.isPureCallee callee then [] else [.call id callee args spread]
  | .star _ x => x.events table
  | .unary id op x => x.events table ++ if op = .recv then [.unary id op x] else []
  | .binary _ _ x y => x.events table ++ y.events table
  | .type _ _ => []

def Exprs.events (table : SymbolTable) : List Expr → List Expr
  | [] => []
  | e :: rest => e.events table ++ Exprs.events table rest

def OptExpr.events (table : SymbolTable) : Option Expr → List Expr
  | none => []
  | some e => e.events table

end

def Spec.events (table : SymbolTable) : Spec → List Expr
  | .value spec => Exprs.events table spec.values
  | .type _ => []

mutual

/-- The events of a statement that runs straight through: those of its targets,
then those of its sources. -/
def Stmt.events? (table : SymbolTable) : Stmt → Option (List Expr)
  | .assign _ lhs _ rhs => some (Exprs.events table lhs ++ Exprs.events table rhs)
  | .decl _ decl => some (decl.specs.flatMap (Spec.events table))
  | .block _ ⟨_, stmts⟩ => Stmts.events? table stmts
  | .labeled _ _ s => s.events? table
  | _ => none

def Stmts.events? (table : SymbolTable) : List Stmt → Option (List Expr)
  | [] => some []
  | s :: rest => do return (← s.events? table) ++ (← Stmts.events? table rest)

end

theorem Exprs.events_eq_flatMap (table : SymbolTable) (es : List Expr) :
    Exprs.events table es = es.flatMap (Expr.events table) := by
  induction es with
  | nil => rfl
  | cons e rest ih => rw [Exprs.events, ih, List.flatMap_cons]

theorem Stmt.events?_label (table : SymbolTable) (s : Stmt) (labels : List Label) :
    (s.label labels).events? table = s.events? table := by
  induction labels with
  | nil => rfl
  | cons label rest ih => rw [Stmt.label, Stmt.events?, ih]

theorem Stmt.events?_unlabeled (table : SymbolTable) (s : Stmt) :
    s.unlabeled.events? table = s.events? table := by
  conv_rhs => rw [← s.label_labels_unlabeled]
  exact (events?_label table s.unlabeled s.labels).symm

namespace Stmts

variable {table : SymbolTable}

theorem events?_singleton (s : Stmt) : Stmts.events? table [s] = s.events? table := by
  rw [Stmts.events?, Stmts.events?]
  cases s.events? table <;> simp

theorem events?_append {first second : List Stmt} {events events' : List Expr}
    (hfirst : Stmts.events? table first = some events)
    (hsecond : Stmts.events? table second = some events') :
    Stmts.events? table (first ++ second) = some (events ++ events') := by
  induction first generalizing events with
  | nil =>
    cases hfirst
    exact hsecond
  | cons s rest ih =>
    rw [Stmts.events?] at hfirst
    cases hs : s.events? table with
    | none =>
      rw [hs] at hfirst
      cases hfirst
    | some head =>
      cases hrest : Stmts.events? table rest with
      | none =>
        rw [hs, hrest] at hfirst
        cases hfirst
      | some tail =>
        rw [hs, hrest] at hfirst
        cases hfirst
        rw [List.cons_append, Stmts.events?, hs, ih hrest]
        exact congrArg some (List.append_assoc head tail events').symm

theorem events?_flatMap {α β : Type} {f : β → List Stmt} {events : α → List Expr} {xs : List α}
    {ys : List β}
    (h : List.Forall₂ (fun a b => Stmts.events? table (f b) = some (events a)) xs ys) :
    Stmts.events? table (ys.flatMap f) = some (xs.flatMap events) := by
  induction h with
  | nil => rfl
  | cons hhead _ ih =>
    rw [List.flatMap_cons, List.flatMap_cons]
    exact events?_append hhead ih

theorem events?_labelFirst (labels : List Label) (stmts : List Stmt) :
    Stmts.events? table (Stmts.labelFirst labels stmts) = Stmts.events? table stmts := by
  cases stmts with
  | nil => rfl
  | cons s rest => rw [Stmts.labelFirst, Stmts.events?, Stmts.events?, Stmt.events?_label]

end Stmts

/-!
## Events are parts of an expression
-/

mutual

theorem Expr.count_events_le (table : SymbolTable) (node : NodeId) (e : Expr) :
    ((e.events table).map Expr.id).count node ≤ e.ids.count node := by
  cases e with
  | ident id name | lit id value | funcLit id sig body | type id ty => simp [Expr.events]
  | composite id ty elts =>
    have helts := Exprs.count_events_le table node elts
    simp only [Expr.events, Expr.ids, List.count_cons]
    omega
  | keyValue id key value =>
    have hkey := Expr.count_events_le table node key
    have hvalue := Expr.count_events_le table node value
    simp only [Expr.events, Expr.ids, List.map_append, List.count_append, List.count_cons]
    omega
  | paren id x | selector id x name | typeAssert id x ty | star id x =>
    have hx := Expr.count_events_le table node x
    simp only [Expr.events, Expr.ids, List.count_cons]
    omega
  | index id x i =>
    have hx := Expr.count_events_le table node x
    have hi := Expr.count_events_le table node i
    simp only [Expr.events, Expr.ids, List.map_append, List.count_append, List.count_cons]
    omega
  | slice id x low high max =>
    have hx := Expr.count_events_le table node x
    have hlow := OptExpr.count_events_le table node low
    have hhigh := OptExpr.count_events_le table node high
    have hmax := OptExpr.count_events_le table node max
    simp only [Expr.events, Expr.ids, List.map_append, List.count_append, List.count_cons]
    omega
  | call id callee args spread =>
    have hcallee := Expr.count_events_le table node callee
    have hargs := Exprs.count_events_le table node args
    simp only [Expr.events, Expr.ids, List.map_append, List.count_append, List.count_cons]
    split
    · simp only [List.map_nil, List.count_nil]
      omega
    · simp only [List.map_cons, List.map_nil, List.count_cons, List.count_nil, Expr.id]
      omega
  | unary id op x =>
    have hx := Expr.count_events_le table node x
    simp only [Expr.events, Expr.ids, List.map_append, List.count_append, List.count_cons]
    split
    · simp only [List.map_cons, List.map_nil, List.count_cons, List.count_nil, Expr.id]
      omega
    · simp only [List.map_nil, List.count_nil]
      omega
  | binary id op x y =>
    have hx := Expr.count_events_le table node x
    have hy := Expr.count_events_le table node y
    simp only [Expr.events, Expr.ids, List.map_append, List.count_append, List.count_cons]
    omega

theorem Exprs.count_events_le (table : SymbolTable) (node : NodeId) (es : List Expr) :
    ((Exprs.events table es).map Expr.id).count node ≤ (Exprs.ids es).count node := by
  cases es with
  | nil => exact Nat.le_refl _
  | cons e rest =>
    have he := Expr.count_events_le table node e
    have hrest := Exprs.count_events_le table node rest
    simp only [Exprs.events, Exprs.ids, List.map_append, List.count_append]
    omega

theorem OptExpr.count_events_le (table : SymbolTable) (node : NodeId) (e : Option Expr) :
    ((OptExpr.events table e).map Expr.id).count node ≤ (OptExpr.ids e).count node := by
  cases e with
  | none => exact Nat.le_refl _
  | some e => exact Expr.count_events_le table node e

end

theorem Exprs.nodup_events (table : SymbolTable) {lhs rhs : List Expr}
    (hids : (Exprs.ids lhs ++ Exprs.ids rhs).Nodup) :
    (Exprs.events table lhs ++ Exprs.events table rhs).Nodup := by
  apply List.Nodup.of_map Expr.id
  apply List.nodup_iff_count_le_one.mpr
  intro node
  have honce := List.nodup_iff_count_le_one.mp hids node
  have hlhs := Exprs.count_events_le table node lhs
  have hrhs := Exprs.count_events_le table node rhs
  rw [List.count_append] at honce
  rw [List.map_append, List.count_append]
  omega

/-!
## Two ways to list pairs
-/

section Interleaving

variable {α : Type}

/-- No list on the right of a pair stands before one on the left of a later pair. -/
def Untangled (pairs : List (List α × List α)) : Prop :=
  pairs.Pairwise fun earlier later => earlier.2 = [] ∨ later.1 = []

theorem flatMap_of_untangled {pairs : List (List α × List α)} (h : Untangled pairs) :
    pairs.flatMap (fun pair => pair.1 ++ pair.2) =
      pairs.flatMap Prod.fst ++ pairs.flatMap Prod.snd := by
  induction pairs with
  | nil => rfl
  | cons pair rest ih =>
    rcases List.pairwise_cons.mp h with ⟨hhead, hrest⟩
    simp only [List.flatMap_cons, ih hrest]
    by_cases hsource : pair.2 = []
    · simp [hsource]
    · have htargets : rest.flatMap Prod.fst = [] := by
        rw [List.flatMap_eq_nil_iff]
        exact fun later hlater => (hhead later hlater).resolve_left hsource
      simp [htargets]

theorem untangled_of_flatMap {pairs : List (List α × List α)}
    (hnodup : (pairs.flatMap Prod.fst ++ pairs.flatMap Prod.snd).Nodup)
    (h : pairs.flatMap (fun pair => pair.1 ++ pair.2) =
      pairs.flatMap Prod.fst ++ pairs.flatMap Prod.snd) : Untangled pairs := by
  induction pairs with
  | nil => exact .nil
  | cons pair rest ih =>
    simp only [List.flatMap_cons, List.append_assoc, List.append_cancel_left_eq] at h hnodup
    -- The first event of the source would also be the first of the later targets.
    have hhead : pair.2 = [] ∨ rest.flatMap Prod.fst = [] := by
      cases hsource : pair.2 with
      | nil => exact .inl rfl
      | cons event events =>
        right
        cases htargets : rest.flatMap Prod.fst with
        | nil => rfl
        | cons first others =>
          rw [hsource, htargets] at h
          injection h with hsame _
          subst hsame
          rw [hsource, htargets] at hnodup
          have hparted := (List.nodup_append'.mp (List.nodup_append'.mp hnodup).2.1).2.2
          exact absurd (.head _) (hparted (.head _))
    have hrest : rest.flatMap (fun pair => pair.1 ++ pair.2) =
        rest.flatMap Prod.fst ++ rest.flatMap Prod.snd := by
      rcases hhead with hsource | htargets
      · simpa [hsource] using h
      · simpa [htargets] using h
    have hsub : (rest.flatMap Prod.fst ++ rest.flatMap Prod.snd).Nodup := by
      apply List.Nodup.sublist _ hnodup
      apply (List.Sublist.append_left _ _).trans (List.sublist_append_right _ _)
      exact List.sublist_append_right _ _
    refine List.pairwise_cons.mpr ⟨fun later hlater => ?_, ih hsub hrest⟩
    rcases hhead with hsource | htargets
    · exact .inl hsource
    · exact .inr (List.flatMap_eq_nil_iff.mp htargets later hlater)

end Interleaving

namespace PassM

variable {α β : Type}

theorem Gives.mapM_each {f : α → PassM β} {post : α → β → Prop} (xs : List α)
    (h : ∀ a ∈ xs, Gives env (f a) (post a)) :
    Gives env (xs.mapM f) (fun ys => List.Forall₂ post xs ys) := by
  induction xs with
  | nil => exact .pure .nil
  | cons x rest ih =>
    rw [List.mapM_cons]
    refine (h x (.head _)).bind ?_
    intro y hy
    refine (ih fun a ha => h a (.tail _ ha)).bind ?_
    intro ys hys
    refine .pure ?_
    exact .cons hy hys

end PassM

/-!
## Events of a split
-/

namespace Parallel

theorem gives_hold (scope : ScopeId) (ty : TypeId) (spelled : TypeExpr) (value : Expr) :
    Gives env (hold scope ty spelled value) (fun held => ∀ table,
      held.1.events? table = some (value.events table) ∧ held.2.events table = []) := by
  refine .after fun temp => ?_
  refine (Gives.newVarOf temp (some spelled) [value]).bind ?_
  rintro declared ⟨stmtId, declId, specId, name, rfl⟩
  refine (Gives.newUse temp).bind ?_
  rintro held ⟨useId, tempName, rfl⟩
  refine .pure fun table => ?_
  constructor
  · simp [Stmt.events?, Spec.events, Exprs.events]
  · rfl

theorem gives_holdOperand (scope : ScopeId) (operand : Expr) :
    Gives env (holdOperand scope operand) (fun held => ∀ table,
      held.1.events? table = some (operand.events table) ∧ held.2.events table = []) :=
  .after fun _ => .after fun _ => .after fun _ => .after fun _ => gives_hold _ _ _ _

theorem gives_pinAddress (scope : ScopeId) (place : Expr) :
    Gives env (pinAddress scope place) (fun pinned => ∀ table,
      Stmts.events? table pinned.1 = some (place.events table) ∧ pinned.2.events table = []) := by
  refine .after fun known => .after fun ty => .after fun pointer => ?_
  refine (Gives.newExpr _ _).bind ?_
  rintro address ⟨id, rfl⟩
  refine .after fun spelled => ?_
  refine (gives_hold scope pointer spelled _).bind ?_
  intro held hheld
  refine (Gives.newExpr _ _).bind ?_
  rintro place' ⟨starId, rfl⟩
  refine .pure fun table => ?_
  constructor
  · rw [Stmts.events?_singleton, (hheld table).1]
    simp [Expr.events]
  · exact (hheld table).2

theorem gives_pin (scope : ScopeId) (target : Expr) :
    Gives env (pin scope target) (fun pinned => ∀ table,
      Stmts.events? table pinned.1 = some (target.events table) ∧ pinned.2.events table = []) := by
  cases target with
  | ident id name => exact .pure fun _ => ⟨rfl, rfl⟩
  | paren id x => exact gives_pin scope x
  | index id x i =>
    refine .after fun table => ?_
    split
    · rename_i keyType hkey
      refine .after fun table' => ?_
      refine (gives_holdOperand scope x).bind ?_
      intro map hmap
      refine .after fun spelled => ?_
      refine (gives_hold scope keyType spelled i).bind ?_
      intro key hkey
      refine (Gives.newExpr _ _).bind ?_
      rintro entry ⟨indexId, rfl⟩
      refine .pure fun table => ?_
      constructor
      · simp [Stmts.events?, (hmap table).1, (hkey table).1, Expr.events]
      · simp [Expr.events, (hmap table).2, (hkey table).2]
    · exact gives_pinAddress scope _
  | star id x =>
    refine .after fun table => ?_
    refine (gives_holdOperand scope x).bind ?_
    intro pointer hpointer
    refine (Gives.newExpr _ _).bind ?_
    rintro place ⟨starId, rfl⟩
    refine .pure fun table => ?_
    constructor
    · rw [Stmts.events?_singleton, (hpointer table).1, Expr.events]
    · exact (hpointer table).2
  | _ => exact gives_pinAddress scope _

theorem gives_evaluate (scope : ScopeId) (node : NodeId) {target : Expr} (source : Expr)
    (htarget : ∀ table, target.events table = []) :
    Gives env (evaluate scope node target source) (fun step => ∀ table,
      Stmts.events? table step.1 = some (source.events table) ∧
        Stmts.events? table step.2 = some []) := by
  have hassign : ∀ (id : NodeId) (value : Expr) (table : SymbolTable),
      Stmts.events? table [.assign id [target] .assign [value]] = some (value.events table) := by
    intro id value table
    simp [Stmts.events?, Stmt.events?, Exprs.events, htarget]
  unfold evaluate
  split
  · refine (Gives.newStmt _).bind ?_
    rintro assigned ⟨id, rfl⟩
    exact .pure fun table => ⟨hassign id source table, rfl⟩
  · split
    · rename_i hliteral
      refine (Gives.newStmt _).bind ?_
      rintro assigned ⟨id, rfl⟩
      cases source with
      | lit litId value => exact .pure fun table => ⟨rfl, hassign id _ table⟩
      | _ => cases hliteral
    · refine .after fun known => .after fun ty => .after fun spelled => ?_
      refine (gives_hold scope ty spelled source).bind ?_
      intro held hheld
      refine (Gives.newStmt _).bind ?_
      rintro assigned ⟨id, rfl⟩
      refine .pure fun table => ?_
      constructor
      · rw [Stmts.events?_singleton, (hheld table).1]
      · rw [hassign id held.2 table, (hheld table).2]

theorem gives_sequence (owner node : NodeId) {lhs rhs : List Expr}
    (hlength : lhs.length = rhs.length) :
    Gives env (sequence owner node lhs rhs) (fun s => ∀ table,
      s.events? table = some (Exprs.events table lhs ++ Exprs.events table rhs)) := by
  refine .after fun parent => .after fun scope => ?_
  have hpins : Gives env (lhs.mapM (pin scope)) (fun pinned =>
      ∀ pin ∈ pinned, ∀ table, pin.2.events table = []) :=
    .mapM lhs fun target _ => (gives_pin scope target).mono fun _ hpin table => (hpin table).2
  refine ((Gives.mapM_each lhs fun target _ => gives_pin scope target).and hpins).bind ?_
  rintro pinned ⟨hpinned, hidle⟩
  have hplaces : ∀ pair ∈ (pinned.map Prod.snd).zip rhs, ∀ table,
      pair.1.events table = [] := by
    intro pair hpair table
    rcases List.mem_map.mp (List.of_mem_zip hpair).1 with ⟨pin, hpin, hplace⟩
    rw [← hplace, hidle pin hpin]
  refine (Gives.mapM_each _ fun pair hpair =>
    gives_evaluate scope node pair.2 (hplaces pair hpair)).bind ?_
  intro steps hsteps
  refine .after fun blockId => .after fun _ => ?_
  refine (Gives.newStmt _).mono ?_
  rintro s ⟨id, rfl⟩ table
  have htargets : Stmts.events? table (pinned.flatMap Prod.fst) =
      some (lhs.flatMap (Expr.events table)) :=
    Stmts.events?_flatMap (hpinned.imp fun _ _ hevents => (hevents table).1)
  have hsources : Stmts.events? table (steps.flatMap Prod.fst) =
      some (((pinned.map Prod.snd).zip rhs).flatMap fun pair => pair.2.events table) :=
    Stmts.events?_flatMap (hsteps.imp fun _ _ hevents => (hevents table).1)
  have hassigned : Stmts.events? table (steps.flatMap Prod.snd) =
      some (((pinned.map Prod.snd).zip rhs).flatMap fun _ => []) :=
    Stmts.events?_flatMap (hsteps.imp fun _ _ hevents => (hevents table).2)
  have hsame : (pinned.map Prod.snd).length = rhs.length := by
    rw [List.length_map, ← hpinned.length_eq, hlength]
  have hrhs : ((pinned.map Prod.snd).zip rhs).flatMap (fun pair => pair.2.events table) =
      rhs.flatMap (Expr.events table) := by
    rw [← List.map_snd_zip (Nat.le_of_eq hsame.symm), List.flatMap_map]
    rw [List.map_snd_zip (Nat.le_of_eq hsame.symm)]
  rw [hrhs] at hsources
  rw [Stmt.events?, Exprs.events_eq_flatMap, Exprs.events_eq_flatMap]
  have hidle : ((pinned.map Prod.snd).zip rhs).flatMap (fun _ => ([] : List Expr)) = [] :=
    List.flatMap_eq_nil_iff.mpr fun _ _ => rfl
  have hall := Stmts.events?_append (Stmts.events?_append htargets hsources) hassigned
  rw [hidle, List.append_nil] at hall
  exact hall

theorem gives_assigns (pairs : List (Expr × Expr)) :
    Gives env (pairs.mapM fun pair => PassM.newAssign [pair.1] [pair.2]) (fun stmts => ∀ table,
      Stmts.events? table stmts =
        some (pairs.flatMap fun pair => pair.1.events table ++ pair.2.events table)) := by
  have heach : Gives env (pairs.mapM fun pair => PassM.newAssign [pair.1] [pair.2])
      (fun stmts => List.Forall₂ (fun pair s => ∃ id, s = .assign id [pair.1] .assign [pair.2])
        pairs stmts) :=
    Gives.mapM_each pairs fun _ _ => Gives.newStmt _
  refine heach.mono fun stmts hstmts table => ?_
  have hsingles : List.Forall₂ (fun (pair : Expr × Expr) s =>
      Stmts.events? table [s] = some (pair.1.events table ++ pair.2.events table)) pairs stmts := by
    refine hstmts.imp fun pair s hs => ?_
    rcases hs with ⟨id, rfl⟩
    simp [Stmts.events?, Stmt.events?, Exprs.events]
  simpa using Stmts.events?_flatMap hsingles

theorem exec_splitAssign {owner : NodeId} {s : Stmt} {stmts : List Stmt} {p q : Pass}
    {node : NodeId} {lhs rhs : List Expr} (hs : s.unlabeled = .assign node lhs .assign rhs)
    (hsplit : (splitStmt owner s).exec env p = (.ok (some stmts), q)) :
    lhs.length = rhs.length ∧
      (splitAssign owner node s.labels lhs rhs).exec env p = (.ok stmts, q) := by
  unfold splitStmt at hsplit
  rw [hs] at hsplit
  dsimp only at hsplit
  split at hsplit
  · rename_i hmany
    refine ⟨beq_iff_eq.mp (Bool.and_eq_true_iff.mp hmany).2, ?_⟩
    rw [PassM.exec_orElseKeep, ← bind_pure_comp, PassM.exec_bind] at hsplit
    cases hexec : (splitAssign owner node s.labels lhs rhs).exec env p with
    | mk result r =>
      rw [hexec] at hsplit
      cases result with
      | ok stmts' =>
        cases hsplit
        rfl
      | error fault =>
        cases fault with
        | exhausted | endless => cases hsplit
        | problem problem =>
          dsimp only at hsplit
          split at hsplit <;> cases hsplit
  · cases hsplit

def eventPairs (table : SymbolTable) (lhs rhs : List Expr) : List (List Expr × List Expr) :=
  (lhs.zip rhs).map fun pair => (pair.1.events table, pair.2.events table)

theorem flatMap_eventPairs (table : SymbolTable) {lhs rhs : List Expr}
    (hlength : lhs.length = rhs.length) :
    (eventPairs table lhs rhs).flatMap Prod.fst = Exprs.events table lhs ∧
      (eventPairs table lhs rhs).flatMap Prod.snd = Exprs.events table rhs := by
  have hfst : (lhs.zip rhs).map Prod.fst = lhs := List.map_fst_zip (Nat.le_of_eq hlength)
  have hsnd : (lhs.zip rhs).map Prod.snd = rhs := List.map_snd_zip (Nat.le_of_eq hlength.symm)
  constructor
  · rw [Exprs.events_eq_flatMap, ← hfst, List.flatMap_map, hfst, eventPairs, List.flatMap_map]
  · rw [Exprs.events_eq_flatMap, ← hsnd, List.flatMap_map, hsnd, eventPairs, List.flatMap_map]

theorem events?_splitAssign {owner node : NodeId} {labels : List Label} {lhs rhs : List Expr}
    {stmts : List Stmt} {p q : Pass} (hlength : lhs.length = rhs.length)
    (hsplit : (splitAssign owner node labels lhs rhs).exec env p = (.ok stmts, q))
    (table : SymbolTable) :
    Stmts.events? table stmts = some
      (if hazardous p.table (lhs.zip rhs) then Exprs.events table lhs ++ Exprs.events table rhs
      else (eventPairs table lhs rhs).flatMap fun pair => pair.1 ++ pair.2) := by
  unfold splitAssign at hsplit
  rw [PassM.exec_bind_ok (PassM.exec_getTable env p)] at hsplit
  split at hsplit
  · rename_i hhazard
    have hgives : Gives env ((fun s : Stmt => [s.label labels]) <$> sequence owner node lhs rhs)
        (fun stmts => ∀ table, Stmts.events? table stmts =
          some (Exprs.events table lhs ++ Exprs.events table rhs)) := by
      refine (gives_sequence owner node hlength).map _ fun s hs table => ?_
      rw [Stmts.events?_singleton, Stmt.events?_label, hs table]
    rw [if_pos hhazard]
    rw [bind_pure_comp] at hsplit
    exact hgives p q stmts hsplit table
  · rename_i hhazard
    have hgives : Gives env
        (Stmts.labelFirst labels <$> (lhs.zip rhs).mapM fun pair =>
          PassM.newAssign [pair.1] [pair.2])
        (fun stmts => ∀ table, Stmts.events? table stmts =
          some ((eventPairs table lhs rhs).flatMap fun pair => pair.1 ++ pair.2)) := by
      refine (gives_assigns (lhs.zip rhs)).map _ fun stmts hstmts table => ?_
      rw [Stmts.events?_labelFirst, hstmts table, eventPairs, List.flatMap_map]
    rw [if_neg hhazard]
    rw [bind_pure_comp] at hsplit
    exact hgives p q stmts hsplit table

/-- An assignment that is split keeps the order of its events if it goes through
temporaries, or if no source with events comes before a target with events.  In a
tree of distinct nodes these are the only cases.  This holds whatever table tells
which calls are pure. -/
theorem split_keeps_event_order {owner : NodeId} {s : Stmt} {stmts : List Stmt} {p q : Pass}
    {node : NodeId} {lhs rhs : List Expr} (hs : s.unlabeled = .assign node lhs .assign rhs)
    (hsplit : (splitStmt owner s).exec env p = (.ok (some stmts), q)) (table : SymbolTable) :
    (hazardous p.table (lhs.zip rhs) = true ∨ Untangled (eventPairs table lhs rhs) →
      Stmts.events? table stmts = s.events? table) ∧
    ((Exprs.ids lhs ++ Exprs.ids rhs).Nodup → Stmts.events? table stmts = s.events? table →
      hazardous p.table (lhs.zip rhs) = true ∨ Untangled (eventPairs table lhs rhs)) := by
  rcases exec_splitAssign hs hsplit with ⟨hlength, hexec⟩
  rcases flatMap_eventPairs table hlength with ⟨htargets, hsources⟩
  have hbefore : s.events? table = some (Exprs.events table lhs ++ Exprs.events table rhs) := by
    rw [← s.events?_unlabeled, hs, Stmt.events?]
  rw [events?_splitAssign hlength hexec table, hbefore, ← htargets, ← hsources]
  constructor
  · intro hcase
    split
    · rfl
    · rename_i hhazard
      exact congrArg some (flatMap_of_untangled (hcase.resolve_left hhazard))
  · intro hnodup hkept
    split at hkept
    · rename_i hhazard
      exact .inl hhazard
    · injection hkept with hkept
      right
      apply untangled_of_flatMap _ hkept
      rw [htargets, hsources]
      exact Exprs.nodup_events table hnodup

/-- An assignment of a receive and of another source to a variable and to the
element of a slice at a position that is received: `x, a[<-c] = <-d, source`. -/
def crossing (source : Expr) : Stmt :=
  .assign ⟨0⟩ [.ident ⟨1⟩ "x", .index ⟨2⟩ (.ident ⟨3⟩ "a") (.unary ⟨4⟩ .recv (.ident ⟨5⟩ "c"))]
    .assign [.unary ⟨6⟩ .recv (.ident ⟨7⟩ "d"), source]

/-- A state in which all names are those of variables. -/
def crossingPass : Pass where
  file := ⟨⟨10⟩, "main", "", [], []⟩
  table :=
    { SymbolTable.empty with
      types := #[.basic .int, .slice ⟨0⟩, .chan .both ⟨0⟩]
      exprTypes := (((((∅ : NodeMap TypeId).insert ⟨1⟩ ⟨0⟩).insert ⟨2⟩ ⟨0⟩).insert ⟨3⟩ ⟨1⟩).insert
        ⟨4⟩ ⟨0⟩).insert ⟨6⟩ ⟨0⟩
      uses := (((((∅ : NodeMap BindingId).insert ⟨1⟩ ⟨0⟩).insert ⟨3⟩ ⟨1⟩).insert ⟨5⟩ ⟨2⟩).insert
        ⟨7⟩ ⟨3⟩).insert ⟨8⟩ ⟨0⟩
      bindings := #[⟨"x", some ⟨0⟩, ⟨0⟩, .var, false⟩, ⟨"a", some ⟨1⟩, ⟨0⟩, .var, false⟩,
        ⟨"c", some ⟨2⟩, ⟨0⟩, .var, false⟩, ⟨"d", some ⟨2⟩, ⟨0⟩, .var, false⟩] }
  ids := ⟨11⟩
  diagnostics := []
  scopes := ⟨[(⟨9⟩, ⟨0⟩)]⟩
  changes := 0
  applications := 0

def crossingEnv : PassEnv :=
  ⟨"parallel-assign", default, "tmp"⟩

/-- When the second source reads the variable, the receive for the position stays
the first of the two. -/
theorem crossing_read_keeps_order :
    let s := crossing (.ident ⟨8⟩ "x")
    ∃ stmts q, (splitStmt ⟨9⟩ s).exec crossingEnv crossingPass = (.ok (some stmts), q) ∧
      (s.events? q.table).map (List.map Expr.id) = some [⟨4⟩, ⟨6⟩] ∧
      Stmts.events? q.table stmts = s.events? q.table := by
  intro s
  have hgiven :
      ((splitStmt ⟨9⟩ s).exec crossingEnv crossingPass).1.toOption.join.isSome = true := by
    decide +kernel
  rcases PassM.exec_eq_some hgiven with ⟨stmts, q, hsplit⟩
  refine ⟨stmts, q, hsplit, rfl, ?_⟩
  exact (split_keeps_event_order rfl hsplit q.table).1 (.inl (by decide +kernel))

/-- When the second source is a constant, the receive for the position comes to be
the second of the two. -/
theorem crossing_constant_swaps_receives :
    let s := crossing (.lit ⟨8⟩ (.int "1"))
    ∃ stmts q, (splitStmt ⟨9⟩ s).exec crossingEnv crossingPass = (.ok (some stmts), q) ∧
      (s.events? q.table).map (List.map Expr.id) = some [⟨4⟩, ⟨6⟩] ∧
      (Stmts.events? q.table stmts).map (List.map Expr.id) = some [⟨6⟩, ⟨4⟩] := by
  intro s
  refine ⟨_, _, rfl, ?_, ?_⟩
  · decide +kernel
  · decide +kernel

end Parallel

end Desugar
