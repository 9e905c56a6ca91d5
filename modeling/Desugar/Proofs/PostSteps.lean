import Desugar.Proofs.Hoisting
import Desugar.Proofs.Jumps
import Desugar.Proofs.Layout
import Desugar.Proofs.LoopRenewal
import Desugar.Proofs.Results
import Desugar.Proofs.TableExtension

/-!
# Post steps and the names of the body

The post step of a loop stands outside the scopes of the body.  Where one of these
scopes declares a name that is known to be used by the step, the body becomes a
block of its own and the step follows it.  The uses are found by what they are
bound to, so that nothing is known of an identifier that is not resolved.
-/

namespace Desugar

open PassM (Gives Obtains)

/-!
## The names in question
-/

namespace SymbolTable

def Knows (table : SymbolTable) (use : NodeId) (name : String) : Prop :=
  ∃ id, table.bindingOf use = some id ∧ ∃ meant, table.binding? id = some meant ∧ meant.name = name

def DeclaresInside (table : SymbolTable) (scope : ScopeId) (name : String) : Prop :=
  ∃ binding ∈ table.bindings, binding.name = name ∧
    ∃ levels, table.climb levels binding.scope = some scope

end SymbolTable

theorem Stmt.mem_ids_of_ident {s : Stmt} {use : NodeId} {name : String}
    (h : .expr (.ident use name) ∈ s.parts) : use ∈ s.ids := by
  have hlayout := (Form.layout (.stmt true) s fun _ _ => trivial).1
  exact hlayout.inside _ (List.mem_cons_of_mem _ h) use (.head _)

namespace Loop

variable {env : PassEnv} {p q : Pass}

theorem isShadowed_iff {table : SymbolTable} {post : Stmt} {body : Block} {scope : ScopeId}
    (hscope : table.scopeOf[body.id]? = some scope) {shadowed : Bool}
    (h : isShadowed table post body = some shadowed) :
    shadowed = true ↔
      ∃ use ∈ post.ids, ∃ name, table.Knows use name ∧ table.DeclaresInside scope name := by
  unfold isShadowed at h
  simp only [hscope] at h
  have hwithin : ∀ inner, table.isWithin? inner scope = some true →
      ∃ levels, table.climb levels inner = some scope := fun inner hinner =>
    (table.isWithin_iff inner scope).mp (SymbolTable.isWithin?_eq_some hinner).symm
  have hwithin' : ∀ inner, (∃ levels, table.climb levels inner = some scope) →
      table.isWithin? inner scope = some true := fun inner hinner =>
    if_pos ((table.isWithin_iff inner scope).mpr hinner)
  rw [eq_true_iff_of_anyM h]
  simp only [Array.mem_toList_iff]
  constructor
  · rintro ⟨binding, hbinding, hfound⟩
    split at hfound
    · rename_i huse
      simp only [List.contains_iff_mem, List.mem_filterMap, Option.map_eq_some_iff,
        Option.bind_eq_some_iff] at huse
      rcases huse with ⟨use, huse, meant, ⟨id, hid, hmeant⟩, hname⟩
      exact ⟨use, huse, binding.name, ⟨id, hid, meant, hmeant, hname⟩, binding, hbinding, rfl,
        hwithin _ hfound⟩
    · cases hfound
  · rintro ⟨use, huse, name, ⟨id, hid, meant, hmeant, hname⟩, binding, hbinding, rfl, hinside⟩
    refine ⟨binding, hbinding, ?_⟩
    rw [if_pos (List.contains_iff_mem.mpr (List.mem_filterMap.mpr ⟨use, huse, ?_⟩))]
    · exact hwithin' _ hinside
    · rw [hid, Option.bind_some, hmeant, Option.map_some, hname]

/-!
## The form of the loop
-/

/-- A body that consists of the old one, as a block whose continues jump to a label, and of the
post step after it, which has the label if anything jumps there. -/
def StepsOutside (labels : List String) (target : String) (post : Stmt) (body body' : Block) :
    Prop :=
  ∃ (blockId bodyId : NodeId) (inner : Block) (jumps : Nat) (step : Stmt),
    (body.replaceContinues labels (jumpTo target) 0).run 0 = (inner, jumps) ∧
    (jumps = 0 ∧ step = post ∨ 0 < jumps ∧ ∃ stepId, step = .labeled stepId target post) ∧
    body' = ⟨bodyId, [.block blockId inner, step]⟩

/-- The condition of a loop, which is true when it is left out. -/
def Conditioned : Option Expr → Expr → Prop
  | some given, cond => cond = given
  | none, cond => ∃ id, cond = .lit id (.bool true)

def Initialized : Option Stmt → Stmt → Stmt → Prop
  | none, loop, s => s = loop
  | some init, loop, s => ∃ blockId bodyId, s = .block blockId ⟨bodyId, [init, loop]⟩

theorem yields_absorbPost_of_isShadowed {labels : List String} {post : Stmt} {body : Block}
    (hshadowed : isShadowed p.table post body = some true) :
    Obtains env p (absorbPost labels post body) (fun body' _ =>
      ∃ target, target ∉ p.table.reserved ∧ StepsOutside labels target post body body') := by
  refine .look (PassM.exec_search hshadowed env) ?_
  rw [if_pos rfl]
  have hfresh := (fresh_next p).1
  refine .step (PassM.exec_onTable _ env p) (PassM.grows_freshName "next") ?_
  generalize (p.table.freshName "next").1 = target at hfresh ⊢
  generalize hreplaced : (body.replaceContinues labels (jumpTo target) 0).run 0 = result
  rcases result with ⟨inner, jumps⟩
  have hnext : ∀ (q : Pass) (step : Stmt),
      (jumps = 0 ∧ step = post ∨ 0 < jumps ∧ ∃ stepId, step = .labeled stepId target post) →
      Obtains env q (do
          let block ← PassM.newStmt (fun id => .block id inner)
          return (⟨← PassM.freshId, [block, step]⟩ : Block))
        (fun body' _ => ∃ target, target ∉ p.table.reserved ∧
          StepsOutside labels target post body body') := by
    intro q step hstep
    apply (PassM.yields_newStmt _ trivial).bind
    rintro block r _ ⟨blockId, rfl, _⟩
    apply (PassM.yields_freshId trivial).bind
    intro bodyId u _ _
    exact .pure ⟨target, hfresh, blockId, bodyId, inner, jumps, step, hreplaced, hstep, rfl⟩
  dsimp only
  split
  · rename_i hjumps
    apply (PassM.yields_newStmt _ trivial).bind
    rintro step q _ ⟨stepId, rfl, _⟩
    exact hnext q _ (.inr ⟨hjumps, stepId, rfl⟩)
  · rename_i hjumps
    exact hnext _ post (.inl ⟨Nat.le_zero.mp (Nat.not_lt.mp hjumps), rfl⟩)

theorem exists_isShadowed_of_ok {labels : List String} {post : Stmt} {body body' : Block}
    (hexec : (absorbPost labels post body).exec env p = (.ok body', q)) :
    ∃ shadowed, isShadowed p.table post body = some shadowed := by
  cases hfound : isShadowed p.table post body with
  | some shadowed => exact ⟨shadowed, rfl⟩
  | none =>
    unfold absorbPost at hexec
    rw [PassM.exec_bind_error (PassM.exec_search_none hfound env)] at hexec
    cases hexec

theorem exec_absorbPost_of_not_isShadowed {labels : List String} {post : Stmt} {body body' : Block}
    (hshadowed : isShadowed p.table post body = some false)
    (hexec : (absorbPost labels post body).exec env p = (.ok body', q)) :
    body'.stmts.getLast? = some post := by
  unfold absorbPost at hexec
  rw [PassM.exec_bind_ok (PassM.exec_search hshadowed env), if_neg Bool.false_ne_true] at hexec
  have hlast : Gives env (do
      let body ← body.replaceContinues labels (runPost post) 0
      return (⟨body.id, body.stmts ++ [post]⟩ : Block))
      (fun body' => body'.stmts.getLast? = some post) :=
    .after fun inner => .pure List.getLast?_concat
  exact hlast p q body' hexec

def takeStep (labels : List String) : Option Stmt → Block → PassM Block
  | some post, body => absorbPost labels post body
  | none, body => pure body

def condition : Option Expr → PassM Expr
  | some cond => pure cond
  | none => PassM.newTrue

def withInit (labels : List Label) : Option Stmt → Stmt → PassM Stmt
  | some init, loop => Initializer.enclose labels init loop
  | none, loop => pure (loop.label labels)

theorem canonical_eq (labels : List Label) (id : NodeId) (init : Option Stmt) (cond : Option Expr)
    (post : Option Stmt) (body : Block) :
    canonical labels id init cond post body = (do
      let body ← takeStep (labels.map Label.name) post body
      let cond ← condition cond
      withInit labels init (.forLoop id none (some cond) none body)) := by
  cases post <;> cases cond <;> cases init <;> rfl

theorem yields_condition (cond : Option Expr) :
    Obtains env p (condition cond) (fun cond' _ => Conditioned cond cond') := by
  cases cond with
  | some cond => exact .pure rfl
  | none =>
    apply (PassM.yields_newTrue trivial).mono
    rintro cond' q _ ⟨id, rfl, _⟩
    exact ⟨id, rfl⟩

theorem yields_withInit (labels : List Label) (init : Option Stmt) (loop : Stmt) :
    Obtains env p (withInit labels init loop)
      (fun s _ => Initialized init (loop.label labels) s) := by
  cases init with
  | none => exact .pure rfl
  | some init =>
    apply (Initializer.yields_enclose_eq trivial fun _ => trivial).mono
    rintro s q _ ⟨blockId, bodyId, rfl, _⟩
    exact ⟨blockId, bodyId, rfl⟩

theorem yields_conditioned (labels : List Label) (id : NodeId) (init : Option Stmt)
    (cond : Option Expr) (body : Block) :
    Obtains env p (do
        let cond ← condition cond
        withInit labels init (.forLoop id none (some cond) none body))
      (fun s _ => ∃ cond', Conditioned cond cond' ∧
        Initialized init ((Stmt.forLoop id none (some cond') none body).label labels) s) := by
  apply (yields_condition cond).bind
  intro cond' q _ hcond
  exact (yields_withInit _ _ _).mono fun s _ _ hs => ⟨cond', hcond, hs⟩

theorem exec_canonicalize {s : Stmt} {id : NodeId} {init : Option Stmt} {cond : Option Expr}
    {post : Option Stmt} {body : Block} (hs : s.unlabeled = .forLoop id init cond post body)
    (hclauses : (init.isSome || post.isSome) = true) {found : Option (List Stmt)}
    (hexec : (canonicalize s).exec env p = (.ok found, q)) :
    ∃ (body' : Block) (cond' : Expr) (s' : Stmt) (r : Pass),
      (takeStep (s.labels.map Label.name) post body).exec env p = (.ok body', r) ∧ r.Grows q ∧
      found = some [s'] ∧ Conditioned cond cond' ∧
      Initialized init ((Stmt.forLoop id none (some cond') none body').label s.labels) s' := by
  unfold canonicalize at hexec
  rw [hs] at hexec
  dsimp only at hexec
  rw [if_pos hclauses, canonical_eq] at hexec
  cases htaken : (takeStep (s.labels.map Label.name) post body).exec env p with
  | mk result r =>
    cases result with
    | error fault =>
      rw [PassM.exec_bind_error (PassM.exec_bind_error htaken)] at hexec
      cases hexec
    | ok body' =>
      rw [PassM.exec_bind, PassM.exec_bind_ok htaken, ← PassM.exec_bind] at hexec
      have hrest : Obtains env r (do
          let loop ← (do
            let cond ← condition cond
            withInit s.labels init (.forLoop id none (some cond) none body'))
          pure (some [loop]))
          (fun found _ => ∃ (cond' : Expr) (s' : Stmt), found = some [s'] ∧
            Conditioned cond cond' ∧ Initialized init
              ((Stmt.forLoop id none (some cond') none body').label s.labels) s') := by
        apply (yields_conditioned s.labels id init cond body').bind
        rintro s' u _ ⟨cond', hs'⟩
        exact .pure ⟨cond', s', rfl, hs'⟩
      rcases hrest.of_ok hexec with ⟨hgrows, cond', s', hfound, hs'⟩
      exact ⟨body', cond', s', r, rfl, hgrows, hfound, hs'⟩

/-- The post step stays outside the old body when a scope in the body declares a name that an
identifier of the step is bound by, however deep the declaration lies and whatever the loop. -/
theorem canonicalize_steps_outside {s : Stmt} {id : NodeId} {init : Option Stmt}
    {cond : Option Expr} {post : Stmt} {body : Block}
    (hs : s.unlabeled = .forLoop id init cond (some post) body) {use : NodeId} {name : String}
    (huse : .expr (.ident use name) ∈ post.parts) (hknown : p.table.Knows use name)
    {scope : ScopeId} (hscope : p.table.scopeOf[body.id]? = some scope)
    (hdeclared : p.table.DeclaresInside scope name) {found : Option (List Stmt)}
    (hexec : (canonicalize s).exec env p = (.ok found, q)) :
    ∃ (target : String) (body' : Block) (cond' : Expr) (s' : Stmt), found = some [s'] ∧
      Conditioned cond cond' ∧ target ∉ p.table.reserved ∧
      StepsOutside s.labelNames target post body body' ∧
      Initialized init ((Stmt.forLoop id none (some cond') none body').label s.labels) s' := by
  rcases exec_canonicalize hs (Bool.or_true _) hexec with
    ⟨body', cond', s', r, habsorbed, _, hfound, hcond, hs'⟩
  rcases exists_isShadowed_of_ok habsorbed with ⟨shadowed, hshadowed⟩
  have htrue : shadowed = true := (isShadowed_iff hscope hshadowed).mpr
    ⟨use, Stmt.mem_ids_of_ident huse, name, hknown, hdeclared⟩
  rw [htrue] at hshadowed
  rcases ((yields_absorbPost_of_isShadowed hshadowed).of_ok habsorbed).2 with
    ⟨target, hfresh, hbody⟩
  exact ⟨target, body', cond', s', hfound, hcond, hfresh, hbody, hs'⟩

end Loop

/-- A loop whose post step counts up: `for ; ; i++ { { continue } }`. -/
def steppingLoop : Stmt :=
  .forLoop ⟨4⟩ none none (some (.incDec ⟨5⟩ (.ident ⟨6⟩ "i") true))
    ⟨⟨7⟩, [.block ⟨8⟩ ⟨⟨9⟩, [.branch ⟨10⟩ .continue none]⟩]⟩

/-- The variable of the post step is declared outside the loop, and another one of that name in
the block inside the body. -/
def steppingPass (uses : NodeMap BindingId) : Pass where
  file := mainFile [steppingLoop]
  table :=
    { SymbolTable.empty with
      scopes := #[⟨none, [("i", ⟨0⟩)]⟩, ⟨some ⟨0⟩, []⟩, ⟨some ⟨1⟩, [("i", ⟨1⟩)]⟩]
      scopeOf := (((∅ : NodeMap ScopeId).insert ⟨3⟩ ⟨0⟩).insert ⟨7⟩ ⟨1⟩).insert ⟨9⟩ ⟨2⟩
      bindings := #[⟨"i", none, ⟨0⟩, .var, false⟩, ⟨"i", none, ⟨2⟩, .var, false⟩]
      uses := uses }
  ids := ⟨11⟩
  diagnostics := []
  scopes := .empty
  changes := 0
  applications := 0

theorem steppingPass_declaresInside (uses : NodeMap BindingId) :
    (steppingPass uses).table.DeclaresInside ⟨1⟩ "i" :=
  ⟨⟨"i", none, ⟨2⟩, .var, false⟩, Array.mem_of_getElem? (i := 1) rfl, rfl, 1, rfl⟩

/-- The step that is bound to the outer variable stays outside. -/
theorem steppingLoop_steps_outside :
    ∃ (q : Pass) (target : String) (body' : Block) (cond' : Expr) (s' : Stmt),
      (Loop.canonicalize steppingLoop).exec ⟨"for-loop", .ofFile (mainFile []), "tmp"⟩
        (steppingPass ((∅ : NodeMap BindingId).insert ⟨6⟩ ⟨0⟩)) = (.ok (some [s']), q) ∧
      Loop.StepsOutside [] target (.incDec ⟨5⟩ (.ident ⟨6⟩ "i") true)
        ⟨⟨7⟩, [.block ⟨8⟩ ⟨⟨9⟩, [.branch ⟨10⟩ .continue none]⟩]⟩ body' ∧
      s' = .forLoop ⟨4⟩ none (some cond') none body' := by
  have hresult : ((Loop.canonicalize steppingLoop).exec ⟨"for-loop", .ofFile (mainFile []), "tmp"⟩
      (steppingPass ((∅ : NodeMap BindingId).insert ⟨6⟩ ⟨0⟩))).1.isOk = true := by
    decide +kernel
  cases hexec : (Loop.canonicalize steppingLoop).exec ⟨"for-loop", .ofFile (mainFile []), "tmp"⟩
      (steppingPass ((∅ : NodeMap BindingId).insert ⟨6⟩ ⟨0⟩)) with
  | mk result q =>
    rw [hexec] at hresult
    cases result with
    | error fault => cases hresult
    | ok found =>
      have hknown : (steppingPass ((∅ : NodeMap BindingId).insert ⟨6⟩ ⟨0⟩)).table.Knows ⟨6⟩
          "i" :=
        ⟨⟨0⟩, by decide +kernel, _, rfl, rfl⟩
      have hscope : (steppingPass ((∅ : NodeMap BindingId).insert ⟨6⟩ ⟨0⟩)).table.scopeOf[
          (⟨7⟩ : NodeId)]? = some ⟨1⟩ := by
        decide +kernel
      rcases Loop.canonicalize_steps_outside rfl (.head _) hknown hscope
        (steppingPass_declaresInside _) hexec with ⟨target, body', cond', s', rfl, _, _, hbody, hs'⟩
      exact ⟨q, target, body', cond', s', rfl, hbody, hs'⟩

/-- The same step, not resolved, becomes the last statement of the body. -/
theorem steppingLoop_unresolved_steps_inside :
    .expr (.ident ⟨6⟩ "i") ∈ (Stmt.incDec ⟨5⟩ (.ident ⟨6⟩ "i") true).parts ∧
    (steppingPass ∅).table.scopeOf[(⟨7⟩ : NodeId)]? = some ⟨1⟩ ∧
    (steppingPass ∅).table.DeclaresInside ⟨1⟩ "i" ∧
    ∃ (q : Pass) (body' : Block) (cond' : Expr),
      (Loop.canonicalize steppingLoop).exec ⟨"for-loop", .ofFile (mainFile []), "tmp"⟩
        (steppingPass ∅) = (.ok (some [.forLoop ⟨4⟩ none (some cond') none body']), q) ∧
      body'.stmts.getLast? = some (.incDec ⟨5⟩ (.ident ⟨6⟩ "i") true) := by
  refine ⟨.head _, by decide +kernel, steppingPass_declaresInside ∅, ?_⟩
  have hresult : ((Loop.canonicalize steppingLoop).exec ⟨"for-loop", .ofFile (mainFile []), "tmp"⟩
      (steppingPass ∅)).1.isOk = true := by
    decide +kernel
  cases hexec : (Loop.canonicalize steppingLoop).exec ⟨"for-loop", .ofFile (mainFile []), "tmp"⟩
      (steppingPass ∅) with
  | mk result q =>
    rw [hexec] at hresult
    cases result with
    | error fault => cases hresult
    | ok found =>
      rcases Loop.exec_canonicalize rfl rfl hexec with
        ⟨body', cond', s', r, habsorbed, _, rfl, _, hs'⟩
      cases hs'
      exact ⟨q, body', cond', rfl,
        Loop.exec_absorbPost_of_not_isShadowed (by decide +kernel) habsorbed⟩

end Desugar
