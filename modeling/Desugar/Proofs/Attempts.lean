import Desugar.Proofs.RunRenewal
import Desugar.Proofs.Blame

/-!
# Attempts that are given up

A declaration or an assignment that cannot be written out in this file is kept and
reported.  What the attempt did to the table by then stays.  For a short
declaration that is next to nothing, because everything that can go wrong comes
before the first temporary.  A declaration of several names and an assignment to
several targets make temporaries as they go along, and those made before the
problem are left behind.
-/

namespace Desugar

-- There are as many instances to find for an action as it has steps.
set_option synthInstance.maxSize 1000

/-!
## Types only
-/

/-- All that has been added to the table is types, and the types of nodes that have
been drawn since. -/
structure Pass.OnlyTypes (p q : Pass) : Prop where
  drawn : p.ids.count ≤ q.ids.count
  rest : q.table = { p.table with types := q.table.types, exprTypes := q.table.exprTypes }
  types : p.table.types.toList <+: q.table.types.toList
  exprTypes : ∀ id : NodeId, q.table.exprTypes[id]? ≠ p.table.exprTypes[id]? →
    p.ids.count ≤ id.val.toNat ∧ id.Below q.ids.count

namespace Pass.OnlyTypes

theorem refl (p : Pass) : p.OnlyTypes p :=
  ⟨Nat.le_refl _, rfl, List.prefix_refl _, fun _ h => absurd rfl h⟩

theorem trans {p q r : Pass} (hpq : p.OnlyTypes q) (hqr : q.OnlyTypes r) : p.OnlyTypes r where
  drawn := Nat.le_trans hpq.drawn hqr.drawn
  rest := by
    rw [hqr.rest, hpq.rest]
  types := hpq.types.trans hqr.types
  exprTypes := by
    intro id hid
    by_cases hsame : r.table.exprTypes[id]? = q.table.exprTypes[id]?
    · rw [hsame] at hid
      rcases hpq.exprTypes id hid with ⟨hfirst, hlast⟩
      exact ⟨hfirst, Nat.lt_of_lt_of_le hlast hqr.drawn⟩
    · rcases hqr.exprTypes id hsame with ⟨hfirst, hlast⟩
      exact ⟨Nat.le_trans hpq.drawn hfirst, hlast⟩

theorem of_types {p : Pass} {types : Array Ty} (h : p.table.types.toList <+: types.toList) :
    p.OnlyTypes { p with table := { p.table with types := types } } :=
  ⟨Nat.le_refl _, rfl, h, fun _ h => absurd rfl h⟩

end Pass.OnlyTypes

def Habit.typing : Habit where
  step := Pass.OnlyTypes
  raises _ := True
  refl := .refl
  trans := .trans

instance (problem : Problem) : Fact (Habit.typing.raises problem) := ⟨trivial⟩
instance : Habit.typing.Gaps := ⟨fun _ => trivial⟩
instance (node : NodeId) : Habit.typing.Names node := ⟨fun _ _ => trivial⟩

namespace PassM

variable {α β : Type} {env : PassEnv}

theorem prefix_intern (table : SymbolTable) (type : Ty) :
    (table.intern type).2 = { table with types := (table.intern type).2.types } ∧
      table.types.toList <+: (table.intern type).2.types.toList := by
  have hpush : table.types.toList <+: (table.types.push type).toList := by simp
  unfold SymbolTable.intern SymbolTable.pushType
  split
  · exact ⟨rfl, hpush⟩
  · split
    · exact ⟨rfl, List.prefix_refl _⟩
    · exact ⟨rfl, hpush⟩

instance : Habit.typing.Typing where
  defaultType p ty := by
    show p.OnlyTypes { p with table := (p.table.defaultType ty).2 }
    unfold SymbolTable.defaultType SymbolTable.basic
    split
    · split
      · split
        · rename_i default _
          have hintern := prefix_intern p.table (.basic default)
          rw [hintern.1]
          exact .of_types hintern.2
        · exact .refl p
      · exact .refl p
    · exact .refl p
  newExpr p expr ty env := by
    have hdraws := newExpr_drawsOne expr ty env p
    unfold DrawsOne at hdraws
    rw [hdraws]
    cases htake : p.ids.take? with
    | none => exact .refl p
    | some drawn =>
      rcases drawn with ⟨id, ids⟩
      rcases NodeSupply.take?_eq_some htake with ⟨rfl, hcount⟩
      have hnew : ∀ other : NodeId, (withType p.table ty ⟨p.ids.next⟩).exprTypes[other]? ≠
          p.table.exprTypes[other]? → other = ⟨p.ids.next⟩ := by
        intro other hother
        by_contra hne
        apply hother
        cases ty with
        | none => rfl
        | some ty => exact NodeMap.getElem?_insert_of_ne (Ne.symm hne)
      refine ⟨by show p.ids.count ≤ ids.count; omega, ?_, ?_, fun other hother => ?_⟩
      · cases ty <;> rfl
      · cases ty <;> exact List.prefix_refl _
      · rw [hnew other hother]
        exact ⟨Nat.le_refl _, by show p.ids.count < ids.count; omega⟩

theorem exec_spell (ty : TypeId) (node : NodeId) (env : PassEnv) (p : Pass) :
    (spell ty node).exec env p =
      (match p.table.spell env.view ty with
        | .ok expr => .ok expr
        | .error failed => .error (.problem (.unspellableType node (p.table.display failed))),
        p) := by
  unfold spell
  rw [exec_bind_ok (exec_getTable env p), exec_bind_ok (exec_read env p)]
  cases p.table.spell env.view ty with
  | ok expr => rfl
  | error failed => rfl

/-- An action ends in a problem of a single declaration, so that the declaration is
kept. -/
def GivesUp (env : PassEnv) (m : PassM α) (p q : Pass) : Prop :=
  ∃ problem, m.exec env p = (.error (.problem problem), q) ∧ problem.severity = .declaration

abbrev Blameless (env : PassEnv) (m : PassM α) : Prop :=
  Obeys (.blaming fun _ => False) env m

namespace GivesUp

variable {m : PassM α} {f : α → PassM β} {p q : Pass}

theorem of_bind (h : GivesUp env (m >>= f) p q) :
    GivesUp env m p q ∨ ∃ a r, m.exec env p = (.ok a, r) ∧ GivesUp env (f a) r q := by
  rcases h with ⟨problem, hexec, hseverity⟩
  cases hm : m.exec env p with
  | mk result r =>
    cases result with
    | ok a =>
      rw [exec_bind_ok hm] at hexec
      exact .inr ⟨a, r, rfl, problem, hexec, hseverity⟩
    | error fault =>
      rw [exec_bind_error hm] at hexec
      cases hexec
      exact .inl ⟨problem, hm, hseverity⟩

theorem of_exec (h : (match (m.exec env p).1 with
      | .error (.problem problem) => decide (problem.severity = .declaration)
      | _ => false) = true) : GivesUp env m p (m.exec env p).2 := by
  cases hm : m.exec env p with
  | mk result q =>
    rw [hm] at h
    match result, h with
    | .error (.problem problem), h => exact ⟨problem, hm, of_decide_eq_true h⟩

theorem after {a : α} {r : Pass} (h : GivesUp env (m >>= f) p q)
    (hm : m.exec env p = (.ok a, r)) : GivesUp env (f a) r q := by
  rcases h with ⟨problem, hexec, hseverity⟩
  rw [exec_bind_ok hm] at hexec
  exact ⟨problem, hexec, hseverity⟩

theorem of_search {find : SymbolTable → Option α} (h : GivesUp env (search find >>= f) p q) :
    ∃ a, find p.table = some a ∧ GivesUp env (f a) p q := by
  cases hfound : find p.table with
  | some a => exact ⟨a, rfl, h.after (exec_search hfound env)⟩
  | none =>
    rcases h with ⟨problem, hexec, _⟩
    rw [exec_bind_error (exec_search_none hfound env)] at hexec
    cases hexec

theorem not_of_blameless [hm : Blameless env m] : ¬ GivesUp env m p q := by
  rintro ⟨problem, hexec, hseverity⟩
  rcases (hm.keeps p).2 problem (congrArg Prod.fst hexec) with hgap | ⟨_, _, _, hnobody⟩
  · exact absurd hseverity (Problem.severity_of_isGap hgap)
  · exact hnobody.elim

theorem of_require {value : Option α} {problem : Problem}
    [Fact ((Habit.blaming fun _ => False).raises problem)]
    (h : GivesUp env (require value problem >>= f) p q) :
    ∃ a, value = some a ∧ GivesUp env (f a) p q := by
  cases value with
  | none =>
    rcases h.of_bind with h | ⟨a, r, hexec, _⟩
    · exact absurd h not_of_blameless
    · cases hexec
  | some a => exact ⟨a, rfl, h.after rfl⟩

end GivesUp

/-- When an action gives up, it has added nothing but types. -/
def Traceless (env : PassEnv) (m : PassM α) : Prop :=
  ∀ p q, GivesUp env m p q → p.OnlyTypes q

namespace Traceless

theorem of_blameless {m : PassM α} [Blameless env m] : Traceless env m :=
  fun _ _ hup => absurd hup GivesUp.not_of_blameless

theorem of_types {m : PassM α} [h : Obeys .typing env m] : Traceless env m := by
  rintro p q ⟨problem, hexec, _⟩
  have hkept := (h.keeps p).1
  rw [hexec] at hkept
  exact hkept

theorem after {m : PassM α} {f : α → PassM β} [hm : Obeys .typing env m]
    (hf : ∀ a, Traceless env (f a)) : Traceless env (m >>= f) := by
  intro p r hup
  rcases hup.of_bind with hup | ⟨a, q, hexec, hup⟩
  · exact of_types p r hup
  · have hfirst := (hm.keeps p).1
    rw [hexec] at hfirst
    exact hfirst.trans (hf a q r hup)

theorem guarded {c : Prop} [Decidable c] {problem : Problem} {f : PUnit → PassM α}
    (hf : ∀ u, Traceless env (f u)) :
    Traceless env (if c then PassM.raise problem >>= f else f ⟨⟩) := by
  split
  · exact after hf
  · exact hf ⟨⟩

theorem before {m : PassM α} {f : α → PassM β} [∀ a, Blameless env (f a)] (hm : Traceless env m) :
    Traceless env (m >>= f) := by
  intro p r hup
  rcases hup.of_bind with hup | ⟨a, q, _, hup⟩
  · exact hm p r hup
  · exact absurd hup GivesUp.not_of_blameless

end Traceless
end PassM

/-- The variables {a} and {b} of a function, {b} of a type of another package that is
not imported, below an outer {a}. -/
def foreignPass : Pass where
  file := ⟨⟨10⟩, "main", "", [], []⟩
  table :=
    { SymbolTable.empty with
      types := #[.basic .int, .named (some ⟨"other", "other"⟩) "hidden" none [], .tuple [⟨0⟩, ⟨1⟩],
        .tuple [⟨1⟩, ⟨0⟩]]
      exprTypes := ((((∅ : NodeMap TypeId).insert ⟨4⟩ ⟨2⟩).insert ⟨7⟩ ⟨0⟩).insert ⟨8⟩ ⟨1⟩).insert
        ⟨11⟩ ⟨3⟩
      defs := ((∅ : NodeMap BindingId).insert ⟨2⟩ ⟨0⟩).insert ⟨3⟩ ⟨1⟩
      uses := (((∅ : NodeMap BindingId).insert ⟨6⟩ ⟨2⟩).insert ⟨7⟩ ⟨0⟩).insert ⟨8⟩ ⟨1⟩
      scopes := #[⟨none, []⟩, ⟨some ⟨0⟩, []⟩]
      bindings := #[⟨"a", some ⟨0⟩, ⟨1⟩, .var, false⟩, ⟨"b", some ⟨1⟩, ⟨1⟩, .var, false⟩,
        ⟨"a", some ⟨0⟩, ⟨0⟩, .var, false⟩] }
  ids := ⟨12⟩
  diagnostics := []
  scopes := ⟨[(⟨9⟩, ⟨1⟩)]⟩
  changes := 0
  applications := 0

def foreignEnv : PassEnv :=
  ⟨"", default, "tmp"⟩

/-!
## Short declarations
-/

namespace Short

open PassM

variable {env : PassEnv}

theorem traceless_holdList (owner node : NodeId) (targets : List Target) (values : List Expr) :
    Traceless env (holdList owner node targets values) :=
  .after fun _ => .after fun _ => .of_blameless

theorem traceless_holdTuple (owner node : NodeId) (targets : List Target) (value : Expr) :
    Traceless env (holdTuple owner node targets value) := by
  refine .after fun known => .after fun tuple => .after fun table => Traceless.guarded fun _ => ?_
  exact .after fun types => .after fun scope => .of_blameless

theorem traceless_hold (owner node : NodeId) (targets : List Target) (values : List Expr) :
    Traceless env (hold owner node targets values) := by
  unfold hold
  split
  · exact traceless_holdList owner node targets values
  · split
    · exact traceless_holdTuple owner node targets _
    · exact .of_types

theorem traceless_eliminate (owner node : NodeId) (lhs rhs : List Expr) :
    Traceless env (eliminate owner node lhs rhs) := by
  have hclassified := obeys_classified .typing env
  have hassigned := obeys_assigned (.blaming fun _ => False) env
  unfold eliminate
  refine Traceless.guarded fun _ => .after fun scope => .after fun targets => ?_
  refine .after fun fresh => .after fun table => ?_
  dsimp only
  split
  · exact (traceless_hold owner node targets rhs).before
  · exact Traceless.before .of_types

theorem splice_append (replace : Stmt → PassM (Option (List Stmt))) (before after : List Stmt) :
    Transformer.splice replace (before ++ after) = do
      let first ← Transformer.splice replace before
      let rest ← Transformer.splice replace after
      return first ++ rest := by
  induction before with
  | nil => simp [Transformer.splice]
  | cons s rest ih =>
    simp only [List.cons_append, Transformer.splice, ih, bind_assoc]
    congr 1
    funext found
    cases found <;> simp only [bind_assoc, pure_bind, List.cons_append, List.append_assoc]

/-- A short declaration that cannot be written out stays in its list, and one
diagnostic names it.  Of the table only the arena and the types of new nodes have
changed, however the statement is labelled and wherever it stands in the list. -/
theorem kept_leaves_no_trace (env : PassEnv) (owner : NodeId) {s : Stmt} {node : NodeId}
    {lhs rhs : List Expr} (hs : s.unlabeled = .assign node lhs .define rhs)
    {before out : List Stmt} (after : List Stmt) {start p q : Pass} {problem : Problem}
    (hbefore : (Transformer.splice (eliminateStmt owner) before).exec env start = (.ok out, p))
    (hproblem : (eliminate owner node lhs rhs).exec env p = (.error (.problem problem), q))
    (hseverity : problem.severity = .declaration) :
    let kept := { q with
      diagnostics := p.diagnostics ++ [problem.diagnose env.rule (some s.render)] }
    (Transformer.splice (eliminateStmt owner) (before ++ s :: after)).exec env start =
        ((out ++ s :: ·) <$> Transformer.splice (eliminateStmt owner) after).exec env kept ∧
      (problem.diagnose env.rule (some s.render)).node = some node ∧ p.OnlyTypes kept := by
  have hnamed : Obeys (.blaming (· = node)) env (eliminate owner node lhs rhs) := inferInstance
  have hblames := hnamed.keeps p
  rw [hproblem] at hblames
  have hsilent : q.diagnostics = p.diagnostics := hblames.1
  have hkept : (eliminateStmt owner s).exec env p = (.ok none, { q with
      diagnostics := p.diagnostics ++ [problem.diagnose env.rule (some s.render)] }) := by
    unfold eliminateStmt
    simp only [hs]
    rw [exec_orElseKeep, exec_bind_error hproblem]
    simp only [if_pos hseverity, hsilent]
    rfl
  refine ⟨?_, ?_, ?_⟩
  · rw [splice_append, exec_bind_ok hbefore, Transformer.splice, bind_assoc, exec_bind_ok hkept]
    simp only [bind_assoc, pure_bind, map_eq_pure_bind]
  · rcases hblames.2 problem rfl with hgap | ⟨_, id, hnode, rfl⟩
    · exact absurd hseverity (Problem.severity_of_isGap hgap)
    · exact hnode
  · rcases traceless_eliminate owner node lhs rhs p q ⟨problem, hproblem, hseverity⟩ with
      ⟨hdrawn, hrest, htypes, hexprTypes⟩
    exact ⟨hdrawn, hrest, htypes, hexprTypes⟩

/-- In `a, b := 1, 2` the zero value of {a} has been made when {b} turns out to have no
type that can be written. -/
theorem foreign_leaves_no_trace :
    let s := Stmt.assign ⟨0⟩ [.ident ⟨2⟩ "a", .ident ⟨3⟩ "b"] .define
      [.lit ⟨4⟩ (.int "1"), .lit ⟨5⟩ (.int "2")]
    ∃ q, (Transformer.splice (eliminateStmt ⟨9⟩) [s]).exec foreignEnv foreignPass = (.ok [s], q) ∧
      q.ids.count = 13 ∧ q.diagnostics.map Diagnostic.node = [some ⟨0⟩] ∧
      foreignPass.OnlyTypes q := by
  intro s
  have hup : GivesUp foreignEnv (eliminate ⟨9⟩ ⟨0⟩ [.ident ⟨2⟩ "a", .ident ⟨3⟩ "b"]
      [.lit ⟨4⟩ (.int "1"), .lit ⟨5⟩ (.int "2")]) foreignPass _ := .of_exec (by decide +kernel)
  have hids : ((eliminate ⟨9⟩ ⟨0⟩ [.ident ⟨2⟩ "a", .ident ⟨3⟩ "b"]
      [.lit ⟨4⟩ (.int "1"), .lit ⟨5⟩ (.int "2")]).exec foreignEnv foreignPass).2.ids.count =
        13 := by
    decide +kernel
  rcases hup with ⟨problem, hproblem, hseverity⟩
  have hbefore : (Transformer.splice (eliminateStmt ⟨9⟩) []).exec foreignEnv foreignPass =
      (.ok [], foreignPass) := rfl
  have h := kept_leaves_no_trace foreignEnv ⟨9⟩ (rfl : s.unlabeled = _) [] hbefore hproblem
    hseverity
  exact ⟨_, h.1, hids, congrArg (fun node => [node]) h.2.1, h.2.2⟩

end Short

/-!
## Declarations of several names
-/

namespace PassM

variable {α : Type} {env : PassEnv} {p q : Pass}

theorem GivesUp.grows {m : PassM α} (h : GivesUp env m p q)
    (hm : Obtains env p m (fun _ _ => True)) : p.Grows q := by
  rcases h with ⟨problem, hexec, _⟩
  exact (hm.of_error hexec).1

theorem GivesUp.evolves {m : PassM α} {lib : Liberty} (h : GivesUp env m p q)
    (hm : Leaves lib env p m (fun _ _ => True)) : p.Evolves lib q := by
  rcases h with ⟨problem, hexec, _⟩
  exact hm.of_error hexec

end PassM

theorem SymbolTable.Extends.lt_size {bound : Nat} {old new : SymbolTable}
    (h : old.Extends bound new) {i : Nat} (hi : i < old.bindings.size) : i < new.bindings.size :=
  (Array.getElem?_eq_some_iff.mp (h.bindings i _ (Array.getElem?_eq_getElem hi))).1

namespace Split

open PassM

variable {env : PassEnv} {p q : Pass}

/-- The initializer of a spec has several values, and the first of those that get a
name is of a type that cannot be written. -/
def StuckAtFirst (env : PassEnv) (table : SymbolTable) (spec : ValueSpec) : Prop :=
  ∃ value tuple position member, spec.values = [value] ∧
    table.exprTypes[value.id]? = some tuple ∧
    spec.names.findIdx? (fun name => !name.isBlank) = some position ∧
    (table.results tuple)[position]? = some member ∧
    (table.spell env.view member).toOption = none

theorem exec_bindingsOf {names : List Ident} {bindings : List (Option BindingId)}
    (h : (bindingsOf names).exec env p = (.ok bindings, q)) :
    q = p ∧ bindings.map Option.isSome = names.map fun name => !name.isBlank := by
  unfold bindingsOf at h
  induction names generalizing p bindings with
  | nil =>
    cases h
    exact ⟨rfl, rfl⟩
  | cons name rest ih =>
    rw [List.mapM_cons] at h
    have hrest : ∀ binding : Option BindingId, binding.isSome = !name.isBlank →
        (bindingsOf rest >>= fun found => pure (binding :: found)).exec env p = (.ok bindings, q) →
        q = p ∧ bindings.map Option.isSome = (name :: rest).map fun name => !name.isBlank := by
      intro binding hbinding h
      cases hexec : (bindingsOf rest).exec env p with
      | mk result r =>
        cases result with
        | ok found =>
          rw [exec_bind_ok hexec] at h
          cases h
          rcases ih hexec with ⟨hsame, hfound⟩
          exact ⟨hsame, by rw [List.map_cons, List.map_cons, hbinding, hfound]⟩
        | error fault =>
          rw [exec_bind_error hexec] at h
          cases h
    cases hblank : name.isBlank with
    | true =>
      rw [if_pos hblank] at h
      exact hrest none (by rw [hblank]; rfl) h
    | false =>
      rw [if_neg (by rw [hblank]; exact Bool.false_ne_true), bind_assoc,
        exec_bind_ok (exec_getTable env p)] at h
      cases hdef : p.table.defs[name.id]? with
      | none =>
        rw [hdef] at h
        cases h
      | some binding =>
        rw [hdef] at h
        exact hrest (some binding) (by rw [hblank]; rfl) h

theorem exec_newTemp (scope : ScopeId) (ty : TypeId) (env : PassEnv) (p : Pass) :
    ∃ temp r, (newTemp scope ty).exec env p = (.ok temp, r) ∧
      p.table.bindings.size < r.table.bindings.size := by
  refine ⟨_, _, rfl, ?_⟩
  show p.table.bindings.size < (p.table.bindings.push _).size
  rw [Array.size_push]
  exact Nat.lt_succ_self _

theorem held_of_givesUp {owner : NodeId} {spec : ValueSpec} {members : List TypeId}
    {f : Option BindingId × Nat → PassM (Option (BindingId × Stmt))}
    (hblank : ∀ position, f (none, position) = pure none)
    (hnamed : ∀ binding position, f (some binding, position) = do
      let member ← require members[position]?
        (.malformedDeclaration spec.id spec.names.length members.length)
      let spelled ← spell member spec.id
      let scope ← scopeAt owner
      let temp ← newTemp scope member
      return some (temp, ← newVarOf temp (some spelled) []))
    {entries : List (Option BindingId × Nat)} (h : GivesUp env (entries.mapM f) p q) :
    ∃ entry member, entries.find? (fun entry => entry.1.isSome) = some entry ∧
      members[entry.2]? = some member ∧
      if (p.table.spell env.view member).toOption.isSome then
        p.table.bindings.size < q.table.bindings.size
      else q = p := by
  have hgrows : ∀ (entry : Option BindingId × Nat) (r : Pass),
      Obtains env r (f entry) (fun _ _ => True) := by
    rintro ⟨binding, position⟩ r
    cases binding with
    | none =>
      rw [hblank]
      exact .pure trivial
    | some binding =>
      rw [hnamed]
      have hmember : Obtains env r (require members[position]? (.malformedDeclaration
          spec.id spec.names.length members.length)) (fun _ _ => True) :=
        .require (fun _ => trivial) fun _ _ => trivial
      refine hmember.bind fun member _ _ _ => ?_
      refine (yields_spell member spec.id fun _ _ => trivial).bind fun spelled _ _ _ => ?_
      refine (yields_scopeAt owner fun _ _ => trivial).bind fun scope _ _ _ => ?_
      refine (yields_newTemp scope member).bind fun temp _ _ _ => ?_
      exact (PassM.yields_newVarOf temp _ _ trivial).bind fun _ _ _ _ => .pure trivial
  induction entries with
  | nil => exact absurd h (@GivesUp.not_of_blameless _ env (pure []) _ _ inferInstance)
  | cons entry rest ih =>
    rcases entry with ⟨binding, position⟩
    rw [List.mapM_cons] at h
    cases binding with
    | none =>
      rw [hblank] at h
      rcases (h.after (exec_pure _ env p)).of_bind with h | ⟨_, r, _, h⟩
      · exact ih h
      · exact absurd h GivesUp.not_of_blameless
    | some binding =>
      rw [hnamed] at h
      simp only [bind_assoc] at h
      rcases h.of_require with ⟨member, hmember, h⟩
      refine ⟨_, member, rfl, hmember, ?_⟩
      have hspell := exec_spell member spec.id env p
      cases hspelled : p.table.spell env.view member with
      | error failed =>
        rw [hspelled] at hspell
        rcases h with ⟨problem, hexec, _⟩
        rw [exec_bind_error hspell] at hexec
        cases hexec
        rfl
      | ok spelled =>
        rw [hspelled] at hspell
        have h := h.after hspell
        rw [scopeAt, bind_assoc] at h
        rcases (h.after (exec_scope? env p)).of_require with ⟨scope, _, h⟩
        rcases exec_newTemp scope member env p with ⟨temp, r, htemp, hsize⟩
        refine (GivesUp.grows (h.after htemp) ?_).table.lt_size hsize
        refine (PassM.yields_newVarOf temp _ _ trivial).bind fun declared u _ _ => ?_
        refine .look (exec_pure _ env u) ?_
        exact (Ends.mapM_any rest fun entry _ r _ => hgrows entry r).bind
          fun _ _ _ _ => .pure trivial

theorem stuckAtFirst_of_givesUp {owner : NodeId} {spec : ValueSpec}
    (h : GivesUp env (splitValues owner spec) p q) :
    q = p ∧ StuckAtFirst env p.table spec ∨
      p.table.bindings.size < q.table.bindings.size ∧ ¬ StuckAtFirst env p.table spec := by
  unfold splitValues at h
  split at h
  · exact absurd h GivesUp.not_of_blameless
  · split at h
    · exact absurd h GivesUp.not_of_blameless
    · rename_i value hvalues
      rcases (h.after (exec_scope? env p)).of_search with ⟨shadowed, _, hrest⟩
      clear h
      rcases hrest.of_bind with h | ⟨bindings, r, hbindings, h⟩
      · exact absurd h GivesUp.not_of_blameless
      rcases exec_bindingsOf hbindings with ⟨rfl, hnamed⟩
      dsimp only at h
      split at h
      · rcases (h.after (exec_typeOf value env r)).of_require with ⟨tuple, htuple, h⟩
        rcases (h.after (exec_getTable env r)).of_bind with h | ⟨held, u, _, h⟩
        · rcases held_of_givesUp (fun _ => rfl) (fun _ _ => rfl) h with
            ⟨entry, member, hentry, hmember, hheld⟩
          have hposition : spec.names.findIdx? (fun name => !name.isBlank) = some entry.2 := by
            have hmapped := congrArg (List.findIdx? id) hnamed
            rw [List.findIdx?_map, List.findIdx?_map] at hmapped
            refine hmapped.symm.trans ?_
            rw [List.findIdx?_eq_fst_find?_zipIdx]
            exact congrArg (Option.map Prod.snd) hentry
          have hstuck : StuckAtFirst env r.table spec ↔
              ¬ (r.table.spell env.view member).toOption.isSome := by
            rw [Option.not_isSome_iff_eq_none]
            refine ⟨?_, fun hnone =>
              ⟨value, tuple, entry.2, member, hvalues, htuple, hposition, hmember, hnone⟩⟩
            rintro ⟨value', tuple', position', member', hvalues', htuple', hposition', hmember',
              hnone⟩
            rw [hvalues] at hvalues'
            cases hvalues'
            rw [htuple] at htuple'
            cases htuple'
            rw [hposition] at hposition'
            cases hposition'
            rw [hmember] at hmember'
            cases hmember'
            exact hnone
          split at hheld
          · rename_i hspelled
            exact .inr ⟨hheld, fun hstuck' => hstuck.mp hstuck' hspelled⟩
          · rename_i hspelled
            exact .inl ⟨hheld, hstuck.mpr hspelled⟩
        · refine absurd h (@GivesUp.not_of_blameless _ _ _ _ _ (@Obeys.bind _ _ _ _ _ _ _ fun lhs =>
            @Obeys.bind _ _ _ _ _ _ _ fun assigned => @Obeys.bind _ _ _ _ _ _ ?_ fun _ => .pure _))
          refine @Obeys.filterMapM _ _ _ _ _ _ fun pair => ?_
          rcases pair with ⟨name, _ | held⟩ <;> infer_instance
      · exact absurd h GivesUp.not_of_blameless
    · exact absurd h GivesUp.not_of_blameless

end Split

/-!
## Assignments to several targets
-/

namespace Parallel

open PassM

variable {env : PassEnv} {p q : Pass}

theorem evolves_of_givesUp {owner node : NodeId} {labels : List Label} {lhs rhs : List Expr}
    (h : GivesUp env (splitAssign owner node labels lhs rhs) p q) :
    ∃ parent, p.scopes.current = some parent ∧
      Pass.Evolves Liberty.coining { p with table := (p.table.newScope parent).2 } q := by
  have h := h.after (exec_getTable env p)
  split at h
  · rcases h.of_bind with h | ⟨s, r, _, h⟩
    · rw [sequence, scopeAt, bind_assoc] at h
      rcases (h.after (exec_scope? env p)).of_require with ⟨parent, hparent, h⟩
      refine ⟨parent, hparent, (h.after (exec_onTable _ env p)).evolves ?_⟩
      refine (Ends.mapM_any lhs fun e _ r _ => ?_).bind fun pinned r _ _ => ?_
      · have hpin : Leaves Liberty.coining env r (pin (p.table.newScope parent).1 e)
            (fun pinned u => Renews Liberty.coining Property.Unkept r u _ _) :=
          leaves_pin (fun _ => trivial) (fun _ => trivial) _ e
        exact hpin.mono fun _ _ _ _ => trivial
      · refine (Ends.mapM_any _ fun pair _ r _ => ?_).bind fun steps r _ _ => ?_
        · exact (leaves_evaluate Property.Unkept _ node pair.1 pair.2).mono fun _ _ _ _ => trivial
        · refine leaves_ownScope fun blockId u _ _ => ?_
          exact (leaves_newStmt _).mono fun _ _ _ _ => trivial
    · exact absurd h GivesUp.not_of_blameless
  · exact absurd h GivesUp.not_of_blameless

end Parallel

open PassM (GivesUp Leaves)

/-- A declaration of several names that is kept has left the temporaries of the
members before the one that cannot be written, so that nothing is left if and only if
that member is the first.  An assignment to several targets that is kept has always
left the scope of its block, together with temporaries. -/
theorem kept_leaves_temporaries (env : PassEnv) (p q : Pass) :
    (∀ owner spec, GivesUp env (Split.splitValues owner spec) p q →
      (∃ made labels, p.table.Coins q.table made labels) ∧
      (q.table.bindings = p.table.bindings ∧ q.table.scopes = p.table.scopes ↔
        Split.StuckAtFirst env p.table spec)) ∧
    ∀ owner node labels lhs rhs, GivesUp env (Parallel.splitAssign owner node labels lhs rhs) p q →
      (∃ made labels, p.table.Coins q.table made labels) ∧
      ∃ parent scope, p.scopes.current = some parent ∧
        q.table.scopes[p.table.scopes.size]? = some scope ∧ scope.parent = some parent := by
  refine ⟨fun owner spec h => ⟨?_, ?_⟩, fun owner node labels lhs rhs h => ?_⟩
  · have hleaves : Leaves Liberty.coining env p (Split.splitValues owner spec) (fun stmts r =>
        Renews Liberty.coining Property.Unkept p r _ _) :=
      Split.leaves_splitValues id id (fun _ => trivial) owner spec
    exact (h.evolves (hleaves.mono fun _ _ _ _ => trivial)).coined id
  · rcases Split.stuckAtFirst_of_givesUp h with ⟨rfl, hstuck⟩ | ⟨hsize, hstuck⟩
    · exact ⟨fun _ => hstuck, fun _ => ⟨rfl, rfl⟩⟩
    · refine ⟨fun hsame => absurd (congrArg Array.size hsame.1) (Nat.ne_of_gt hsize), fun h => ?_⟩
      exact absurd h hstuck
  · rcases Parallel.evolves_of_givesUp h with ⟨parent, hparent, hevolves⟩
    have hmade : (p.table.newScope parent).2.scopes[p.table.scopes.size]? =
        some ⟨some parent, []⟩ := Array.getElem?_push_size
    rcases hevolves.table.parents _ _ hmade with ⟨scope, hscope, hkept⟩
    rcases hevolves.coined id with ⟨made, coined, hcoins⟩
    exact ⟨⟨made, coined, ⟨hcoins.bindings, hcoins.reserved, hcoins.synthetic, hcoins.distinct,
      hcoins.fresh⟩⟩, parent, scope, hparent, hscope, hkept⟩

/-- The names {a} and {b} in some order, for the results of {f} called on the outer
{a}. -/
def foreignSpec (names : List Ident) (call : NodeId) : ValueSpec :=
  ⟨⟨1⟩, names, none, [.call call (.ident ⟨5⟩ "f") [.ident ⟨6⟩ "a"] false]⟩

def foreignSwap : PassM (List Stmt) :=
  Parallel.splitAssign ⟨9⟩ ⟨0⟩ [] [.ident ⟨7⟩ "a", .ident ⟨8⟩ "b"]
    [.ident ⟨8⟩ "b", .ident ⟨7⟩ "a"]

theorem foreign_leaves_temporaries :
    let spec := foreignSpec [⟨⟨3⟩, "b"⟩, ⟨⟨2⟩, "a"⟩] ⟨11⟩
    (∃ q, GivesUp foreignEnv (Split.splitValues ⟨9⟩ spec) foreignPass q ∧
      q.table.bindings = foreignPass.table.bindings ∧
      q.table.scopes = foreignPass.table.scopes) ∧
    ∃ q scope, GivesUp foreignEnv foreignSwap foreignPass q ∧
      q.table.scopes[2]? = some scope ∧ scope.parent = some ⟨1⟩ := by
  intro spec
  have hdeclared : GivesUp foreignEnv (Split.splitValues ⟨9⟩ spec) foreignPass _ :=
    .of_exec (by decide +kernel)
  have hassigned : GivesUp foreignEnv foreignSwap foreignPass _ := .of_exec (by decide +kernel)
  have hstuck : Split.StuckAtFirst foreignEnv foreignPass.table spec :=
    ⟨_, ⟨3⟩, 0, ⟨1⟩, rfl, by decide +kernel, by decide +kernel, by decide +kernel,
      by decide +kernel⟩
  refine ⟨⟨_, hdeclared, ?_⟩, ?_⟩
  · exact ((kept_leaves_temporaries foreignEnv foreignPass _).1 _ _ hdeclared).2.mpr hstuck
  · rcases ((kept_leaves_temporaries foreignEnv foreignPass _).2 _ _ _ _ _ hassigned).2 with
      ⟨parent, scope, hparent, hscope, hkept⟩
    cases hparent
    exact ⟨_, scope, hassigned, hscope, hkept⟩

/-- When {a} comes first, both have declared a temporary for it before they are given
up for {b}. -/
theorem foreign_declared_before_given_up :
    let spec := foreignSpec [⟨⟨2⟩, "a"⟩, ⟨⟨3⟩, "b"⟩] ⟨4⟩
    (∃ q, GivesUp foreignEnv (Split.splitValues ⟨9⟩ spec) foreignPass q ∧
      q.table.bindings.toList = foreignPass.table.bindings.toList ++
        [⟨"tmp", some ⟨0⟩, ⟨1⟩, .var, true⟩]) ∧
    ∃ q, GivesUp foreignEnv foreignSwap foreignPass q ∧
      q.table.bindings.toList = foreignPass.table.bindings.toList ++
        [⟨"tmp", some ⟨0⟩, ⟨2⟩, .var, true⟩] :=
  ⟨⟨_, .of_exec (by decide +kernel), by decide +kernel⟩,
    ⟨_, .of_exec (by decide +kernel), by decide +kernel⟩⟩

end Desugar
