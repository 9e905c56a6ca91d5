import Desugar.Proofs.ControlFlow
import Desugar.Proofs.PostSteps

/-!
# Continues that go another way

In the body of a loop its continues go another way: they run the post step before
they go on, or they jump to it.  Everything else in the body runs as before, at any
depth, because no other statement resolves such a continue or the jump in its place.
-/

namespace Desugar

open PassM (Obtains Gives Ends)

/-!
## Continues that go another way
-/

namespace Ending

/-- Whether a statement ends with a continue of a loop, so many loops down in its body. -/
def isOwn (labels : List String) (depth : Nat) : Ending → Bool
  | .jump .continue label => continues labels depth label
  | _ => false

variable {labels around : List String} {depth : Nat} {o : Ending}

theorem isOwn_outside : (o.outside around).isOwn labels depth = o.isOwn labels depth := by
  unfold outside
  split
  · rename_i hbreaks
    cases o with
    | jump kind label => cases kind <;> first | rfl | cases hbreaks
    | _ => rfl
  · rfl

theorem isOwn_succ (h : o.resumes around = false) :
    o.isOwn labels (depth + 1) = o.isOwn labels depth := by
  cases o with
  | jump kind label =>
    cases kind with
    | «continue» =>
      cases label with
      | none => cases h
      | some label => rfl
    | _ => rfl
  | _ => rfl

theorem not_isOwn_of_resumes (haround : ∀ label ∈ around, label ∉ labels)
    (h : o.resumes around = true) : o.isOwn labels (depth + 1) = false := by
  cases o with
  | jump kind label =>
    cases kind with
    | «continue» =>
      cases label with
      | none => rfl
      | some label =>
        have hmem : label ∈ around := List.contains_iff_mem.mp h
        exact Bool.eq_false_iff.mpr fun hown => haround label hmem (List.contains_iff_mem.mp hown)
    | _ => rfl
  | _ => rfl

theorem not_resumes_of_isOwn (haround : ∀ label ∈ around, label ∉ labels)
    (h : o.isOwn labels (depth + 1) = true) : o.resumes around = false := by
  by_contra hresumes
  rw [not_isOwn_of_resumes haround (Bool.not_eq_false _ ▸ hresumes)] at h
  cases h

end Ending

namespace Behavior

variable {S : Type}

/-- The runs of a part of a body in which the continues of the loop go another way. -/
def reroute (labels : List String) (exit : Option String → Behavior S) (depth : Nat)
    (r : Behavior S) : Behavior S :=
  fun σ o σ' => o.isOwn labels depth = false ∧ r σ o σ' ∨
    ∃ label mid, continues labels depth label = true ∧ r σ (.jump .continue label) mid ∧
      exit label mid o σ'

/-- Another way ends with the same continue, or with a jump to a given label. -/
def LeavesTo (target : String) (exit : Option String → Behavior S) : Prop :=
  ∀ label σ o σ', exit label σ o σ' → o = .jump .continue label ∨ o = .jump .goto (some target)

section

variable {labels : List String} {exit : Option String → Behavior S} {depth : Nat} {target : String}

theorem reroute_ends {o : Ending} {change : S → S → Prop} (ho : o.isOwn labels depth = false) :
    reroute labels exit depth (ends o change) = ends o change := by
  funext σ o' σ'
  refine propext ⟨?_, ?_⟩
  · rintro (⟨_, hrun⟩ | ⟨label, mid, hown, ⟨rfl, _⟩, _⟩)
    · exact hrun
    · cases ho.symm.trans hown
  · rintro ⟨rfl, hchange⟩
    exact .inl ⟨ho, rfl, hchange⟩

theorem reroute_continue {label : Option String} (hown : continues labels depth label = true) :
    reroute labels exit depth (ends (.jump .continue label) Eq) = exit label := by
  funext σ o σ'
  refine propext ⟨?_, ?_⟩
  · rintro (⟨hother, rfl, _⟩ | ⟨label', mid, _, ⟨heq, rfl⟩, hexit⟩)
    · cases hother.symm.trans hown
    · cases heq
      exact hexit
  · intro hexit
    exact .inr ⟨label, σ, hown, ⟨rfl, rfl⟩, hexit⟩

theorem reroute_after (change : S → S → Prop) (r : Behavior S) :
    reroute labels exit depth (after change r) = after change (reroute labels exit depth r) := by
  funext σ o σ'
  refine propext ⟨?_, ?_⟩
  · rintro (⟨hown, mid, hchange, hrun⟩ | ⟨label, last, hown, ⟨mid, hchange, hrun⟩, hexit⟩)
    · exact ⟨mid, hchange, .inl ⟨hown, hrun⟩⟩
    · exact ⟨mid, hchange, .inr ⟨label, last, hown, hrun, hexit⟩⟩
  · rintro ⟨mid, hchange, ⟨hown, hrun⟩ | ⟨label, last, hown, hrun, hexit⟩⟩
    · exact .inl ⟨hown, mid, hchange, hrun⟩
    · exact .inr ⟨label, last, hown, ⟨mid, hchange, hrun⟩, hexit⟩

theorem reroute_fork (test : S → Bool → S → Prop) (yes no : Behavior S) :
    reroute labels exit depth (fork test yes no) =
      fork test (reroute labels exit depth yes) (reroute labels exit depth no) := by
  funext σ o σ'
  refine propext ⟨?_, ?_⟩
  · rintro (⟨hown, mid, ⟨htest, hrun⟩ | ⟨htest, hrun⟩⟩ |
      ⟨label, last, hown, ⟨mid, ⟨htest, hrun⟩ | ⟨htest, hrun⟩⟩, hexit⟩)
    · exact ⟨mid, .inl ⟨htest, .inl ⟨hown, hrun⟩⟩⟩
    · exact ⟨mid, .inr ⟨htest, .inl ⟨hown, hrun⟩⟩⟩
    · exact ⟨mid, .inl ⟨htest, .inr ⟨label, last, hown, hrun, hexit⟩⟩⟩
    · exact ⟨mid, .inr ⟨htest, .inr ⟨label, last, hown, hrun, hexit⟩⟩⟩
  · rintro ⟨mid, ⟨htest, ⟨hown, hrun⟩ | ⟨label, last, hown, hrun, hexit⟩⟩ |
      ⟨htest, ⟨hown, hrun⟩ | ⟨label, last, hown, hrun, hexit⟩⟩⟩
    · exact .inl ⟨hown, mid, .inl ⟨htest, hrun⟩⟩
    · exact .inr ⟨label, last, hown, ⟨mid, .inl ⟨htest, hrun⟩⟩, hexit⟩
    · exact .inl ⟨hown, mid, .inr ⟨htest, hrun⟩⟩
    · exact .inr ⟨label, last, hown, ⟨mid, .inr ⟨htest, hrun⟩⟩, hexit⟩

/-!
### Lists
-/

theorem LeavesTo.ne_done (h : LeavesTo target exit) {label : Option String} {σ σ' : S}
    {o : Ending} (hexit : exit label σ o σ') : o ≠ .done := by
  rintro rfl
  rcases h _ _ _ _ hexit with heq | heq <;> cases heq

theorem reroute_andThen (h : LeavesTo target exit) (first second : Behavior S) :
    reroute labels exit depth (first.andThen second) =
      (reroute labels exit depth first).andThen (reroute labels exit depth second) := by
  funext σ o σ'
  refine propext ⟨?_, ?_⟩
  · rintro (⟨hown, ⟨hne, hrun⟩ | ⟨mid, hfirst, hsecond⟩⟩ |
      ⟨label, last, hown, ⟨_, hrun⟩ | ⟨mid, hfirst, hsecond⟩, hexit⟩)
    · exact .inl ⟨hne, .inl ⟨hown, hrun⟩⟩
    · exact .inr ⟨mid, .inl ⟨rfl, hfirst⟩, .inl ⟨hown, hsecond⟩⟩
    · exact .inl ⟨h.ne_done hexit, .inr ⟨label, last, hown, hrun, hexit⟩⟩
    · exact .inr ⟨mid, .inl ⟨rfl, hfirst⟩, .inr ⟨label, last, hown, hsecond, hexit⟩⟩
  · rintro (⟨hne, ⟨hown, hrun⟩ | ⟨label, last, hown, hrun, hexit⟩⟩ |
      ⟨mid, ⟨_, hfirst⟩ | ⟨label, last, _, _, hexit⟩,
        ⟨hown', hsecond⟩ | ⟨label', last', hown', hsecond, hexit'⟩⟩)
    · exact .inl ⟨hown, .inl ⟨hne, hrun⟩⟩
    · refine .inr ⟨label, last, hown, .inl ⟨?_, hrun⟩, hexit⟩
      intro heq
      cases heq
    · exact .inl ⟨hown', .inr ⟨mid, hfirst, hsecond⟩⟩
    · exact .inr ⟨label', last', hown', .inr ⟨mid, hfirst, hsecond⟩, hexit'⟩
    · exact absurd rfl (h.ne_done hexit)
    · exact absurd rfl (h.ne_done hexit)

end

end Behavior

def Step.reroute {S : Type} (labels : List String) (exit : Option String → Behavior S)
    (depth : Nat) (step : Step S) : Step S :=
  ⟨step.labels, step.run.reroute labels exit depth⟩

namespace Behavior

variable {S : Type} {labels : List String} {exit : Option String → Behavior S} {depth : Nat}
  {target : String}

theorem sequence_reroute (h : LeavesTo target exit) (steps : List (Step S)) :
    sequence (steps.map (Step.reroute labels exit depth)) =
      reroute labels exit depth (sequence steps) := by
  induction steps with
  | nil => exact (reroute_ends rfl).symm
  | cons step rest ih =>
    rw [List.map_cons, sequence, sequence, reroute_andThen h, ih]
    rfl

theorem sequence_of_not_isOwn (h : LeavesTo target exit) {steps : List (Step S)} {σ σ' : S}
    {o : Ending} (hown : o.isOwn labels depth = false) (hrun : sequence steps σ o σ') :
    sequence (steps.map (Step.reroute labels exit depth)) σ o σ' := by
  rw [sequence_reroute h]
  exact .inl ⟨hown, hrun⟩

theorem entry_reroute (label : String) (steps : List (Step S)) :
    entry label (steps.map (Step.reroute labels exit depth)) =
      (entry label steps).map (List.map (Step.reroute labels exit depth)) := by
  induction steps with
  | nil => rfl
  | cons step rest ih =>
    rw [List.map_cons, entry, entry, ih, apply_ite (Option.map _)]
    rfl

theorem reroute_of_runs (h : LeavesTo target exit) {all : List (Step S)}
    (htarget : entry target all = none) {rest : List (Step S)} {σ σ' : S} {o : Ending}
    (hruns : Runs (all.map (Step.reroute labels exit depth))
      (rest.map (Step.reroute labels exit depth)) σ o σ') :
    reroute labels exit depth (Runs all rest) σ o σ' := by
  generalize hrest : rest.map (Step.reroute labels exit depth) = rest' at hruns
  induction hruns generalizing rest with
  | leave hrun hleave =>
    subst hrest
    rw [sequence_reroute h] at hrun
    rcases hrun with ⟨hown, hrun⟩ | ⟨label, mid, hown, hrun, hexit⟩
    · refine .inl ⟨hown, .leave hrun fun label ho => ?_⟩
      have hnone := hleave label ho
      rwa [entry_reroute, Option.map_eq_none_iff] at hnone
    · refine .inr ⟨label, mid, hown, .leave hrun fun name ho => ?_, hexit⟩
      cases ho
  | goto hrun hentry _ ih =>
    subst hrest
    rw [sequence_reroute h] at hrun
    rw [entry_reroute, Option.map_eq_some_iff] at hentry
    rcases hentry with ⟨next, hentry, hnext⟩
    rcases hrun with ⟨_, hrun⟩ | ⟨label, mid, _, _, hexit⟩
    · rcases ih hnext with ⟨hown, hruns⟩ | ⟨label, mid, hown, hruns, hexit⟩
      · exact .inl ⟨hown, .goto hrun hentry hruns⟩
      · exact .inr ⟨label, mid, hown, .goto hrun hentry hruns, hexit⟩
    · rcases h _ _ _ _ hexit with heq | heq
      · cases heq
      · cases heq
        rw [htarget] at hentry
        cases hentry

theorem runs_of_not_isOwn (h : LeavesTo target exit) {all rest : List (Step S)} {σ σ' : S}
    {o : Ending} (hown : o.isOwn labels depth = false) (hruns : Runs all rest σ o σ') :
    Runs (all.map (Step.reroute labels exit depth)) (rest.map (Step.reroute labels exit depth))
      σ o σ' := by
  induction hruns with
  | leave hrun hleave =>
    refine .leave (sequence_of_not_isOwn h hown hrun) fun label ho => ?_
    rw [entry_reroute, hleave label ho]
    rfl
  | goto hrun hentry _ ih =>
    refine .goto (sequence_of_not_isOwn h rfl hrun) ?_ (ih hown)
    rw [entry_reroute, hentry]
    rfl

theorem runs_of_continues (h : LeavesTo target exit) {all : List (Step S)}
    (htarget : entry target all = none) {rest : List (Step S)} {σ mid σ' : S} {o : Ending}
    {label : Option String} (hown : continues labels depth label = true)
    (hruns : Runs all rest σ (.jump .continue label) mid) (hexit : exit label mid o σ') :
    Runs (all.map (Step.reroute labels exit depth)) (rest.map (Step.reroute labels exit depth))
      σ o σ' := by
  generalize ho : Ending.jump .continue label = o' at hruns
  induction hruns with
  | leave hrun hleave =>
    subst ho
    refine .leave ?_ fun name ho => ?_
    · rw [sequence_reroute h]
      exact .inr ⟨label, _, hown, hrun, hexit⟩
    · rcases h _ _ _ _ hexit with heq | heq
      · cases heq.symm.trans ho
      · cases heq.symm.trans ho
        rw [entry_reroute, htarget]
        rfl
  | goto hrun hentry _ ih =>
    refine .goto (sequence_of_not_isOwn h rfl hrun) ?_ (ih hexit ho)
    rw [entry_reroute, hentry]
    rfl

theorem list_reroute (h : LeavesTo target exit) {steps : List (Step S)}
    (htarget : ∀ step ∈ steps, target ∉ step.labels) :
    list (steps.map (Step.reroute labels exit depth)) =
      reroute labels exit depth (list steps) := by
  have hentry := entry_eq_none_iff.mpr htarget
  funext σ o σ'
  refine propext ⟨reroute_of_runs h hentry, ?_⟩
  rintro (⟨hown, hruns⟩ | ⟨label, mid, hown, hruns, hexit⟩)
  · exact runs_of_not_isOwn h hown hruns
  · exact runs_of_continues h hentry hown hruns hexit

/-!
### Clauses and loops
-/

theorem LeavesTo.outside (h : LeavesTo target exit) {label : Option String} {σ σ' : S} {o : Ending}
    (hexit : exit label σ o σ') (around : List String) : o.outside around = o := by
  rcases h _ _ _ _ hexit with rfl | rfl <;> rfl

theorem fallingThrough_reroute (h : LeavesTo target exit) (all : List (Behavior S)) :
    fallingThrough (all.map (reroute labels exit depth)) =
      reroute labels exit depth (fallingThrough all) := by
  induction all with
  | nil => exact (reroute_ends rfl).symm
  | cons clause rest ih =>
    funext σ o σ'
    rw [List.map_cons, fallingThrough, ih]
    refine propext ⟨?_, ?_⟩
    · rintro (⟨hfalls, ⟨hown, hrun⟩ | ⟨label, last, hown, hrun, hexit⟩⟩ |
        ⟨name, mid, ⟨_, hrun⟩ | ⟨label, last, _, _, hexit⟩,
          ⟨hown', hrest⟩ | ⟨label', last', hown', hrest, hexit'⟩⟩)
      · exact .inl ⟨hown, .inl ⟨hfalls, hrun⟩⟩
      · exact .inr ⟨label, last, hown, .inl ⟨rfl, hrun⟩, hexit⟩
      · exact .inl ⟨hown', .inr ⟨name, mid, hrun, hrest⟩⟩
      · exact .inr ⟨label', last', hown', .inr ⟨name, mid, hrun, hrest⟩, hexit'⟩
      · rcases h _ _ _ _ hexit with heq | heq <;> cases heq
      · rcases h _ _ _ _ hexit with heq | heq <;> cases heq
    · rintro (⟨hown, ⟨hfalls, hrun⟩ | ⟨name, mid, hrun, hrest⟩⟩ |
        ⟨label, last, hown, ⟨_, hrun⟩ | ⟨name, mid, hrun, hrest⟩, hexit⟩)
      · exact .inl ⟨hfalls, .inl ⟨hown, hrun⟩⟩
      · exact .inr ⟨name, mid, .inl ⟨rfl, hrun⟩, .inl ⟨hown, hrest⟩⟩
      · refine .inl ⟨?_, .inr ⟨label, last, hown, hrun, hexit⟩⟩
        rcases h _ _ _ _ hexit with rfl | rfl <;> rfl
      · exact .inr ⟨name, mid, .inl ⟨rfl, hrun⟩, .inr ⟨label, last, hown, hrest, hexit⟩⟩

theorem clauses_reroute (h : LeavesTo target exit) (around : List String)
    (pick : S → Option Nat → S → Prop) (all : List (Behavior S)) :
    clauses around pick (all.map (reroute labels exit depth)) =
      reroute labels exit depth (clauses around pick all) := by
  funext σ o σ'
  unfold clauses
  simp only [← List.map_drop, fallingThrough_reroute h]
  refine propext ⟨?_, ?_⟩
  · rintro (⟨hpick, rfl⟩ |
      ⟨i, mid, o', hpick, ⟨hown, hrun⟩ | ⟨label, last, hown, hrun, hexit⟩, rfl⟩)
    · exact .inl ⟨rfl, .inl ⟨hpick, rfl⟩⟩
    · refine .inl ⟨?_, .inr ⟨i, mid, o', hpick, hrun, rfl⟩⟩
      rw [Ending.isOwn_outside, hown]
    · rw [h.outside hexit]
      exact .inr ⟨label, last, hown, .inr ⟨i, mid, _, hpick, hrun, rfl⟩, hexit⟩
  · rintro (⟨hown, ⟨hpick, rfl⟩ | ⟨i, mid, o', hpick, hrun, rfl⟩⟩ |
      ⟨label, last, hown, ⟨_, heq⟩ | ⟨i, mid, o', hpick, hrun, heq⟩, hexit⟩)
    · exact .inl ⟨hpick, rfl⟩
    · rw [Ending.isOwn_outside] at hown
      exact .inr ⟨i, mid, o', hpick, .inl ⟨hown, hrun⟩, rfl⟩
    · cases heq
    · cases Ending.eq_jump_of_outside heq
      exact .inr ⟨i, mid, o, hpick, .inr ⟨label, last, hown, hrun, hexit⟩, (h.outside hexit _).symm⟩

theorem LeavesTo.not_resumes (h : LeavesTo target exit) {label : Option String} {σ σ' : S}
    {o : Ending} (hexit : exit label σ o σ') {around : List String}
    (hlabel : (Ending.jump .continue label).resumes around = false) : o.resumes around = false := by
  rcases h _ _ _ _ hexit with rfl | rfl
  · exact hlabel
  · rfl

theorem rounds_reroute (h : LeavesTo target exit) {around : List String}
    (haround : ∀ label ∈ around, label ∉ labels) (test : S → Bool → S → Prop) (body : Behavior S)
    (post : S → S → Prop) :
    Rounds around test (reroute labels exit (depth + 1) body) post =
      reroute labels exit depth (Rounds around test body post) := by
  funext σ o σ'
  refine propext ⟨?_, ?_⟩
  · intro hrounds
    induction hrounds with
    | stop htest => exact .inl ⟨rfl, .stop htest⟩
    | exit htest hbody hexits =>
      rcases hbody with ⟨hown, hbody⟩ | ⟨label, last, hown, hbody, hexit⟩
      · refine .inl ⟨?_, .exit htest hbody hexits⟩
        rw [Ending.isOwn_outside, ← Ending.isOwn_succ hexits, hown]
      · have hleaves : (Ending.jump .continue label).resumes around = false :=
          Ending.not_resumes_of_isOwn haround hown
        rw [h.outside hexit]
        exact .inr ⟨label, last, (Ending.isOwn_succ hleaves).symm.trans hown,
          .exit htest hbody hleaves, hexit⟩
    | again htest hbody hresumes hpost _ ih =>
      rcases hbody with ⟨_, hbody⟩ | ⟨label, last, hown, _, hexit⟩
      · rcases ih with ⟨hown, hrounds⟩ | ⟨label, last, hown, hrounds, hexit⟩
        · exact .inl ⟨hown, .again htest hbody hresumes hpost hrounds⟩
        · exact .inr ⟨label, last, hown, .again htest hbody hresumes hpost hrounds, hexit⟩
      · rw [h.not_resumes hexit (Ending.not_resumes_of_isOwn haround hown)] at hresumes
        cases hresumes
  · rintro (⟨hown, hrounds⟩ | ⟨label, last, hown, hrounds, hexit⟩)
    · induction hrounds with
      | stop htest => exact .stop htest
      | exit htest hbody hexits =>
        rw [Ending.isOwn_outside, ← Ending.isOwn_succ hexits] at hown
        exact .exit htest (.inl ⟨hown, hbody⟩) hexits
      | again htest hbody hresumes hpost _ ih =>
        exact .again htest (.inl ⟨Ending.not_isOwn_of_resumes haround hresumes, hbody⟩) hresumes
          hpost (ih hown)
    · generalize heq : Ending.jump .continue label = o' at hrounds
      induction hrounds with
      | stop _ => cases heq
      | exit htest hbody hexits =>
        cases Ending.eq_jump_of_outside heq
        have hown' := (Ending.isOwn_succ hexits).trans hown
        rw [← h.outside hexit around]
        exact .exit htest (.inr ⟨label, _, hown', hbody, hexit⟩) (h.not_resumes hexit hexits)
      | again htest hbody hresumes hpost _ ih =>
        exact .again htest (.inl ⟨Ending.not_isOwn_of_resumes haround hresumes, hbody⟩) hresumes
          hpost (ih hexit heq)

end Behavior

theorem Stmts.list_reroute {S : Type} {I : Interpretation S} {table : SymbolTable}
    {labels : List String} {target : String} {exit : Option String → Behavior S} {depth : Nat}
    (h : Behavior.LeavesTo target exit) {stmts : List Stmt} {marks : Stmt → List String}
    (htarget : ∀ label ∈ (Stmts.jumps marks stmts).labels, label ∉ labels ∧ label ≠ target) :
    Behavior.list ((Stmts.steps I table stmts).map (Step.reroute labels exit depth)) =
      (Behavior.list (Stmts.steps I table stmts)).reroute labels exit depth := by
  apply Behavior.list_reroute h
  intro step hstep hmem
  have hname : target ∈ (Stmts.steps I table stmts).flatMap Step.labels :=
    List.mem_flatMap.mpr ⟨step, hstep, hmem⟩
  rw [Stmts.labels_steps] at hname
  exact (htarget target (Stmts.labelNames_subset_jumps stmts hname)).2 rfl

/-!
## Replacing continues
-/

/-- A way to reason about the results of a monad that may count, in all states to come.  A
condition is told whether anything was counted. -/
structure TallyLogic (m : Type → Type) [Monad m] where
  yields : {α : Type} → Pass → m α → (Bool → α → Pass → Prop) → Prop
  pure : ∀ {α : Type} {p : Pass} {a : α} {post : Bool → α → Pass → Prop},
    (∀ counted q, p.Grows q → post counted a q) → yields p (pure a) post
  bind : ∀ {α β : Type} {p : Pass} {x : m α} {f : α → m β} {mid : Bool → α → Pass → Prop}
    {post : Bool → β → Pass → Prop}, yields p x mid →
    (∀ a q, p.Grows q → yields q (f a) (fun counted b r => mid counted a r → post counted b r)) →
    yields p (x >>= f) post
  mono : ∀ {α : Type} {p : Pass} {x : m α} {post post' : Bool → α → Pass → Prop},
    yields p x post → (∀ counted a q, post counted a q → post' counted a q) → yields p x post'

namespace TallyLogic

def ofPass (env : PassEnv) : TallyLogic PassM where
  yields p x post := Obtains env p x (fun a q => ∀ r, q.Grows r → post false a r)
  pure h := .pure (h false)
  bind hx hf := by
    apply Ends.bind hx
    intro a q hq hmid
    apply (hf a q hq).mono
    intro b r hr hpost u hu
    exact hpost u hu (hmid u (hr.trans hu))
  mono hx h := by
    apply Ends.mono hx
    intro a q _ hpost r hr
    exact h false a r (hpost r hr)

def ofCounter : TallyLogic (StateM Nat) where
  yields p x post := ∀ n q, p.Grows q → n ≤ (x.run n).2 ∧ post true (x.run n).1 q ∧
    ((x.run n).2 = n → post false (x.run n).1 q)
  pure h n q hq := ⟨Nat.le_refl n, h true q hq, fun _ => h false q hq⟩
  bind {_ _ _ x f _ _} hx hf n q hq := by
    rcases hx n q hq with ⟨hfirst, hmid, hmid'⟩
    rcases hf (x.run n).1 _ (.refl _) (x.run n).2 q hq with ⟨hsecond, hpost, hpost'⟩
    refine ⟨Nat.le_trans hfirst hsecond, hpost hmid, fun htotal => ?_⟩
    have htotal : ((f (x.run n).1).run (x.run n).2).2 = n := htotal
    have hsame : (x.run n).2 = n := by omega
    exact hpost' (htotal.trans hsame.symm) (hmid' hsame)
  mono hx h n q hq := by
    rcases hx n q hq with ⟨hle, hpost, hpost'⟩
    exact ⟨hle, h _ _ _ hpost, fun hsame => h _ _ _ (hpost' hsame)⟩

end TallyLogic

/-- The labels inside a part of a body are not those of the loop, nor that of the other way. -/
def Jumps.Apart (labels : List String) (target : String) (jumps : Jumps) : Prop :=
  ∀ label ∈ jumps.labels, label ∉ labels ∧ label ≠ target

section

variable {labels : List String} {target : String} {a b : Jumps}

theorem Jumps.apart_append_iff :
    (a ++ b).Apart labels target ↔ a.Apart labels target ∧ b.Apart labels target :=
  List.forall_mem_append

theorem Jumps.apart_under_iff {label : String} : (a.under label).Apart labels target ↔
    (label ∉ labels ∧ label ≠ target) ∧ a.Apart labels target :=
  List.forall_mem_cons

end

section

variable {S : Type} {m : Type → Type} [Monad m] {logic : TallyLogic m} {labels : List String}
  {target : String} {replace : NodeId → Option String → m Stmt} {I : Interpretation S}
  {exit : Bool → SymbolTable → Option String → Behavior S} {origin : Pass}

def Stmt.Reroutes (I : Interpretation S) (labels : List String)
    (exit : Option String → Behavior S) (depth : Nat) (table : SymbolTable) (s s' : Stmt) : Prop :=
  s'.labelNames = s.labelNames ∧ ∀ around : List String, (∀ label ∈ around, label ∉ labels) →
    s'.behavior I table around = (s.behavior I table around).reroute labels exit depth

/-- Replacing a continue gives a statement without labels that goes by a given way, which
leaves for nothing but a target. -/
structure GoesBy (logic : TallyLogic m) (replace : NodeId → Option String → m Stmt)
    (I : Interpretation S) (exit : Bool → SymbolTable → Option String → Behavior S)
    (target : String) (origin : Pass) : Prop where
  leaves : ∀ counted table, Behavior.LeavesTo target (exit counted table)
  yields : ∀ p id label, origin.Grows p → logic.yields p (replace id label) (fun counted s r =>
    s.labelNames = [] ∧ ∀ around, s.behavior I r.table around = exit counted r.table label)

mutual

theorem Stmt.reroutes_replaceContinues
    (h : GoesBy logic replace I exit target origin) (s : Stmt) (depth : Nat) {p : Pass}
    (hp : origin.Grows p)
    (hs : (s.jumps Stmt.labelNames).Apart labels target) :
    logic.yields p (s.replaceContinues labels replace depth) (fun counted s' r =>
      s.Reroutes I labels (exit counted r.table) depth r.table s') := by
  cases s with
  | branch id kind label =>
    rw [Stmt.replaceContinues]
    split
    · rename_i hown
      rcases hown with ⟨rfl, hown⟩
      refine logic.mono (h.yields p id label hp) ?_
      rintro counted s' r ⟨hlabels, hbehavior⟩
      refine ⟨hlabels, fun around _ => ?_⟩
      rw [hbehavior around]
      exact (Behavior.reroute_continue hown).symm
    · rename_i hother
      refine logic.pure fun counted r _ => ⟨rfl, fun around _ => ?_⟩
      refine (Behavior.reroute_ends ?_).symm
      cases kind with
      | «continue» => exact Bool.eq_false_iff.mpr fun hown => hother ⟨rfl, hown⟩
      | _ => rfl
  | block id body =>
    refine logic.bind (body.reroutes_replaceContinues h depth hp hs) fun body' q hq => ?_
    exact logic.pure fun counted r _ hbody => ⟨rfl, fun around _ => hbody.2⟩
  | ifElse id init cond body els =>
    rcases Jumps.apart_append_iff.mp hs with ⟨hbody, hels⟩
    refine logic.bind (body.reroutes_replaceContinues h depth hp hbody) fun body' q hq => ?_
    refine logic.bind (OptStmt.reroutes_replaceContinues h els depth (hp.trans hq) hels)
      fun els' q hq => ?_
    refine logic.pure fun counted r _ hels hbody => ⟨rfl, fun around _ => ?_⟩
    rw [Stmt.behavior, Stmt.behavior, Behavior.reroute_after, Behavior.reroute_fork, hbody.2, hels]
  | switch id init tag clauses =>
    refine logic.bind (CaseClauses.reroutes_replaceContinues h clauses depth hp hs)
      fun clauses' q hq => ?_
    refine logic.pure fun counted r _ hclauses => ⟨rfl, fun around _ => ?_⟩
    rw [Stmt.behavior, Stmt.behavior, Behavior.reroute_after, hclauses.1, hclauses.2,
      Behavior.clauses_reroute (h.leaves counted r.table)]
  | typeSwitch id init guard clauses =>
    refine logic.bind (TypeClauses.reroutes_replaceContinues h clauses depth hp hs)
      fun clauses' q hq => ?_
    refine logic.pure fun counted r _ hclauses => ⟨rfl, fun around _ => ?_⟩
    rw [Stmt.behavior, Stmt.behavior, Behavior.reroute_after, hclauses.1, hclauses.2,
      Behavior.clauses_reroute (h.leaves counted r.table)]
  | select id clauses =>
    refine logic.bind (CommClauses.reroutes_replaceContinues h clauses depth hp hs)
      fun clauses' q hq => ?_
    refine logic.pure fun counted r _ hclauses => ⟨rfl, fun around _ => ?_⟩
    rw [Stmt.behavior, Stmt.behavior, hclauses.1, hclauses.2,
      Behavior.clauses_reroute (h.leaves counted r.table)]
  | forLoop id init cond post body =>
    refine logic.bind (body.reroutes_replaceContinues h (depth + 1) hp hs) fun body' q hq => ?_
    refine logic.pure fun counted r _ hbody => ⟨rfl, fun around haround => ?_⟩
    rw [Stmt.behavior, Stmt.behavior, Behavior.reroute_after, hbody.2,
      Behavior.rounds_reroute (h.leaves counted r.table) haround]
  | range id key value define x body =>
    refine logic.bind (body.reroutes_replaceContinues h (depth + 1) hp hs) fun body' q hq => ?_
    refine logic.pure fun counted r _ hbody => ⟨rfl, fun around haround => ?_⟩
    rw [Stmt.behavior, Stmt.behavior, Behavior.reroute_after, hbody.1, hbody.2,
      Behavior.rounds_reroute (h.leaves counted r.table) haround]
  | labeled id label stmt =>
    rcases Jumps.apart_under_iff.mp hs with ⟨hlabel, hstmt⟩
    refine logic.bind (stmt.reroutes_replaceContinues h depth hp hstmt) fun stmt' q hq => ?_
    refine logic.pure fun counted r _ hstmt' => ⟨?_, fun around haround => ?_⟩
    · exact congrArg (List.cons label) hstmt'.1
    · apply hstmt'.2
      intro other hother
      rcases List.mem_append.mp hother with hother | hother
      · exact haround other hother
      · rw [List.mem_singleton.mp hother]
        exact hlabel.1
  | decl | assign | expr | incDec | send | go | defer | ret | empty =>
    refine logic.pure fun counted r _ => ⟨rfl, fun around _ => ?_⟩
    exact (Behavior.reroute_ends rfl).symm

theorem Stmts.reroutes_replaceContinues
    (h : GoesBy logic replace I exit target origin) (stmts : List Stmt) (depth : Nat)
    {p : Pass} (hp : origin.Grows p)
    (hstmts : (Stmts.jumps Stmt.labelNames stmts).Apart labels target) :
    logic.yields p (Stmts.replaceContinues labels replace depth stmts) (fun counted stmts' r =>
      Stmts.steps I r.table stmts' =
        (Stmts.steps I r.table stmts).map (Step.reroute labels (exit counted r.table) depth)) := by
  cases stmts with
  | nil => exact logic.pure fun counted r _ => rfl
  | cons s rest =>
    rw [Stmts.jumps] at hstmts
    rcases Jumps.apart_append_iff.mp hstmts with ⟨hs, hrest⟩
    refine logic.bind (s.reroutes_replaceContinues h depth hp hs) fun s' q hq => ?_
    refine logic.bind (Stmts.reroutes_replaceContinues h rest depth (hp.trans hq) hrest)
      fun rest' q hq => ?_
    refine logic.pure fun counted r _ hrest hs => ?_
    rw [Stmts.steps, Stmts.steps, List.map_cons, hrest, hs.1, hs.2 [] (List.forall_mem_nil _)]
    rfl

theorem OptStmt.reroutes_replaceContinues
    (h : GoesBy logic replace I exit target origin) (s : Option Stmt) (depth : Nat)
    {p : Pass} (hp : origin.Grows p)
    (hs : (OptStmt.jumps Stmt.labelNames s).Apart labels target) :
    logic.yields p (OptStmt.replaceContinues labels replace depth s) (fun counted s' r =>
      OptStmt.behavior I r.table s' =
        (OptStmt.behavior I r.table s).reroute labels (exit counted r.table) depth) := by
  cases s with
  | none => exact logic.pure fun counted r _ => (Behavior.reroute_ends rfl).symm
  | some s =>
    refine logic.bind (s.reroutes_replaceContinues h depth hp hs) fun s' q hq => ?_
    exact logic.pure fun counted r _ hs' => hs'.2 [] (List.forall_mem_nil _)

theorem Block.reroutes_replaceContinues
    (h : GoesBy logic replace I exit target origin) (b : Block) (depth : Nat) {p : Pass}
    (hp : origin.Grows p)
    (hb : (b.jumps Stmt.labelNames).Apart labels target) :
    logic.yields p (b.replaceContinues labels replace depth) (fun counted b' r =>
      b'.id = b.id ∧ b'.behavior I r.table =
        (b.behavior I r.table).reroute labels (exit counted r.table) depth) := by
  cases b with
  | mk id stmts =>
    refine logic.bind (Stmts.reroutes_replaceContinues h stmts depth hp hb) fun stmts' q hq => ?_
    refine logic.pure fun counted r _ hstmts => ⟨rfl, ?_⟩
    rw [Block.behavior, Block.behavior, hstmts]
    exact Stmts.list_reroute (h.leaves counted r.table) hb

theorem CaseClauses.reroutes_replaceContinues
    (h : GoesBy logic replace I exit target origin) (clauses : List CaseClause) (depth : Nat)
    {p : Pass} (hp : origin.Grows p)
    (hclauses : (CaseClauses.jumps Stmt.labelNames clauses).Apart labels target) :
    logic.yields p (CaseClauses.replaceContinues labels replace depth clauses)
      (fun counted clauses' r =>
        clauses'.map CaseClause.header = clauses.map CaseClause.header ∧
        CaseClauses.behaviors I r.table clauses' = (CaseClauses.behaviors I r.table clauses).map
          (Behavior.reroute labels (exit counted r.table) depth)) := by
  cases clauses with
  | nil => exact logic.pure fun counted r _ => ⟨rfl, rfl⟩
  | cons clause rest =>
    cases clause with
    | mk id list body =>
      rw [CaseClauses.jumps] at hclauses
      rcases Jumps.apart_append_iff.mp hclauses with ⟨hbody, hrest⟩
      refine logic.bind (Stmts.reroutes_replaceContinues h body depth hp hbody) fun body' q hq => ?_
      refine logic.bind (CaseClauses.reroutes_replaceContinues h rest depth (hp.trans hq) hrest)
        fun rest' q hq => ?_
      refine logic.pure fun counted r _ hrest hsteps => ⟨congrArg (List.cons _) hrest.1, ?_⟩
      rw [CaseClauses.behaviors, CaseClauses.behaviors, List.map_cons, hrest.2, hsteps,
        Stmts.list_reroute (h.leaves counted r.table) hbody]

theorem TypeClauses.reroutes_replaceContinues
    (h : GoesBy logic replace I exit target origin) (clauses : List TypeClause) (depth : Nat)
    {p : Pass} (hp : origin.Grows p)
    (hclauses : (TypeClauses.jumps Stmt.labelNames clauses).Apart labels target) :
    logic.yields p (TypeClauses.replaceContinues labels replace depth clauses)
      (fun counted clauses' r =>
        clauses'.map TypeClause.header = clauses.map TypeClause.header ∧
        TypeClauses.behaviors I r.table clauses' = (TypeClauses.behaviors I r.table clauses).map
          (Behavior.reroute labels (exit counted r.table) depth)) := by
  cases clauses with
  | nil => exact logic.pure fun counted r _ => ⟨rfl, rfl⟩
  | cons clause rest =>
    cases clause with
    | mk id types body =>
      rw [TypeClauses.jumps] at hclauses
      rcases Jumps.apart_append_iff.mp hclauses with ⟨hbody, hrest⟩
      refine logic.bind (Stmts.reroutes_replaceContinues h body depth hp hbody) fun body' q hq => ?_
      refine logic.bind (TypeClauses.reroutes_replaceContinues h rest depth (hp.trans hq) hrest)
        fun rest' q hq => ?_
      refine logic.pure fun counted r _ hrest hsteps => ⟨congrArg (List.cons _) hrest.1, ?_⟩
      rw [TypeClauses.behaviors, TypeClauses.behaviors, List.map_cons, hrest.2, hsteps,
        Stmts.list_reroute (h.leaves counted r.table) hbody]

theorem CommClauses.reroutes_replaceContinues
    (h : GoesBy logic replace I exit target origin) (clauses : List CommClause) (depth : Nat)
    {p : Pass} (hp : origin.Grows p)
    (hclauses : (CommClauses.jumps Stmt.labelNames clauses).Apart labels target) :
    logic.yields p (CommClauses.replaceContinues labels replace depth clauses)
      (fun counted clauses' r =>
        clauses'.map CommClause.header = clauses.map CommClause.header ∧
        CommClauses.behaviors I r.table clauses' = (CommClauses.behaviors I r.table clauses).map
          (Behavior.reroute labels (exit counted r.table) depth)) := by
  cases clauses with
  | nil => exact logic.pure fun counted r _ => ⟨rfl, rfl⟩
  | cons clause rest =>
    cases clause with
    | mk id comm body =>
      rw [CommClauses.jumps] at hclauses
      rcases Jumps.apart_append_iff.mp hclauses with ⟨hbody, hrest⟩
      refine logic.bind (Stmts.reroutes_replaceContinues h body depth hp hbody) fun body' q hq => ?_
      refine logic.bind (CommClauses.reroutes_replaceContinues h rest depth (hp.trans hq) hrest)
        fun rest' q hq => ?_
      refine logic.pure fun counted r _ hrest hsteps => ⟨congrArg (List.cons _) hrest.1, ?_⟩
      rw [CommClauses.behaviors, CommClauses.behaviors, List.map_cons, hrest.2, hsteps,
        Stmts.list_reroute (h.leaves counted r.table) hbody]

end

end

end Desugar
