import Desugar.Proofs.CopiedText
import Desugar.Proofs.Rerouting

/-!
# The meaning of rewritten loops

A loop with an initializer or a post step runs like the loop with a condition only
that takes its place, whichever way the continues go on to the post step.
-/

namespace Desugar

open PassM (Obtains Ends)

section

variable {S : Type} {I : Interpretation S}

theorem Stmt.behavior_of_isSimple {s : Stmt} (h : s.isSimple = true) (table : SymbolTable)
    (around : List String) :
    s.behavior I table around = .ends .done (I.act (s.reading table)) := by
  cases s with
  | assign | expr | incDec | send | empty => rfl
  | _ => cases h

theorem Stmt.labelNames_of_isSimple {s : Stmt} (h : s.isSimple = true) : s.labelNames = [] := by
  cases s with
  | assign | expr | incDec | send | empty => rfl
  | _ => cases h

end

theorem Stmt.behavior_label {S : Type} (I : Interpretation S) (table : SymbolTable) (s : Stmt)
    (labels : List Label) (around : List String) :
    (s.label labels).behavior I table around =
      s.behavior I table (around ++ labels.map Label.name) := by
  induction labels generalizing around with
  | nil => rw [List.map_nil, List.append_nil, Stmt.label]
  | cons label rest ih =>
    rw [Stmt.label, Stmt.behavior, ih, List.map_cons, List.append_assoc, List.singleton_append]

theorem Stmt.ids_unlabeled_subset (s : Stmt) : s.unlabeled.ids ⊆ s.ids := by
  cases s with
  | labeled id label inner => exact List.subset_cons_of_subset _ inner.ids_unlabeled_subset
  | _ => exact List.Subset.refl _

theorem Stmts.steps_append {S : Type} (I : Interpretation S) (table : SymbolTable)
    (first second : List Stmt) :
    Stmts.steps I table (first ++ second) = Stmts.steps I table first ++
      Stmts.steps I table second := by
  induction first with
  | nil => rfl
  | cons s rest ih => rw [List.cons_append, Stmts.steps, Stmts.steps, ih, List.cons_append]

theorem bindingOf_of_grows {p q : Pass} (hgrows : p.Grows q) {id : NodeId}
    (hid : id.Below p.ids.count) : q.table.bindingOf id = p.table.bindingOf id := by
  rw [SymbolTable.bindingOf, SymbolTable.bindingOf, hgrows.table.defs id hid,
    hgrows.table.uses id hid]

/-!
## The ways to the post step
-/

namespace Behavior

variable {S : Type}

theorem ends_andThen_ends (o : Ending) (change : S → S → Prop) :
    (ends .done change).andThen (ends o Eq) = ends o change := by
  funext σ o' σ'
  refine propext ⟨?_, ?_⟩
  · rintro (⟨hne, rfl, _⟩ | ⟨mid, ⟨_, hchange⟩, rfl, rfl⟩)
    · exact absurd rfl hne
    · exact ⟨rfl, hchange⟩
  · rintro ⟨rfl, hchange⟩
    exact .inr ⟨σ', ⟨rfl, hchange⟩, rfl, rfl⟩

theorem list_of_unlabeled {steps : List (Step S)} (h : ∀ step ∈ steps, step.labels = []) :
    list steps = sequence steps := by
  have hentry : ∀ label, entry label steps = none := by
    intro label
    refine entry_eq_none_iff.mpr fun step hstep => ?_
    rw [h step hstep]
    exact List.not_mem_nil
  funext σ o σ'
  refine propext ⟨fun hruns => ?_, fun hrun => .leave hrun fun label _ => hentry label⟩
  cases hruns with
  | leave hrun _ => exact hrun
  | goto _ hnext _ =>
    rw [hentry] at hnext
    cases hnext

theorem sequence_singleton (step : Step S) : sequence [step] = step.run := by
  funext σ o σ'
  refine propext ⟨?_, fun hrun => ?_⟩
  · rintro (⟨_, hrun⟩ | ⟨mid, hrun, rfl, rfl⟩)
    · exact hrun
    · exact hrun
  · by_cases hdone : o = .done
    · subst hdone
      exact .inr ⟨σ', hrun, rfl, rfl⟩
    · exact .inl ⟨hdone, hrun⟩

theorem after_eq (r : Behavior S) : after Eq r = r := by
  funext σ o σ'
  refine propext ⟨?_, fun hrun => ⟨σ, rfl, hrun⟩⟩
  rintro ⟨mid, rfl, hrun⟩
  exact hrun

theorem list_after {change : S → S → Prop} {labels : List String} {r : Behavior S}
    (h : ∀ σ name σ', r σ (.jump .goto (some name)) σ' → name ∉ labels) :
    list [⟨[], ends .done change⟩, ⟨labels, r⟩] = after change r := by
  have hsequence : sequence [⟨[], ends .done change⟩, ⟨labels, r⟩] = after change r := by
    rw [sequence, sequence_singleton]
    funext σ o σ'
    refine propext ⟨?_, ?_⟩
    · rintro (⟨hne, rfl, _⟩ | ⟨mid, ⟨_, hchange⟩, hrun⟩)
      · exact absurd rfl hne
      · exact ⟨mid, hchange, hrun⟩
    · rintro ⟨mid, hchange, hrun⟩
      exact .inr ⟨mid, ⟨rfl, hchange⟩, hrun⟩
  have hentry : ∀ {σ : S} {name σ'}, after change r σ (.jump .goto (some name)) σ' →
      entry name [⟨[], ends .done change⟩, ⟨labels, r⟩] = none := by
    rintro σ name σ' ⟨mid, _, hrun⟩
    have hname := h mid name σ' hrun
    simp [entry, hname]
  funext σ o σ'
  refine propext ⟨fun hruns => ?_, fun hrun => ?_⟩
  · cases hruns with
    | leave hrun _ => rwa [hsequence] at hrun
    | goto hrun hnext _ =>
      rw [hsequence] at hrun
      rw [hentry hrun] at hnext
      cases hnext
  · refine .leave (hsequence ▸ hrun) fun label ho => ?_
    subst ho
    exact hentry hrun

/-!
### A post step at the end of a list
-/

theorem andThen_assoc (first second third : Behavior S) :
    (first.andThen second).andThen third = first.andThen (second.andThen third) := by
  funext σ o σ'
  refine propext ⟨?_, ?_⟩
  · rintro (⟨hne, ⟨_, hfirst⟩ | ⟨mid, hfirst, hsecond⟩⟩ |
      ⟨last, ⟨hdone, _⟩ | ⟨mid, hfirst, hsecond⟩, hthird⟩)
    · exact .inl ⟨hne, hfirst⟩
    · exact .inr ⟨mid, hfirst, .inl ⟨hne, hsecond⟩⟩
    · exact absurd rfl hdone
    · exact .inr ⟨mid, hfirst, .inr ⟨last, hsecond, hthird⟩⟩
  · rintro (⟨hne, hfirst⟩ | ⟨mid, hfirst, ⟨hne, hsecond⟩ | ⟨last, hsecond, hthird⟩⟩)
    · exact .inl ⟨hne, .inl ⟨hne, hfirst⟩⟩
    · exact .inl ⟨hne, .inr ⟨mid, hfirst, hsecond⟩⟩
    · exact .inr ⟨last, .inr ⟨mid, hfirst, hsecond⟩, hthird⟩

theorem sequence_append (first second : List (Step S)) :
    sequence (first ++ second) = (sequence first).andThen (sequence second) := by
  induction first with
  | nil =>
    funext σ o σ'
    refine propext ⟨fun hrun => .inr ⟨σ, ⟨rfl, rfl⟩, hrun⟩, ?_⟩
    rintro (⟨hne, rfl, _⟩ | ⟨mid, ⟨_, rfl⟩, hrun⟩)
    · exact absurd rfl hne
    · exact hrun
  | cons step rest ih => rw [List.cons_append, sequence, sequence, ih, andThen_assoc]

section

variable {last : Step S}

theorem entry_concat (hlast : last.labels = []) (label : String) (steps : List (Step S)) :
    entry label (steps ++ [last]) = (entry label steps).map (· ++ [last]) := by
  induction steps with
  | nil =>
    rw [List.nil_append, entry, entry, hlast]
    rfl
  | cons step rest ih =>
    rw [List.cons_append, entry, entry, ih, apply_ite (Option.map _)]
    rfl

theorem andThen_of_runs_concat (hlast : last.labels = []) (hends : GotosIn [] last.run)
    {all rest : List (Step S)} {σ σ' : S} {o : Ending}
    (hruns : Runs (all ++ [last]) (rest ++ [last]) σ o σ') :
    (Runs all rest).andThen last.run σ o σ' := by
  generalize hrest : rest ++ [last] = rest' at hruns
  induction hruns generalizing rest with
  | leave hrun hleave =>
    subst hrest
    rw [sequence_append, sequence_singleton] at hrun
    rcases hrun with ⟨hne, hrun⟩ | ⟨mid, hrun, hend⟩
    · refine .inl ⟨hne, .leave hrun fun label ho => ?_⟩
      have hnone := hleave label ho
      rwa [entry_concat hlast, Option.map_eq_none_iff] at hnone
    · refine .inr ⟨mid, .leave hrun fun label ho => ?_, hend⟩
      cases ho
  | goto hrun hentry _ ih =>
    subst hrest
    rw [sequence_append, sequence_singleton] at hrun
    rw [entry_concat hlast, Option.map_eq_some_iff] at hentry
    rcases hentry with ⟨next, hentry, hnext⟩
    rcases hrun with ⟨_, hrun⟩ | ⟨mid, _, hend⟩
    · rcases ih hnext with ⟨hne, hruns⟩ | ⟨mid, hruns, hend⟩
      · exact .inl ⟨hne, .goto hrun hentry hruns⟩
      · exact .inr ⟨mid, .goto hrun hentry hruns, hend⟩
    · cases hends _ _ _ hend

theorem runs_concat_of_andThen (hlast : last.labels = []) (hends : GotosIn [] last.run)
    {all rest : List (Step S)} {σ mid σ' : S} {o o' : Ending} (hruns : Runs all rest σ o' mid)
    (hend : o' ≠ .done ∧ o = o' ∧ σ' = mid ∨ o' = .done ∧ last.run mid o σ') :
    Runs (all ++ [last]) (rest ++ [last]) σ o σ' := by
  induction hruns with
  | leave hrun hleave =>
    refine .leave ?_ fun label ho => ?_
    · rw [sequence_append, sequence_singleton]
      rcases hend with ⟨hne, rfl, rfl⟩ | ⟨rfl, hend⟩
      · exact .inl ⟨hne, hrun⟩
      · exact .inr ⟨_, hrun, hend⟩
    · rw [entry_concat hlast, Option.map_eq_none_iff]
      rcases hend with ⟨_, rfl, rfl⟩ | ⟨rfl, hend⟩
      · exact hleave label ho
      · rw [ho] at hend
        cases hends _ _ _ hend
  | @goto rest next σ mid _ _ label hrun hentry _ ih =>
    have hrun' : sequence (rest ++ [last]) σ (.jump .goto (some label)) mid := by
      rw [sequence_append]
      refine .inl ⟨?_, hrun⟩
      intro ho
      cases ho
    refine .goto hrun' ?_ (ih hend)
    rw [entry_concat hlast, hentry]
    rfl

theorem list_concat (hlast : last.labels = []) (hends : GotosIn [] last.run)
    (steps : List (Step S)) : list (steps ++ [last]) = (list steps).andThen last.run := by
  funext σ o σ'
  refine propext ⟨andThen_of_runs_concat hlast hends, ?_⟩
  rintro (⟨hne, hruns⟩ | ⟨mid, hruns, hend⟩)
  · exact runs_concat_of_andThen hlast hends hruns (.inl ⟨hne, rfl, rfl⟩)
  · exact runs_concat_of_andThen hlast hends hruns (.inr ⟨rfl, hend⟩)

end

/-!
### A post step after a block
-/

theorem list_pair_iff {target : String} {inner : Behavior S} {step : S → S → Prop} {σ σ' : S}
    {o : Ending} :
    list [⟨[], inner⟩, ⟨[target], ends .done step⟩] σ o σ' ↔
      o = .done ∧ (∃ mid, (inner σ .done mid ∨ inner σ (.jump .goto (some target)) mid) ∧
        step mid σ') ∨
      o ≠ .done ∧ o ≠ .jump .goto (some target) ∧ inner σ o σ' := by
  have hstep : ∀ {σ o σ'}, sequence [⟨[target], ends .done step⟩] σ o σ' ↔
      o = .done ∧ step σ σ' := by
    intro σ o σ'
    rw [sequence_singleton]
    exact Iff.rfl
  have hentry : entry target [⟨[], inner⟩, ⟨[target], ends .done step⟩] =
      some [⟨[target], ends .done step⟩] := by
    simp [entry]
  have hother : ∀ label, label ≠ target →
      entry label [⟨[], inner⟩, ⟨[target], ends .done step⟩] = none := by
    intro label hne
    simp [entry, hne]
  constructor
  · intro hruns
    cases hruns with
    | leave hrun hleave =>
      rw [sequence] at hrun
      rcases hrun with ⟨hne, hrun⟩ | ⟨mid, hrun, hend⟩
      · refine .inr ⟨hne, ?_, hrun⟩
        rintro rfl
        rw [hleave target rfl] at hentry
        cases hentry
      · rcases hstep.mp hend with ⟨rfl, hlast⟩
        exact .inl ⟨rfl, mid, .inl hrun, hlast⟩
    | @goto _ next _ mid _ _ label hrun hnext hruns =>
      rw [sequence] at hrun
      have htarget : label = target := by
        by_contra hne
        rw [hother label hne] at hnext
        cases hnext
      subst htarget
      rw [hentry] at hnext
      cases hnext
      rcases hrun with ⟨_, hrun⟩ | ⟨_, _, hend⟩
      · cases hruns with
        | leave hlast _ =>
          rcases hstep.mp hlast with ⟨rfl, hend⟩
          exact .inl ⟨rfl, mid, .inr hrun, hend⟩
        | goto hlast _ _ =>
          rcases hstep.mp hlast with ⟨heq, _⟩
          cases heq
      · rcases hstep.mp hend with ⟨heq, _⟩
        cases heq
  · rintro (⟨rfl, mid, hrun | hrun, hend⟩ | ⟨hne, hgoto, hrun⟩)
    · refine .leave (.inr ⟨mid, hrun, hstep.mpr ⟨rfl, hend⟩⟩) fun label ho => ?_
      cases ho
    · have hjump : sequence [⟨[], inner⟩, ⟨[target], ends .done step⟩] σ
          (.jump .goto (some target)) mid := by
        refine .inl ⟨?_, hrun⟩
        intro ho
        cases ho
      refine .goto hjump hentry (.leave (hstep.mpr ⟨rfl, hend⟩) fun label ho => ?_)
      cases ho
    · refine .leave (.inl ⟨hne, hrun⟩) fun label ho => hother label ?_
      rintro rfl
      exact hgoto ho

/-!
### Rounds
-/

/-- A body that runs the post step itself in every round that is followed by another one. -/
structure TakesIn (labels : List String) (body : Behavior S) (post : S → S → Prop)
    (body' : Behavior S) : Prop where
  again : ∀ σ σ', (∃ o, o.resumes labels = true ∧ body' σ o σ') ↔
    ∃ o mid, o.resumes labels = true ∧ body σ o mid ∧ post mid σ'
  leave : ∀ σ o σ', o.resumes labels = false → (body' σ o σ' ↔ body σ o σ')

theorem TakesIn.rounds {labels : List String} {body body' : Behavior S} {post : S → S → Prop}
    (h : TakesIn labels body post body') (test : S → Bool → S → Prop) :
    Rounds labels test body' Eq = Rounds labels test body post := by
  funext σ o σ'
  refine propext ⟨fun hrounds => ?_, fun hrounds => ?_⟩
  · induction hrounds with
    | stop htest => exact .stop htest
    | exit htest hbody hexit => exact .exit htest ((h.leave _ _ _ hexit).mp hbody) hexit
    | again htest hbody hresumes hpost _ ih =>
      subst hpost
      rcases (h.again _ _).mp ⟨_, hresumes, hbody⟩ with ⟨o, mid, hresumes', hbody', hpost⟩
      exact .again htest hbody' hresumes' hpost ih
  · induction hrounds with
    | stop htest => exact .stop htest
    | exit htest hbody hexit => exact .exit htest ((h.leave _ _ _ hexit).mpr hbody) hexit
    | again htest hbody hresumes hpost _ ih =>
      rcases (h.again _ _).mpr ⟨_, _, hresumes, hbody, hpost⟩ with ⟨o, hresumes', hbody'⟩
      exact .again htest hbody' hresumes' rfl ih

end Behavior

theorem Ending.resumes_iff {labels : List String} {o : Ending} :
    o.resumes labels = true ↔ o = .done ∨
      ∃ label, o = .jump .continue label ∧ continues labels 0 label = true := by
  cases o with
  | done => simp [resumes]
  | returned => simp [resumes]
  | jump kind label =>
    cases kind with
    | «continue» => cases label <;> simp [resumes, continues]
    | _ => simp [resumes]

theorem Ending.isOwn_zero_of_resumes {labels : List String} {o : Ending}
    (h : o.resumes labels = true) (hdone : o ≠ .done) : o.isOwn labels 0 = true := by
  rcases resumes_iff.mp h with rfl | ⟨label, rfl, hown⟩
  · exact absurd rfl hdone
  · exact hown

theorem Ending.not_isOwn_zero {labels : List String} {o : Ending} (h : o.resumes labels = false) :
    o.isOwn labels 0 = false := by
  cases o with
  | jump kind label =>
    cases kind with
    | «continue» =>
      refine Bool.eq_false_iff.mpr fun hown => ?_
      rw [resumes_iff.mpr (.inr ⟨label, rfl, hown⟩)] at h
      cases h
    | _ => rfl
  | _ => rfl

namespace Behavior

variable {S : Type} {labels : List String} {body : Behavior S} {post : S → S → Prop}

theorem takesIn_copies (labels : List String) (body : Behavior S) (post : S → S → Prop) :
    TakesIn labels body post
      ((reroute labels (fun label => ends (.jump .continue label) post) 0 body).andThen
        (ends .done post)) where
  again σ σ' := by
    constructor
    · rintro ⟨o, hresumes, ⟨hne, ⟨hown, _⟩ | ⟨label, mid, hown, hrun, _, hpost⟩⟩ |
        ⟨mid, ⟨_, hrun⟩ | ⟨label, _, _, _, heq, _⟩, _, hpost⟩⟩
      · cases hown.symm.trans (Ending.isOwn_zero_of_resumes hresumes hne)
      · exact ⟨_, mid, Ending.resumes_iff.mpr (.inr ⟨label, rfl, hown⟩), hrun, hpost⟩
      · exact ⟨.done, mid, rfl, hrun, hpost⟩
      · cases heq
    · rintro ⟨o, mid, hresumes, hrun, hpost⟩
      rcases Ending.resumes_iff.mp hresumes with rfl | ⟨label, rfl, hown⟩
      · exact ⟨.done, rfl, .inr ⟨mid, .inl ⟨rfl, hrun⟩, rfl, hpost⟩⟩
      · refine ⟨_, hresumes, .inl ⟨?_, .inr ⟨label, mid, hown, hrun, rfl, hpost⟩⟩⟩
        intro heq
        cases heq
  leave σ o σ' hleave := by
    constructor
    · rintro (⟨_, ⟨_, hrun⟩ | ⟨label, _, hown, _, rfl, _⟩⟩ | ⟨_, _, rfl, _⟩)
      · exact hrun
      · rw [Ending.resumes_iff.mpr (.inr ⟨label, rfl, hown⟩)] at hleave
        cases hleave
      · cases hleave
    · intro hrun
      refine .inl ⟨?_, .inl ⟨Ending.not_isOwn_zero hleave, hrun⟩⟩
      rintro rfl
      cases hleave

theorem takesIn_jumps {target : String}
    (htarget : ∀ σ σ', ¬ body σ (.jump .goto (some target)) σ') :
    TakesIn labels body post
      (list [⟨[], reroute labels (fun _ => ends (.jump .goto (some target)) Eq) 0 body⟩,
        ⟨[target], ends .done post⟩]) where
  again σ σ' := by
    constructor
    · rintro ⟨o, hresumes, hruns⟩
      rcases list_pair_iff.mp hruns with ⟨rfl, mid, hrun, hpost⟩ | ⟨hne, hgoto, hrun⟩
      · rcases hrun with (⟨_, hrun⟩ | ⟨_, _, _, _, heq, _⟩) |
          ⟨_, hrun⟩ | ⟨label, _, hown, hrun, _, rfl⟩
        · exact ⟨.done, mid, rfl, hrun, hpost⟩
        · cases heq
        · exact absurd hrun (htarget _ _)
        · exact ⟨_, _, Ending.resumes_iff.mpr (.inr ⟨label, rfl, hown⟩), hrun, hpost⟩
      · rcases hrun with ⟨hown, _⟩ | ⟨_, _, _, _, heq, _⟩
        · cases hown.symm.trans (Ending.isOwn_zero_of_resumes hresumes hne)
        · exact absurd heq hgoto
    · rintro ⟨o, mid, hresumes, hrun, hpost⟩
      refine ⟨.done, rfl, list_pair_iff.mpr (.inl ⟨rfl, mid, ?_, hpost⟩)⟩
      rcases Ending.resumes_iff.mp hresumes with rfl | ⟨label, rfl, hown⟩
      · exact .inl (.inl ⟨rfl, hrun⟩)
      · exact .inr (.inr ⟨label, mid, hown, hrun, rfl, rfl⟩)
  leave σ o σ' hleave := by
    constructor
    · intro hruns
      rcases list_pair_iff.mp hruns with ⟨rfl, _⟩ | ⟨_, hgoto, ⟨_, hrun⟩ | ⟨_, _, _, _, heq, _⟩⟩
      · cases hleave
      · exact hrun
      · exact absurd heq hgoto
    · intro hrun
      refine list_pair_iff.mpr (.inr ⟨?_, ?_, .inl ⟨Ending.not_isOwn_zero hleave, hrun⟩⟩)
      · rintro rfl
        cases hleave
      · rintro rfl
        exact htarget _ _ hrun

theorem reroute_of_forall_not {exit : Option String → Behavior S} {depth : Nat}
    (h : ∀ label σ σ', continues labels depth label = true → ¬ body σ (.jump .continue label) σ') :
    reroute labels exit depth body = body := by
  funext σ o σ'
  refine propext ⟨?_, fun hrun => .inl ⟨?_, hrun⟩⟩
  · rintro (⟨_, hrun⟩ | ⟨label, mid, hown, hrun, _⟩)
    · exact hrun
    · exact absurd hrun (h label _ _ hown)
  · cases o with
    | jump kind label =>
      cases kind with
      | «continue» => exact Bool.eq_false_iff.mpr fun hown => h label _ _ hown hrun
      | _ => rfl
    | _ => rfl

end Behavior

/-!
## The body of a loop
-/

namespace Loop

open Behavior (TakesIn LeavesTo GotosIn)

variable {env : PassEnv} {p q : Pass} {S : Type}

def viaCopy (I : Interpretation S) (post : Stmt) (_ : Bool) (table : SymbolTable)
    (label : Option String) : Behavior S :=
  .ends (.jump .continue label) (I.act (post.reading table))

def viaJump (target : String) (counted : Bool) (_ : SymbolTable) (_ : Option String) : Behavior S :=
  .ends (.jump .goto (some target)) (fun σ σ' => counted = true ∧ σ = σ')

theorem leavesTo_viaCopy (I : Interpretation S) (post : Stmt) (target : String) (counted : Bool)
    (table : SymbolTable) : LeavesTo target (viaCopy I post counted table) :=
  fun _ _ _ _ hexit => .inl hexit.1

theorem leavesTo_viaJump (target : String) (counted : Bool) (table : SymbolTable) :
    LeavesTo (S := S) target (viaJump target counted table) :=
  fun _ _ _ _ hexit => .inr hexit.1

theorem viaJump_true (target : String) (table : SymbolTable) :
    viaJump (S := S) target true table = fun _ => .ends (.jump .goto (some target)) Eq := by
  funext label
  simp only [viaJump, true_and]

theorem yields_runPost_viaCopy (I : Interpretation S) (hdrawn : p.Drawn) {post : Stmt}
    (hids : ∀ id ∈ post.ids, id.Below p.ids.count) (hsimple : post.isSimple = true)
    (id : NodeId) (label : Option String) (hq : p.Grows q) :
    (TallyLogic.ofPass env).yields q (runPost post id label) (fun counted s r =>
      s.labelNames = [] ∧ ∀ around, s.behavior I r.table around =
        viaCopy I post counted r.table label) := by
  have hcopied : Obtains env q (copy post) _ := yields_copy_reading (hdrawn.of_grows hq)
    (fun id hid => PassM.below_mono hq (hids id hid)) hsimple
  apply hcopied.bind
  intro step u hu hstep
  apply (PassM.yields_newStmt _ trivial).bind
  rintro jump v hv ⟨jumpId, rfl, _⟩
  apply (PassM.yields_freshId trivial).bind
  intro bodyId w hw _
  refine .pure fun r hr => ⟨rfl, fun around => ?_⟩
  have hsteps : Stmts.steps I r.table [step, .branch jumpId .continue label] =
      [⟨[], .ends .done (I.act (post.reading r.table))⟩,
        ⟨[], .ends (.jump .continue label) Eq⟩] := by
    rw [Stmts.steps, Stmts.steps, Stmts.steps, Stmt.labelNames_of_isSimple hstep.1,
      Stmt.behavior_of_isSimple hstep.1, hstep.2 r (hv.trans (hw.trans hr))]
    rfl
  rw [Stmt.behavior, Block.behavior, hsteps, Behavior.list_of_unlabeled (by simp),
    Behavior.sequence, Behavior.sequence_singleton, Behavior.ends_andThen_ends]
  rfl

theorem yields_jumpTo_viaJump (I : Interpretation S) (target : String) (id : NodeId)
    (label : Option String) (q : Pass) :
    TallyLogic.ofCounter.yields q (jumpTo target id label) (fun counted s r =>
      s.labelNames = [] ∧ ∀ around, s.behavior I r.table around =
        viaJump target counted r.table label) := by
  intro n r _
  refine ⟨Nat.le_succ n, ⟨rfl, fun around => ?_⟩, fun hsame => absurd hsame (Nat.succ_ne_self n)⟩
  rw [viaJump_true]
  rfl

/-- The labels inside the body of a loop are reserved and are none of its own, and so are those
of the gotos that leave the body. -/
structure Orderly (p : Pass) (labels : List String) (body : Block) : Prop where
  inside : ∀ label ∈ (body.jumps Stmt.labelNames).labels,
    label ∈ p.table.reserved ∧ label ∉ labels
  gotos : ∀ label ∈ (body.jumps Stmt.labelNames).gotos,
    label ∈ p.table.reserved ∧ label ∉ labels

namespace Orderly

variable {labels : List String} {body : Block} {target : String}

theorem apart (h : Orderly p labels body) (htarget : target ∉ p.table.reserved) :
    (body.jumps Stmt.labelNames).Apart labels target := by
  intro label hlabel
  rcases h.inside label hlabel with ⟨hreserved, hother⟩
  exact ⟨hother, fun heq => htarget (heq ▸ hreserved)⟩

theorem not_goto (h : Orderly p labels body) (htarget : target ∉ p.table.reserved)
    (I : Interpretation S) (table : SymbolTable) (σ σ' : S) :
    ¬ body.behavior I table σ (.jump .goto (some target)) σ' := fun hrun =>
  htarget (h.gotos target (body.gotosIn_behavior I table σ target σ' hrun)).1

end Orderly

theorem takesIn_jumpTo {labels : List String} {post : Stmt} {body : Block} {target : String}
    (hbody : Orderly p labels body) (htarget : target ∉ p.table.reserved)
    (hsimple : post.isSimple = true) {inner : Block} {jumps : Nat}
    (hreplaced : (body.replaceContinues labels (jumpTo target) 0).run 0 = (inner, jumps))
    {step : Stmt}
    (hstep : jumps = 0 ∧ step = post ∨ 0 < jumps ∧ ∃ stepId, step = .labeled stepId target post)
    (I : Interpretation S) (hq : p.Grows q) (blockId bodyId : NodeId) :
    TakesIn labels (body.behavior I q.table) (I.act (post.reading q.table))
      (Block.behavior I q.table ⟨bodyId, [.block blockId inner, step]⟩) := by
  have hyields : TallyLogic.ofCounter.yields p
      (body.replaceContinues labels (jumpTo target) 0) _ :=
    Block.reroutes_replaceContinues
      ⟨leavesTo_viaJump target, fun p id label _ => yields_jumpTo_viaJump I target id label p⟩
      body 0 (.refl p) (hbody.apart htarget)
  rcases hyields 0 q hq with ⟨_, ⟨_, hcounted⟩, huncounted⟩
  rw [hreplaced] at hcounted huncounted
  have hinner : inner.behavior I q.table = (body.behavior I q.table).reroute labels
      (fun _ => .ends (.jump .goto (some target)) Eq) 0 := by
    rw [hcounted, viaJump_true]
  rcases hstep with ⟨rfl, rfl⟩ | ⟨_, stepId, rfl⟩
  · -- nothing was counted, so the body has no continue that could go another way
    have hquiet : ∀ label σ σ', continues labels 0 label = true →
        ¬ body.behavior I q.table σ (.jump .continue label) σ' := by
      intro label σ σ' hown hrun
      have hjump : inner.behavior I q.table σ (.jump .goto (some target)) σ' := by
        rw [hinner]
        exact .inr ⟨label, σ', hown, hrun, rfl, rfl⟩
      rw [(huncounted rfl).2] at hjump
      rcases hjump with ⟨_, hjump⟩ | ⟨_, _, _, _, _, hfalse, _⟩
      · exact hbody.not_goto htarget I _ _ _ hjump
      · cases hfalse
    have hsteps : Stmts.steps I q.table [.block blockId inner, step] =
        [⟨[], inner.behavior I q.table⟩, ⟨[], .ends .done (I.act (step.reading q.table))⟩] := by
      rw [Stmts.steps, Stmts.steps, Stmts.steps, Stmt.labelNames_of_isSimple hsimple,
        Stmt.behavior_of_isSimple hsimple]
      rfl
    rw [Block.behavior, hsteps, Behavior.list_of_unlabeled (by simp), Behavior.sequence,
      Behavior.sequence_singleton, hinner, Behavior.reroute_of_forall_not hquiet]
    have htakes := Behavior.takesIn_copies labels (body.behavior I q.table)
      (I.act (step.reading q.table))
    rw [Behavior.reroute_of_forall_not hquiet] at htakes
    exact htakes
  · have hsteps : Stmts.steps I q.table [.block blockId inner, .labeled stepId target post] =
        [⟨[], inner.behavior I q.table⟩,
          ⟨[target], .ends .done (I.act (post.reading q.table))⟩] := by
      have hlabels : (Stmt.labeled stepId target post).labelNames = [target] :=
        congrArg (List.cons target) (Stmt.labelNames_of_isSimple hsimple)
      rw [Stmts.steps, Stmts.steps, Stmts.steps, hlabels, Stmt.behavior, Stmt.behavior,
        Stmt.behavior_of_isSimple hsimple]
      rfl
    rw [Block.behavior, hsteps, hinner]
    exact Behavior.takesIn_jumps (hbody.not_goto htarget I _)

theorem takesIn_of_absorbPost {labels : List String} {post : Stmt} {body body' : Block}
    (hbody : Orderly p labels body) (hsimple : post.isSimple = true) (hdrawn : p.Drawn)
    (hids : ∀ id ∈ post.ids, id.Below p.ids.count)
    (hexec : (absorbPost labels post body).exec env p = (.ok body', q)) (I : Interpretation S) :
    p.Grows q ∧ ∀ r, q.Grows r → TakesIn labels (body.behavior I r.table)
      (I.act (post.reading r.table)) (body'.behavior I r.table) := by
  suffices hyields : Obtains env p (absorbPost labels post body) (fun body' q => ∀ r,
      q.Grows r → p.Grows r →
      TakesIn labels (body.behavior I r.table) (I.act (post.reading r.table))
        (body'.behavior I r.table)) by
    rcases hyields.of_ok hexec with ⟨hgrows, htakes⟩
    exact ⟨hgrows, fun r hr => htakes r hr (hgrows.trans hr)⟩
  rcases exists_isShadowed_of_ok hexec with ⟨shadowed, hshadowed⟩
  cases shadowed with
  | true =>
    apply (yields_absorbPost_of_isShadowed hshadowed).mono
    rintro body' q _ ⟨target, htarget, blockId, bodyId, inner, jumps, step, hreplaced, hstep, rfl⟩
    exact fun r _ hr => takesIn_jumpTo hbody htarget hsimple hreplaced hstep I hr blockId bodyId
  | false =>
    refine .look (PassM.exec_search hshadowed env) ?_
    rw [if_neg Bool.false_ne_true]
    have hreplaced : (TallyLogic.ofPass env).yields p
        (body.replaceContinues labels (runPost post) 0) _ :=
      Block.reroutes_replaceContinues
        ⟨leavesTo_viaCopy I post (p.table.freshName "next").1,
          fun q id label hq => yields_runPost_viaCopy I hdrawn hids hsimple id label hq⟩
        body 0 (.refl p) (hbody.apart (fresh_next p).1)
    apply Ends.bind hreplaced
    intro inner q _ hinner
    refine .pure fun r hr _ => ?_
    rcases inner with ⟨innerId, stmts⟩
    have hsteps : Stmts.steps I r.table (stmts ++ [post]) = Stmts.steps I r.table stmts ++
        [⟨[], .ends .done (I.act (post.reading r.table))⟩] := by
      rw [Stmts.steps_append, Stmts.steps, Stmts.steps, Stmt.labelNames_of_isSimple hsimple,
        Stmt.behavior_of_isSimple hsimple]
    have hquiet : GotosIn [] (Behavior.ends .done (I.act (post.reading r.table))) :=
      .ends fun name hname => by cases hname
    have hlist := (hinner r hr).2
    rw [Block.behavior] at hlist
    rw [Block.behavior, hsteps, Behavior.list_concat rfl hquiet, hlist]
    exact Behavior.takesIn_copies _ _ _

/-!
## The loop
-/

theorem takesIn_of_takeStep {labels : List String} {post : Option Stmt} {body body' : Block}
    (hbody : Orderly p labels body) (hsimple : ∀ step ∈ post, step.isSimple = true)
    (hdrawn : p.Drawn) (hids : ∀ id ∈ OptStmt.ids post, id.Below p.ids.count)
    (hexec : (takeStep labels post body).exec env p = (.ok body', q)) (I : Interpretation S) :
    p.Grows q ∧ ∀ r, q.Grows r → TakesIn labels (body.behavior I r.table)
      (I.optional r.table post) (body'.behavior I r.table) := by
  cases post with
  | some post => exact takesIn_of_absorbPost hbody (hsimple post rfl) hdrawn hids hexec I
  | none =>
    cases hexec
    refine ⟨.refl p, fun r _ => ⟨fun σ σ' => ?_, fun σ o σ' _ => Iff.rfl⟩⟩
    constructor
    · rintro ⟨o, hresumes, hrun⟩
      exact ⟨o, σ', hresumes, hrun, rfl⟩
    · rintro ⟨o, mid, hresumes, hrun, rfl⟩
      exact ⟨o, hresumes, hrun⟩

theorem condition_of_conditioned {cond : Option Expr} {cond' : Expr} (h : Conditioned cond cond')
    (I : Interpretation S) (table : SymbolTable) :
    I.test (cond'.reading table) = I.condition table cond := by
  cases cond with
  | some cond =>
    cases h
    rfl
  | none =>
    rcases h with ⟨id, rfl⟩
    funext σ b σ'
    exact propext (I.test_true _ σ b σ')

theorem behavior_of_initialized {init : Option Stmt} {loop s : Stmt} {labels : List Label}
    (h : Initialized init (loop.label labels) s)
    (hsimple : ∀ start ∈ init, start.isSimple = true) (hloop : loop.labelNames = [])
    {names : List String} (I : Interpretation S) (table : SymbolTable)
    (hgotos : GotosIn names ((loop.label labels).behavior I table []))
    (hnames : ∀ name ∈ names, name ∉ labels.map Label.name) :
    s.behavior I table [] =
      .after (I.optional table init) ((loop.label labels).behavior I table []) := by
  cases init with
  | none =>
    cases h
    exact (Behavior.after_eq _).symm
  | some init =>
    rcases h with ⟨blockId, bodyId, rfl⟩
    have hinit := hsimple init rfl
    have hsteps : Stmts.steps I table [init, loop.label labels] =
        [⟨[], .ends .done (I.act (init.reading table))⟩,
          ⟨labels.map Label.name, (loop.label labels).behavior I table []⟩] := by
      rw [Stmts.steps, Stmts.steps, Stmts.steps, Stmt.labelNames_of_isSimple hinit,
        Stmt.behavior_of_isSimple hinit, Stmt.labelNames_label, hloop, List.append_nil]
    rw [Stmt.behavior, Block.behavior, hsteps]
    refine Behavior.list_after fun σ name σ' hrun => ?_
    exact hnames name (hgotos σ name σ' hrun)

/-- The statement that takes the place of a loop runs like the loop: from the same states it ends
in the same ways and leaves the same states. -/
theorem canonicalize_keeps_runs {s : Stmt} {id : NodeId} {init : Option Stmt} {cond : Option Expr}
    {post : Option Stmt} {body : Block} (hs : s.unlabeled = .forLoop id init cond post body)
    (hclauses : (init.isSome || post.isSome) = true)
    (hinit : ∀ start ∈ init, start.isSimple = true) (hpost : ∀ step ∈ post, step.isSimple = true)
    (hbody : Orderly p s.labelNames body) (hdrawn : p.Drawn)
    (hids : ∀ id ∈ s.ids, id.Below p.ids.count) {found : Option (List Stmt)}
    (hexec : (canonicalize s).exec env p = (.ok found, q)) :
    ∃ s', found = some [s'] ∧ ∀ (S : Type) (I : Interpretation S) (σ : S) (o : Ending) (σ' : S),
      s'.behavior I q.table [] σ o σ' ↔ s.behavior I p.table [] σ o σ' := by
  rcases exec_canonicalize hs hclauses hexec with
    ⟨body', cond', s', r, htaken, hrest, hfound, hcond, hs'⟩
  refine ⟨s', hfound, fun S I σ o σ' => ?_⟩
  have hloopIds : (Stmt.forLoop id init cond post body).ids ⊆ s.ids := hs ▸ s.ids_unlabeled_subset
  have hpostIds : ∀ id ∈ OptStmt.ids post, id.Below p.ids.count := fun id hid =>
    hids id (hloopIds (by simp [Stmt.ids, hid]))
  rcases takesIn_of_takeStep hbody hpost hdrawn hpostIds htaken I with ⟨hgrows, htakes⟩
  have hrounds :
      ((Stmt.forLoop id none (some cond') none body').label s.labels).behavior I q.table [] =
      .Rounds s.labelNames (I.condition q.table cond) (body.behavior I q.table)
        (I.optional q.table post) := by
    rw [Stmt.behavior_label, Stmt.behavior]
    exact (Behavior.after_eq _).trans (((htakes q hrest).rounds _).trans
      (congrArg (fun test => Behavior.Rounds _ test _ _) (condition_of_conditioned hcond I _)))
  have hgotos : GotosIn (body.jumps Stmt.labelNames).gotos (Behavior.Rounds s.labelNames
      (I.condition q.table cond) (body.behavior I q.table) (I.optional q.table post)) :=
    .rounds (body.gotosIn_behavior I q.table)
  rw [← hrounds] at hgotos
  have hnew := behavior_of_initialized hs' hinit rfl I q.table hgotos
    fun name hname => (hbody.gotos name hname).2
  have hold : s.behavior I q.table [] = .after (I.optional q.table init)
      (.Rounds s.labelNames (I.condition q.table cond) (body.behavior I q.table)
        (I.optional q.table post)) := by
    have hlabeled : s = (Stmt.forLoop id init cond post body).label s.labels := by
      rw [← hs, Stmt.label_labels_unlabeled]
    rw [hlabeled, Stmt.behavior_label, Stmt.behavior, ← hlabeled]
    rfl
  rw [hnew, hrounds, ← hold, Stmt.behavior_congr I s [] fun id hid =>
    bindingOf_of_grows (hgrows.trans hrest) (hids id hid)]

end Loop

/-- A labelled loop with an initializer and a post step, and an inner loop that goes on with it:
`L: for i = n; ; i++ { for { continue L }; break }`. -/
def labelledLoop : Stmt :=
  .labeled ⟨4⟩ "L" (.forLoop ⟨5⟩
    (some (.assign ⟨6⟩ [.ident ⟨7⟩ "i"] .assign [.ident ⟨8⟩ "n"])) none
    (some (.incDec ⟨9⟩ (.ident ⟨10⟩ "i") true))
    ⟨⟨11⟩, [.forLoop ⟨12⟩ none none none ⟨⟨13⟩, [.branch ⟨14⟩ .continue (some "L")]⟩,
      .branch ⟨15⟩ .break none]⟩)

def labelledPass : Pass where
  file := mainFile [labelledLoop]
  table :=
    { SymbolTable.empty with
      scopes := #[⟨none, []⟩, ⟨some ⟨0⟩, []⟩]
      scopeOf := ((∅ : NodeMap ScopeId).insert ⟨5⟩ ⟨0⟩).insert ⟨11⟩ ⟨1⟩
      reserved := ["L"] }
  ids := ⟨16⟩
  diagnostics := []
  scopes := .empty
  changes := 0
  applications := 0

theorem labelledPass_drawn : labelledPass.Drawn := by
  intro id hid
  unfold NodeId.Below
  rcases hid with hid | hid | hid | hid | hid
  · exact absurd hid Std.ExtTreeMap.not_mem_empty
  · exact absurd hid Std.ExtTreeMap.not_mem_empty
  · exact absurd hid Std.ExtTreeMap.not_mem_empty
  · exact absurd hid Std.ExtTreeMap.not_mem_empty
  · rcases NodeMap.mem_insert.mp hid with rfl | hid
    · decide
    · rcases NodeMap.mem_insert.mp hid with rfl | hid
      · decide
      · exact absurd hid Std.ExtTreeMap.not_mem_empty

/-- The loop with a condition only that takes the place of the labelled one runs like it. -/
theorem labelledLoop_keeps_runs :
    ∃ (q : Pass) (s' : Stmt), (Loop.canonicalize labelledLoop).exec
        ⟨"for-loop", .ofFile (mainFile []), "tmp"⟩ labelledPass = (.ok (some [s']), q) ∧
      ∀ (S : Type) (I : Interpretation S) (σ : S) (o : Ending) (σ' : S),
        s'.behavior I q.table [] σ o σ' ↔
          labelledLoop.behavior I labelledPass.table [] σ o σ' := by
  have hresult : ((Loop.canonicalize labelledLoop).exec
      ⟨"for-loop", .ofFile (mainFile []), "tmp"⟩ labelledPass).1.isOk = true := by
    decide +kernel
  cases hexec : (Loop.canonicalize labelledLoop).exec ⟨"for-loop", .ofFile (mainFile []), "tmp"⟩
      labelledPass with
  | mk result q =>
    rw [hexec] at hresult
    cases result with
    | error fault => cases hresult
    | ok found =>
      have hids : ∀ id ∈ labelledLoop.ids, id.Below labelledPass.ids.count := by
        unfold NodeId.Below
        decide +kernel
      have hinit : ∀ start ∈ some (Stmt.assign ⟨6⟩ [.ident ⟨7⟩ "i"] .assign [.ident ⟨8⟩ "n"]),
          start.isSimple = true := by
        rintro start ⟨⟩
        rfl
      have hpost : ∀ step ∈ some (Stmt.incDec ⟨9⟩ (.ident ⟨10⟩ "i") true),
          step.isSimple = true := by
        rintro step ⟨⟩
        rfl
      rcases Loop.canonicalize_keeps_runs rfl rfl hinit hpost ⟨by decide, by decide⟩
        labelledPass_drawn hids hexec with ⟨s', rfl, hruns⟩
      exact ⟨q, s', rfl, hruns⟩

end Desugar
