import Desugar.Proofs.LawfulRules

/-!
# Counted changes

Once an application has counted a change, it never comes back to a count of zero, and
every action that gives back other syntax than it was given is followed by a count.  So
an application that counts nothing leaves the file as it was.

The converse fails: a declaration of the package with one value for several names is
counted when it is kept whole.
-/

namespace Desugar

def Law.counting : Law where
  holds p := p.changes ≠ 0
  valid _ _ := True
  act hp hact := by
    refine ⟨?_, fun _ => id, fun _ _ => trivial⟩
    cases hact with
    | count => exact Nat.succ_ne_zero _
    | _ => exact hp
  current _ _ := trivial
  table _ := trivial
  recorded _ _ := trivial
  bound _ _ _ := trivial
  part _ _ _ := trivial

instance (K : Token → Prop) (id : NodeId) : Knows Law.counting K id := ⟨fun _ _ _ _ => trivial⟩

/-- An action that leaves no count of zero behind a change, also when it fails. -/
abbrev PassM.Retains {α : Type} [Bears α] (env : PassEnv) (m : PassM α) : Prop :=
  Sound Law.counting env (fun _ => False) m

namespace PassM

variable {α β : Type} {env : PassEnv}

theorem Retains.uncounted [Bears α] {m : PassM α} (h : Retains env m) (p : Pass)
    (hzero : (m.exec env p).2.changes = 0) : p.changes = 0 :=
  not_not.mp fun hp => (h.keeps p hp fun _ hk => hk.elim).1 hzero

theorem Retains.of_ok [Bears α] {m : PassM α} [hm : Retains env m] {p q : Pass} {a : α}
    (hexec : m.exec env p = (.ok a, q)) (hzero : q.changes = 0) : p.changes = 0 := by
  apply hm.uncounted p
  rw [hexec]
  exact hzero

def Counted (env : PassEnv) (m : PassM α) : Prop :=
  ∀ p q a, m.exec env p = (.ok a, q) → q.changes ≠ 0

theorem Counted.count [Bears β] {f : PUnit → PassM β} [hf : ∀ u, Retains env (f u)] :
    Counted env (countChange >>= f) := by
  intro p q b h hzero
  rw [exec_bind_ok (exec_countChange env p)] at h
  exact absurd (Retains.of_ok h hzero) (Nat.succ_ne_zero _)

theorem Counted.after {m : PassM α} {f : α → PassM β} (hf : ∀ a, Counted env (f a)) :
    Counted env (m >>= f) := by
  intro p r b h
  rcases exec_bind_eq_ok h with ⟨a, q, _, hsecond⟩
  exact hf a q r b hsecond

/-- An action that gives a certain result unless a change has been counted. -/
def Faithful (env : PassEnv) (m : PassM α) (a : α) : Prop :=
  ∀ p q b, m.exec env p = (.ok b, q) → q.changes = 0 → p.changes = 0 ∧ b = a

namespace Faithful

variable {m : PassM α} {f : α → PassM β} {a : α} {b : β}

theorem pure (a : α) : Faithful env (Pure.pure a) a := by
  intro p q b h hzero
  cases h
  exact ⟨hzero, rfl⟩

theorem of_counted (h : Counted env m) : Faithful env m a :=
  fun p q b hexec hzero => absurd hzero (h p q b hexec)

theorem bind {g : α → β} (hm : Faithful env m a) (hf : ∀ a, Faithful env (f a) (g a)) :
    Faithful env (m >>= f) (g a) := by
  intro p r b h hzero
  rcases exec_bind_eq_ok h with ⟨a', q, hfirst, hsecond⟩
  rcases hf a' q r b hsecond hzero with ⟨hq, rfl⟩
  rcases hm p q a' hfirst hq with ⟨hp, rfl⟩
  exact ⟨hp, rfl⟩

theorem after [Bears α] [Retains env m] (hf : ∀ a, Faithful env (f a) b) :
    Faithful env (m >>= f) b := by
  intro p r b' h hzero
  rcases exec_bind_eq_ok h with ⟨a, q, hfirst, hsecond⟩
  rcases hf a q r b' hsecond hzero with ⟨hq, rfl⟩
  exact ⟨Retains.of_ok hfirst hq, rfl⟩

theorem mapM {g : α → β} (h : ∀ a, Faithful env (f a) (g a)) (xs : List α) :
    Faithful env (xs.mapM f) (xs.map g) := by
  induction xs with
  | nil => exact .pure _
  | cons x rest ih =>
    rw [List.mapM_cons]
    exact (h x).bind fun y => ih.bind fun ys => .pure (y :: ys)

theorem orElseKeep [Bears α] {n : PassM α} [hretains : Retains env m] (hm : Counted env m)
    (snippet : String) (hn : Faithful env n a) :
    Faithful env (PassM.orElseKeep m snippet n) a := by
  intro p r b h hzero
  have hfirst := hretains.uncounted p
  rw [exec_orElseKeep] at h
  cases hexec : m.exec env p with
  | mk result q =>
    rw [hexec] at h hfirst
    cases result with
    | ok a' =>
      cases h
      exact absurd hzero (hm p _ _ hexec)
    | error fault =>
      cases fault with
      | exhausted | endless => cases h
      | problem problem =>
        dsimp only at h
        split at h
        · rcases hn _ r b h hzero with ⟨hq, hb⟩
          exact ⟨hfirst hq, hb⟩
        · cases h

theorem splice {replace : Stmt → PassM (Option (List Stmt))}
    (h : ∀ s p q, (replace s).exec env p = (.ok none, q) → q.changes = 0 → p.changes = 0)
    (stmts : List Stmt) : Faithful env (Transformer.splice replace stmts) stmts := by
  induction stmts with
  | nil => exact .pure []
  | cons s rest ih =>
    intro p r b hexec hzero
    rcases exec_bind_eq_ok hexec with ⟨found, q, hfirst, hsecond⟩
    cases found with
    | none =>
      rcases (ih.bind fun ys => .pure (s :: ys)) q r b hsecond hzero with ⟨hq, hb⟩
      exact ⟨h s p q hfirst hq, hb⟩
    | some stmts =>
      rw [exec_bind_ok (exec_countChange env q)] at hsecond
      rcases (ih.bind fun ys => .pure (stmts ++ ys)) _ r b hsecond hzero with ⟨hq, _⟩
      exact absurd hq (Nat.succ_ne_zero _)

end Faithful
end PassM

open PassM (Retains Counted Faithful)

theorem PassM.exec_some_ne_none {α β : Type} {env : PassEnv} {m : PassM α} {g : α → β}
    {p q : Pass} :
    (m >>= fun a => Pure.pure (some (g a))).exec env p ≠ (.ok none, q) := by
  intro h
  rcases exec_bind_eq_ok h with ⟨a, r, _, hsecond⟩
  cases hsecond

/-!
## Walks
-/

def PassM.Logic.counting (env : PassEnv) : PassM.Logic where
  reach p q := q.changes = 0 → p.changes = 0
  ensures p m post := ∀ a q, m.exec env p = (.ok a, q) →
    (q.changes = 0 → p.changes = 0) ∧ post a q
  refl _ h := h
  trans hpq hqr h := hpq (hqr h)
  pure := by
    intro _ p a post h b q hexec
    cases hexec
    exact ⟨id, h⟩
  bind := by
    intro _ _ p m f mid post hm hf b r hexec
    rcases exec_bind_eq_ok hexec with ⟨a, q, hfirst, hsecond⟩
    rcases hm a q hfirst with ⟨hpq, hmid⟩
    rcases hf a q hpq hmid b r hsecond with ⟨hqr, hpost⟩
    exact ⟨fun hzero => hpq (hqr hzero), hpost⟩
  within := by
    intro _ p node m post hmono hm b r hexec
    unfold PassM.within at hexec
    rw [exec_bind_ok (exec_enter node env p)] at hexec
    rcases exec_bind_eq_ok hexec with ⟨a, q, hfirst, hsecond⟩
    rcases hm { p with scopes := p.scopes.enter p.table node } id a q hfirst with ⟨hpq, hpost⟩
    cases hsecond
    exact ⟨hpq, hmono _ q _ id hpost⟩

/-- A transformer whose actions give back what they are given unless they count. -/
structure Transformer.Faithful (t : Transformer) (env : PassEnv) : Prop where
  expr : ∀ e, PassM.Faithful env (t.expr e) e
  stmt : ∀ s, PassM.Faithful env (t.stmt s) s
  decl : ∀ d, PassM.Faithful env (t.decl d) d
  list : ∀ owner stmts, PassM.Faithful env (t.list owner stmts) stmts
  missingTag : PassM.Faithful env t.missingTag none

section

variable {t : Transformer} {env : PassEnv}

theorem Parts.eq_of_uncounted {reach : Pass → Pass → Prop} {fs : List Form} {old new : Parts fs}
    {p q : Pass} (hreach : ∀ {p q}, reach p q → q.changes = 0 → p.changes = 0)
    (h : Parts.Chain reach
      (fun _ x x' p q => q.changes = 0 → p.changes = 0 ∧ x' = x) fs old new p q)
    (hzero : q.changes = 0) : p.changes = 0 ∧ new = old := by
  induction fs generalizing p with
  | nil => exact ⟨hreach h hzero, rfl⟩
  | cons f fs ih =>
    rcases h with ⟨r, _, hx, hrest⟩
    rcases ih hrest with ⟨hr, hparts⟩
    rcases hx hr with ⟨hp, hfirst⟩
    exact ⟨hp, Prod.ext hfirst hparts⟩

theorem Transformer.Faithful.walks (h : t.Faithful env) :
    t.Walks (.counting env) (fun f x _ => f.Holds (fun _ => True) x)
      (fun _ x x' p q => q.changes = 0 → p.changes = 0 ∧ x' = x) where
  pre_mono _ hx := hx
  earlier := by
    intro f x x' p q r _ hpq hx hzero
    rcases hx hzero with ⟨hq, hsame⟩
    exact ⟨hpq hq, hsame⟩
  later hqr hx hzero := hx (hqr hzero)
  parts hx := hx.parts
  hook := by
    intro f x p q new hx _ hchain x' r hexec
    have hhook : PassM.Faithful env (f.hook t ((f.makeup x).make new)) ((f.makeup x).make new) := by
      cases f with
      | expr => exact h.expr _
      | stmt listed => exact h.stmt _
      | decl top => exact h.decl _
      | list owner => exact h.list owner _
      | missingTag listed id init clauses =>
        cases hx.1
        exact h.missingTag
      | _ => exact .pure _
    refine ⟨fun hzero => (hhook q r x' hexec hzero).1, fun hzero => ?_⟩
    rcases hhook q r x' hexec hzero with ⟨hq, rfl⟩
    rcases Parts.eq_of_uncounted id hchain hq with ⟨hp, rfl⟩
    exact ⟨hp, f.make_parts x⟩

theorem Transformer.Faithful.unchanged (h : t.Faithful env) {file file' : File} {p q : Pass}
    (hexec : (file.transform t).exec env p = (.ok file', q)) (hzero : q.changes = 0) :
    p.changes = 0 ∧ file' = file :=
  (h.walks.ensures .file file (fun _ _ => trivial) file' q hexec).2 hzero

theorem Transformer.Faithful.run (h : t.Faithful env) {p q : Pass}
    (hexec : t.run.exec env p = (.ok 0, q)) : q.file = p.file := by
  unfold Transformer.run at hexec
  rw [PassM.exec_bind_ok (PassM.exec_startWalk env p), PassM.exec_bind_ok (PassM.exec_getFile _ _)]
    at hexec
  rcases PassM.exec_bind_eq_ok hexec with ⟨file, r, hfirst, hsecond⟩
  have hend : (Except.ok r.changes, { r with file := file }) = (.ok 0, q) := hsecond
  rcases Prod.mk.inj hend with ⟨hcount, rfl⟩
  exact (h.unchanged hfirst (Except.ok.inj hcount)).2

end

/-!
## Rules
-/

section

variable {env : PassEnv}

theorem Dereference.faithful : transformer.Faithful env where
  expr e := by
    refine .after fun implicit => ?_
    split
    · exact .of_counted .count
    · exact .pure e
  stmt := .pure
  decl := .pure
  list _ := .pure
  missingTag := .pure none

theorem SwitchTag.faithful : transformer.Faithful env where
  missingTag := .of_counted (.after fun _ => .count)
  expr := .pure
  stmt := .pure
  decl := .pure
  list _ := .pure

theorem Initializer.faithful : transformer.Faithful env where
  stmt s := by
    show PassM.Faithful env (hoistElse s) s
    unfold hoistElse
    split
    · exact .of_counted (.after fun _ => .count)
    · exact .pure _
  list _ stmts := by
    refine .splice (fun s p q h hzero => ?_) stmts
    unfold hoist at h
    split at h
    · exact absurd h PassM.exec_some_ne_none
    · cases h
      exact hzero
  expr := .pure
  decl := .pure
  missingTag := .pure none

theorem Loop.faithful : transformer.Faithful env where
  list _ stmts := by
    refine .splice (fun s p q h hzero => ?_) stmts
    unfold canonicalize at h
    repeat' split at h
    · exact absurd h PassM.exec_some_ne_none
    all_goals
      cases h
      exact hzero
  expr := .pure
  stmt := .pure
  decl := .pure
  missingTag := .pure none

theorem Discard.faithful_expand (s : Stmt) : PassM.Faithful env (expand s) s := by
  unfold expand
  split
  · refine .after fun values => ?_
    split
    · exact .pure s
    · exact .of_counted (.after fun _ => .count)
  · exact .pure s

theorem Discard.faithful : transformer.Faithful env where
  list _ stmts := by
    have hlist : PassM.Faithful env (stmts.mapM expand) (stmts.map id) := .mapM faithful_expand _
    rwa [List.map_id] at hlist
  expr := .pure
  stmt := .pure
  decl := .pure
  missingTag := .pure none

theorem Parallel.faithful : transformer.Faithful env where
  list _ stmts := .splice (fun _ _ _ => Retains.of_ok) stmts
  expr := .pure
  stmt := .pure
  decl := .pure
  missingTag := .pure none

theorem Short.faithful : transformer.Faithful env where
  list _ stmts := .splice (fun _ _ _ => Retains.of_ok) stmts
  expr := .pure
  stmt := .pure
  decl := .pure
  missingTag := .pure none

namespace Annotations

theorem faithful_specs {change : ValueSpec → PassM ValueSpec}
    (h : ∀ spec, PassM.Faithful env (change spec) spec) (specs : List Spec) :
    PassM.Faithful env (specs.mapM fun
      | .value spec => Spec.value <$> change spec
      | .type spec => return .type spec) (specs.map id) := by
  refine .mapM (fun spec => ?_) _
  cases spec with
  | value spec =>
    show PassM.Faithful env (Spec.value <$> change spec) (Spec.value spec)
    rw [map_eq_pure_bind]
    exact (h spec).bind fun _ => .pure _
  | type spec => exact .pure _

theorem faithful_onVarSpecs {change : ValueSpec → PassM ValueSpec}
    (h : ∀ spec, PassM.Faithful env (change spec) spec) (d : Decl) :
    PassM.Faithful env (onVarSpecs change d) d := by
  unfold onVarSpecs
  split
  · have hspecs := faithful_specs h d.specs
    rw [List.map_id] at hspecs
    cases d
    exact hspecs.bind fun _ => .pure _
  · exact .pure d

theorem faithful : transformer.Faithful env where
  decl := by
    refine faithful_onVarSpecs fun spec => ?_
    unfold annotate
    split
    · exact .pure spec
    · exact .orElseKeep (.after fun _ => .count) _ (.pure spec)
  expr := .pure
  stmt := .pure
  list _ := .pure
  missingTag := .pure none

end Annotations

theorem Zero.faithful : transformer.Faithful env where
  decl := by
    refine Annotations.faithful_onVarSpecs fun spec => ?_
    unfold giveZeros
    split
    · exact .orElseKeep (.after fun _ => .count) _ (.pure spec)
    · exact .pure spec
  expr := .pure
  stmt := .pure
  list _ := .pure
  missingTag := .pure none

namespace Split

theorem faithful_splitPackageDecl (d : TopDecl) :
    PassM.Faithful env (splitPackageDecl d) [d] := by
  cases d with
  | decl d =>
    rw [splitPackageDecl]
    split
    · exact .of_counted .count
    · exact .pure _
  | func fn => exact .pure _

theorem faithful : transformer.Faithful env where
  list owner stmts := by
    refine .splice (fun s p q h hzero => ?_) stmts
    unfold splitStmt at h
    repeat' split at h
    · exact absurd h PassM.exec_some_ne_none
    all_goals
      cases h
      exact hzero
  expr := .pure
  stmt := .pure
  decl := .pure
  missingTag := .pure none

theorem file_of_uncounted {p q : Pass} (hexec : Split.run.exec env p = (.ok 0, q)) :
    q.file = p.file := by
  unfold Split.run at hexec
  rw [PassM.exec_bind_ok (PassM.exec_startWalk env p), PassM.exec_bind_ok (PassM.exec_getFile _ _)]
    at hexec
  rcases PassM.exec_bind_eq_ok hexec with ⟨decls, r, hdecls, hrest⟩
  rcases PassM.exec_bind_eq_ok hrest with ⟨file, u, hwalk, hlast⟩
  have hend : (Except.ok u.changes, { u with file := file }) = (.ok 0, q) := hlast
  rcases Prod.mk.inj hend with ⟨hcount, rfl⟩
  have hpackage : PassM.Faithful env (p.file.decls.mapM splitPackageDecl)
      (p.file.decls.map fun d => [d]) := .mapM faithful_splitPackageDecl _
  have hflat : (p.file.decls.map fun d => [d]).flatten = p.file.decls :=
    (List.flatMap_def ..).symm.trans (List.flatMap_singleton' _)
  rcases (faithful).unchanged hwalk (Except.ok.inj hcount) with ⟨hr, hfile⟩
  rcases hpackage _ r decls hdecls hr with ⟨_, rfl⟩
  rw [hflat] at hfile
  exact hfile

end Split

end

/-- An application of a rule that counts nothing leaves the file as it was. -/
theorem Rule.uncounted_leaves_file {rule : Rule} (hrule : rule ∈ catalog) {env : PassEnv}
    {p q : Pass} (h : rule.apply.exec env p = (.ok 0, q)) : q.file = p.file := by
  simp only [catalog, List.mem_cons, List.not_mem_nil, or_false] at hrule
  rcases hrule with rfl | rfl | rfl | rfl | rfl | rfl | rfl | rfl | rfl | rfl
  · exact (Dereference.faithful).run h
  · exact (SwitchTag.faithful).run h
  · exact (Initializer.faithful).run h
  · exact (Loop.faithful).run h
  · exact Split.file_of_uncounted h
  · exact (Annotations.faithful).run h
  · exact (Zero.faithful).run h
  · exact (Short.faithful).run h
  · exact (Parallel.faithful).run h
  · exact (Discard.faithful).run h

/-- A declaration of the package that takes its values from a call. -/
def calledPass (names : List Ident) : Pass where
  file := ⟨⟨0⟩, "main", "", [], [.decl ⟨⟨1⟩, .var,
    [.value ⟨⟨2⟩, names, none, [.call ⟨5⟩ (.ident ⟨6⟩ "f") [] false]⟩]⟩]⟩
  table := SymbolTable.empty
  ids := ⟨7⟩
  diagnostics := []
  scopes := .empty
  changes := 0
  applications := 0

theorem called_single_leaves_file :
    ∃ q, Rule.splitDecl.apply.exec ⟨"split-decl", default, "tmp"⟩ (calledPass [⟨⟨3⟩, "a"⟩]) =
      (.ok 0, q) ∧ q.file = (calledPass [⟨⟨3⟩, "a"⟩]).file := by
  have hrule : Rule.splitDecl ∈ Rule.catalog := by simp [Rule.catalog]
  exact ⟨_, rfl, Rule.uncounted_leaves_file hrule rfl⟩

/-- The declaration of two names is counted, and comes back as it was. -/
theorem called_pair_counted_and_kept :
    ∃ q, Rule.splitDecl.apply.exec ⟨"split-decl", default, "tmp"⟩
      (calledPass [⟨⟨3⟩, "a"⟩, ⟨⟨4⟩, "b"⟩]) = (.ok 1, q) ∧
      q.file = (calledPass [⟨⟨3⟩, "a"⟩, ⟨⟨4⟩, "b"⟩]).file :=
  ⟨_, rfl, rfl⟩

end Desugar
