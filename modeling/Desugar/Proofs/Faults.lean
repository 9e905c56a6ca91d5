import Desugar.Proofs.TwoPhases

/-!
# Faults of split assignments

An assignment that is split directly fails exactly where the assignment fails.  When
all targets are found and all sources have values, it also fails at the same write,
and leaves the same memory.  When a source has no value, the assignment has written
nothing, while the single assignments before that source have already been made.
-/

namespace Desugar

section

variable {δ : Type} [DecidableEq δ] {table : SymbolTable} {I : Meaning δ} {σ τ : Memory δ}

theorem Stmt.attempt_label (s : Stmt) (labels : List Label) :
    (s.label labels).attempt table I σ = s.attempt table I σ := by
  induction labels with
  | nil => rfl
  | cons label rest ih => rw [Stmt.label, Stmt.attempt, ih]

theorem Stmts.attempt_labelFirst (labels : List Label) (stmts : List Stmt) :
    Stmts.attempt table I (Stmts.labelFirst labels stmts) σ = Stmts.attempt table I stmts σ := by
  cases stmts with
  | nil => rfl
  | cons s rest => rw [Stmts.labelFirst, Stmts.attempt, Stmts.attempt, Stmt.attempt_label]

theorem Stmt.attempt_assign {node : NodeId} {lhs rhs : List Expr}
    {found : List (Spot δ × Value δ)} (hlength : lhs.length = rhs.length)
    (hfound : Found table I σ (lhs.zip rhs) found) :
    (Stmt.assign node lhs .assign rhs).attempt table I σ = assignEach I found σ := by
  rcases (found_zip_iff hlength).mp hfound with ⟨hspots, hvalues⟩
  rw [Stmt.attempt, mapM_eq_some_iff_forall₂.mpr hspots, mapM_eq_some_iff_forall₂.mpr hvalues]
  simp only [List.length_map, if_true]
  rw [← List.zip_of_prod rfl rfl]

theorem Stmt.found_of_attempt {node : NodeId} {target source : Expr}
    (h : (Stmt.assign node [target] .assign [source]).attempt table I σ = .ok τ) :
    ∃ spot v, target.spot table I σ = some spot ∧ source.value table I σ = some v ∧
      spot.assign I v σ = some τ := by
  rw [Stmt.attempt_eq_ok_iff] at h
  have hlength : [target].length = [source].length := rfl
  rcases (Stmt.run_assign hlength).mp h with ⟨found, hfound, hassign⟩
  cases hfound with
  | cons hpair hrest =>
    cases hrest
    rcases Option.bind_eq_some_iff.mp hassign with ⟨σ', hstep, hrest⟩
    cases hrest
    exact ⟨_, _, hpair.1, hpair.2, hstep⟩

theorem Stmts.found_of_attempt {table' : SymbolTable} {pairs : List (Expr × Expr)}
    {stmts : List Stmt}
    (hstmts : List.Forall₂ (fun pair s => ∃ id, s = .assign id [pair.1] .assign [pair.2])
      pairs stmts)
    (hsimple : Simple pairs)
    (hids : ∀ pair ∈ pairs, ∀ id ∈ pair.1.ids ++ pair.2.ids,
      table'.bindingOf id = table.bindingOf id)
    (hsafe : hazardous table pairs = false) (h : Stmts.attempt table' I stmts σ = .ok τ) :
    ∃ found, Found table I σ pairs found := by
  induction hstmts generalizing σ with
  | nil => exact ⟨[], .nil⟩
  | @cons pair s pairs stmts hs _ ih =>
    rcases hs with ⟨id, rfl⟩
    rw [Stmts.attempt] at h
    cases hhead : (Stmt.assign id [pair.1] .assign [pair.2]).attempt table' I σ with
    | error σ' =>
      rw [hhead] at h
      cases h
    | ok σ' =>
      rw [hhead] at h
      rcases Stmt.found_of_attempt hhead with ⟨spot, v, hspot, hv, hstep⟩
      have hfirst : Found table' I σ [pair] [(spot, v)] := .cons ⟨hspot, hv⟩ .nil
      have hown : Found table I σ [pair] [(spot, v)] :=
        hfirst.carries (fun other hother => hsimple other (by simp_all))
          (fun other hother id hid => (hids other (by simp_all) id hid).symm)
          fun _ _ location _ => (Memory.Within.refl σ).carries location
      rcases List.forall_mem_cons.mp hsimple with ⟨⟨htarget, _⟩, hsimple⟩
      simp only [hazardous, Bool.or_eq_false_iff] at hsafe
      rcases ih hsimple (List.forall_mem_cons.mp hids).2 hsafe.2 h with ⟨rest, hrest⟩
      -- The write carries what the remaining pairs read, also backwards.
      have hcarries := carries_later htarget (List.forall₂_cons.mp hown).1.1 hstep hsafe.1.1
      refine ⟨(spot, v) :: rest, .cons (List.forall₂_cons.mp hown).1 ?_⟩
      exact Found.carries hrest hsimple (fun _ _ _ _ => rfl) fun other hother location hlocation =>
        (hcarries other hother location hlocation).2

end

namespace Parallel

variable {δ : Type} [DecidableEq δ] {I : Meaning δ} {σ : Memory δ} {env : PassEnv}

/-- A direct split fails exactly when the assignment fails.  Where the targets are
found and the sources have values, it leaves the same memory behind, whether it goes
through or fails at one of the writes. -/
theorem direct_split_keeps_faults {owner : NodeId} {s : Stmt} {stmts : List Stmt} {p q : Pass}
    {node : NodeId} {lhs rhs : List Expr} (hs : s.unlabeled = .assign node lhs .assign rhs)
    (hids : ∀ id ∈ Exprs.ids lhs ++ Exprs.ids rhs, id.Below p.ids.count)
    (hlhs : ∀ target ∈ lhs, target.isTarget = true)
    (hrhs : ∀ source ∈ rhs, source.isOperand = true)
    (hdirect : hazardous p.table (lhs.zip rhs) = false)
    (hsplit : (splitStmt owner s).exec env p = (.ok (some stmts), q)) :
    ((∃ τ, Stmts.attempt q.table I stmts σ = .ok τ) ↔ ∃ τ, s.attempt p.table I σ = .ok τ) ∧
    ∀ found, Found p.table I σ (lhs.zip rhs) found →
      Stmts.attempt q.table I stmts σ = s.attempt p.table I σ := by
  rcases exec_splitAssign hs hsplit with ⟨hlength, hexec⟩
  have hsame := bindingOf_zip (grows_splitAssign hlength hexec) hids
  have hsimple : Simple (lhs.zip rhs) := by
    intro pair hpair
    rcases List.of_mem_zip hpair with ⟨htarget, hsource⟩
    exact ⟨hlhs _ htarget, hrhs _ hsource⟩
  have hsingles : ∃ singles, stmts = Stmts.labelFirst s.labels singles ∧
      List.Forall₂ (fun pair s => ∃ id, s = .assign id [pair.1] .assign [pair.2])
        (lhs.zip rhs) singles := by
    unfold splitAssign at hexec
    rw [PassM.exec_bind_ok (PassM.exec_getTable env p), hdirect, bind_pure_comp] at hexec
    have heach : PassM.Gives env (Stmts.labelFirst s.labels <$>
        (lhs.zip rhs).mapM fun pair => PassM.newAssign [pair.1] [pair.2]) (fun stmts =>
          ∃ singles, stmts = Stmts.labelFirst s.labels singles ∧
            List.Forall₂ (fun pair s => ∃ id, s = .assign id [pair.1] .assign [pair.2])
              (lhs.zip rhs) singles) :=
      (PassM.Gives.mapM_each (lhs.zip rhs) fun pair _ => PassM.Gives.newStmt _).map _
        fun singles hsingles => ⟨singles, rfl, hsingles⟩
    exact heach p q stmts hexec
  rcases hsingles with ⟨singles, rfl, hsingles⟩
  rw [Stmts.attempt_labelFirst, ← s.label_labels_unlabeled, Stmt.attempt_label, hs]
  have hequal : ∀ found, Found p.table I σ (lhs.zip rhs) found →
      Stmts.attempt q.table I singles σ =
        (Stmt.assign node lhs .assign rhs).attempt p.table I σ := by
    intro found hfound
    rw [Stmts.attempt_singles hsingles hsimple hsame hdirect hfound,
      Stmt.attempt_assign hlength hfound]
  refine ⟨⟨?_, ?_⟩, hequal⟩
  · rintro ⟨τ, hτ⟩
    rcases Stmts.found_of_attempt hsingles hsimple hsame hdirect hτ with ⟨found, hfound⟩
    exact ⟨τ, (hequal found hfound).symm.trans hτ⟩
  · rintro ⟨τ, hτ⟩
    rcases (Stmt.run_assign hlength).mp ((Stmt.attempt_eq_ok_iff _ _ _).mp hτ) with
      ⟨found, hfound, _⟩
    exact ⟨τ, (hequal found hfound).trans hτ⟩

def pointedAssign : Stmt :=
  .assign ⟨0⟩ [.ident ⟨3⟩ "y", .star ⟨1⟩ (.ident ⟨2⟩ "p")] .assign
    [.ident ⟨5⟩ "x", .lit ⟨6⟩ (.int "7")]

def nilMemory : Memory Nat :=
  aliasedMemory.write (.var ⟨2⟩) (.data 0)

/-- The assignment and its split have both written the first target when they fail. -/
theorem pointedAssign_keeps_fault :
    ∃ stmts q σ,
      (splitStmt ⟨6⟩ pointedAssign).exec crossingEnv aliasedPass = (.ok (some stmts), q) ∧
      Stmts.attempt q.table naturals stmts nilMemory = .error σ ∧
      σ.cells (.var ⟨1⟩) = some (.data 1) := by
  have hids : ∀ id ∈ pointedAssign.ids, id.Below aliasedPass.ids.count := by
    unfold NodeId.Below
    decide
  have hgiven : ((splitStmt ⟨6⟩ pointedAssign).exec crossingEnv
      aliasedPass).1.toOption.join.isSome = true := by
    decide
  rcases PassM.exec_eq_some hgiven with ⟨stmts, q, hsplit⟩
  have hfound : Found aliasedPass.table naturals nilMemory
      ([.ident ⟨3⟩ "y", .star ⟨1⟩ (.ident ⟨2⟩ "p")].zip [.ident ⟨5⟩ "x", .lit ⟨6⟩ (.int "7")])
      [(.var ⟨1⟩, .data 1), (.pointee (.data 0), .data 0)] :=
    .cons ⟨rfl, rfl⟩ (.cons ⟨rfl, rfl⟩ .nil)
  have hkept : Stmts.attempt q.table naturals stmts nilMemory =
      pointedAssign.attempt aliasedPass.table naturals nilMemory :=
    (direct_split_keeps_faults rfl (fun id hid => hids id (.tail _ hid)) (by decide) (by decide)
      (by decide) hsplit).2 _ hfound
  exact ⟨stmts, q, _, hsplit, hkept, rfl⟩

def dividingAssign : Stmt :=
  .assign ⟨0⟩ [.ident ⟨5⟩ "x", .ident ⟨3⟩ "y"] .assign
    [.lit ⟨1⟩ (.int "7"), .binary ⟨6⟩ .quo (.ident ⟨4⟩ "y") (.lit ⟨2⟩ (.int "0"))]

def undivided : Meaning Nat :=
  { naturals with binary := fun _ _ _ => none }

/-- When the second source has no value, the assignment has written nothing, and its
split has written the first target. -/
theorem dividingAssign_writes_before_fault :
    ∃ stmts q σ τ,
      (splitStmt ⟨6⟩ dividingAssign).exec crossingEnv aliasedPass = (.ok (some stmts), q) ∧
      dividingAssign.attempt aliasedPass.table undivided aliasedMemory = .error σ ∧
      Stmts.attempt q.table undivided stmts aliasedMemory = .error τ ∧
      σ.cells (.var ⟨0⟩) = some (.data 1) ∧ τ.cells (.var ⟨0⟩) = some (.data 0) := by
  refine ⟨_, _, _, _, rfl, rfl, rfl, ?_, ?_⟩
  · decide
  · decide

end Parallel
end Desugar
