import Desugar.Proofs.EffectOrder
import Desugar.Proofs.Memory
import Desugar.Proofs.RunRenewal
import Desugar.Proofs.Temporaries

/-!
# Assignments in two phases

Splitting an assignment to several targets keeps its meaning.  Where it is split
directly, no write changes what a later part reads.  Where it goes through
temporaries, a first part of the block makes cells for them and changes nothing
else; after it, each assignment has the effect of one write of the original.
-/

namespace Desugar

open PassM (Obtains Ends)

variable {δ : Type} [DecidableEq δ] {env : PassEnv} {p : Pass}
  {table : SymbolTable} {I : Meaning δ} {σ τ : Memory δ}

/-!
## Targets and sources
-/

theorem Expr.unparen_ids_subset (e : Expr) : e.unparen.ids ⊆ e.ids := by
  cases e with
  | paren id x =>
    intro node hnode
    exact List.mem_cons_of_mem id (unparen_ids_subset x hnode)
  | _ => exact List.Subset.refl _

omit [DecidableEq δ] in
theorem Expr.spot_unparen (target : Expr) :
    target.unparen.spot table I σ = target.spot table I σ := by
  cases target with
  | paren id x => exact Expr.spot_unparen x
  | _ => rfl

theorem Exprs.ids_subset {e : Expr} {es : List Expr} (h : e ∈ es) : e.ids ⊆ Exprs.ids es := by
  induction h with
  | head rest => exact List.subset_append_left _ _
  | tail other _ ih => exact List.subset_append_of_subset_right _ ih

theorem mapM_eq_some_iff_forall₂ {α β : Type} {f : α → Option β} {xs : List α} {ys : List β} :
    xs.mapM f = some ys ↔ List.Forall₂ (fun x y => f x = some y) xs ys := by
  induction xs generalizing ys with
  | nil => simp [eq_comm]
  | cons x rest ih =>
    rw [List.mapM_cons]
    constructor
    · intro h
      rcases Option.bind_eq_some_iff.mp h with ⟨y, hy, h⟩
      rcases Option.bind_eq_some_iff.mp h with ⟨ys', hys, h⟩
      cases h
      exact .cons hy (ih.mp hys)
    · intro h
      cases h with
      | cons hy hys =>
        rw [hy, ih.mpr hys]
        rfl

theorem forall₂_zip_iff {α β γ ε : Type} {R : α → γ → Prop} {S : β → ε → Prop} {xs : List α}
    {ys : List β} {pairs : List (γ × ε)} (hlength : xs.length = ys.length) :
    List.Forall₂ (fun pair found => R pair.1 found.1 ∧ S pair.2 found.2) (xs.zip ys) pairs ↔
      List.Forall₂ R xs (pairs.map Prod.fst) ∧ List.Forall₂ S ys (pairs.map Prod.snd) := by
  induction xs generalizing ys pairs with
  | nil =>
    cases ys with
    | nil => cases pairs <;> simp
    | cons y ys => cases hlength
  | cons x xs ih =>
    cases ys with
    | nil => cases hlength
    | cons y ys =>
      cases pairs with
      | nil => simp
      | cons pair rest =>
        simp only [List.zip_cons_cons, List.forall₂_cons, List.map_cons,
          ih (Nat.succ.inj hlength)]
        tauto

def Found (table : SymbolTable) (I : Meaning δ) (σ : Memory δ) :
    List (Expr × Expr) → List (Spot δ × Value δ) → Prop :=
  List.Forall₂ fun pair found =>
    pair.1.spot table I σ = some found.1 ∧ pair.2.value table I σ = some found.2

omit [DecidableEq δ] in
theorem found_zip_iff {lhs rhs : List Expr} {found : List (Spot δ × Value δ)}
    (hlength : lhs.length = rhs.length) :
    Found table I σ (lhs.zip rhs) found ↔
      List.Forall₂ (fun e spot => e.spot table I σ = some spot) lhs (found.map Prod.fst) ∧
        List.Forall₂ (fun e v => e.value table I σ = some v) rhs (found.map Prod.snd) :=
  forall₂_zip_iff (R := fun (e : Expr) spot => e.spot table I σ = some spot)
    (S := fun (e : Expr) v => e.value table I σ = some v) hlength

theorem Stmt.run_assign {node : NodeId} {lhs rhs : List Expr} (hlength : lhs.length = rhs.length) :
    (Stmt.assign node lhs .assign rhs).run table I σ = some τ ↔
      ∃ found, Found table I σ (lhs.zip rhs) found ∧ assignAll I found σ = some τ := by
  rw [Stmt.run]
  constructor
  · intro h
    rcases Option.bind_eq_some_iff.mp h with ⟨spots, hspots, h⟩
    rcases Option.bind_eq_some_iff.mp h with ⟨values, hvalues, h⟩
    split at h
    · rename_i hsame
      refine ⟨spots.zip values, (found_zip_iff hlength).mpr ⟨?_, ?_⟩, h⟩
      · rw [List.map_fst_zip (Nat.le_of_eq hsame)]
        exact mapM_eq_some_iff_forall₂.mp hspots
      · rw [List.map_snd_zip (Nat.le_of_eq hsame.symm)]
        exact mapM_eq_some_iff_forall₂.mp hvalues
    · cases h
  · rintro ⟨found, hfound, h⟩
    rcases (found_zip_iff hlength).mp hfound with ⟨hspots, hvalues⟩
    rw [mapM_eq_some_iff_forall₂.mpr hspots, mapM_eq_some_iff_forall₂.mpr hvalues]
    simp only [Option.bind_some, List.length_map, if_true]
    rw [← List.zip_of_prod rfl rfl]
    exact h

theorem Stmt.attempt_assign_single {node : NodeId} {target source : Expr} {spot : Spot δ}
    {v : Value δ} (hspot : target.spot table I σ = some spot)
    (hv : source.value table I σ = some v) :
    (Stmt.assign node [target] .assign [source]).attempt table I σ =
      σ.orFault (spot.assign I v σ) := by
  rw [Stmt.attempt]
  simp only [List.mapM_cons, List.mapM_nil, hspot, hv, Option.bind_eq_bind, Option.bind_some,
    Option.pure_def, List.length_cons, List.zip_cons_cons, List.zip_nil_left, assignEach]
  cases spot.assign I v σ <;> rfl

/-!
## Direct splits
-/

theorem Expr.carries_of_assign {e : Expr} {spot : Spot δ} {v : Value δ} {later : Effects}
    (he : e.isTarget = true) (hspot : e.spot table I σ = some spot)
    (hassign : spot.assign I v σ = some τ)
    (hsafe : (e.written table).any (fun location => location.disturbs later) = false) :
    ∀ location ∈ later.reads, location.Carries σ τ ∧ location.Carries τ σ := by
  cases e with
  | paren id x => exact carries_of_assign (e := x) he hspot hassign hsafe
  | ident id name =>
    rw [Expr.spot] at hspot
    by_cases hname : name = blank
    · rw [if_pos hname] at hspot
      cases hspot
      cases hassign
      have hsame := (Memory.Within.refl σ).carries
      exact fun location _ => ⟨hsame location, hsame location⟩
    · rw [if_neg hname] at hspot
      rcases Option.map_eq_some_iff.mp hspot with ⟨b, hb, rfl⟩
      simp only [Expr.written, Expr.unparen, hname, if_false, SymbolTable.variableAt, hb,
        Option.any_some, Location.disturbs, Bool.or_eq_false_iff, List.any_eq_false] at hsafe
      simp only [Spot.assign, Spot.cell?, Option.bind_some] at hassign
      split at hassign
      · cases hassign
        intro location hlocation
        have hother := hsafe.2 location hlocation
        simp only [Bool.or_eq_true, decide_eq_true_eq, not_or] at hother
        cases location with
        | binding b' =>
          have hcell : Cell.var b' ≠ .var b := by
            intro heq
            cases heq
            exact hother.1 rfl
          constructor
          · intro w hw
            rwa [Memory.write_cells_of_ne _ _ hcell]
          · intro w hw
            rwa [Memory.write_cells_of_ne _ _ hcell] at hw
        | name text => exact ⟨trivial, trivial⟩
        | memory => exact absurd rfl hother.2
      · cases hassign
  | star id x | index id x i =>
    simp only [Expr.written, Expr.unparen, Option.any_some, Location.disturbs,
      Bool.or_eq_false_iff, Bool.not_eq_false', List.isEmpty_iff] at hsafe
    rw [hsafe.2]
    exact fun _ hlocation => nomatch hlocation
  | _ => cases he

theorem reads_subset_later (table : SymbolTable) {pair : Expr × Expr} {rest : List (Expr × Expr)}
    (hpair : pair ∈ rest) :
    let later := rest.foldr
      (fun pair effects => pair.2.effects table ++ pair.1.targetEffects table ++ effects) .none
    (pair.1.targetEffects table).reads ⊆ later.reads ∧
      (pair.2.effects table).reads ⊆ later.reads := by
  induction hpair with
  | head rest =>
    simp only [List.foldr_cons, Effects.reads_append, List.append_assoc]
    constructor
    · exact List.subset_append_of_subset_right _ (List.subset_append_left _ _)
    · exact List.subset_append_left _ _
  | tail other _ ih =>
    simp only [List.foldr_cons, Effects.reads_append]
    constructor
    · exact List.subset_append_of_subset_right _ ih.1
    · exact List.subset_append_of_subset_right _ ih.2

theorem carries_later {target : Expr} {spot : Spot δ} {v : Value δ} {rest : List (Expr × Expr)}
    (htarget : target.isTarget = true) (hspot : target.spot table I σ = some spot)
    (hassign : spot.assign I v σ = some τ)
    (hsafe : (target.written table).any (fun location => location.disturbs (rest.foldr
      (fun pair effects => pair.2.effects table ++ pair.1.targetEffects table ++ effects)
      .none)) = false) :
    ∀ pair ∈ rest,
      ∀ location ∈ (pair.1.targetEffects table).reads ++ (pair.2.effects table).reads,
        location.Carries σ τ ∧ location.Carries τ σ := by
  intro pair hpair location hlocation
  apply Expr.carries_of_assign htarget hspot hassign hsafe
  rcases List.mem_append.mp hlocation with hlocation | hlocation
  · exact (reads_subset_later table hpair).1 hlocation
  · exact (reads_subset_later table hpair).2 hlocation

def Simple (pairs : List (Expr × Expr)) : Prop :=
  ∀ pair ∈ pairs, pair.1.isTarget = true ∧ pair.2.isOperand = true

omit [DecidableEq δ] in
theorem Found.carries {table' : SymbolTable} {σ' : Memory δ} {pairs : List (Expr × Expr)}
    {found : List (Spot δ × Value δ)} (hfound : Found table I σ pairs found)
    (hsimple : Simple pairs)
    (hids : ∀ pair ∈ pairs, ∀ id ∈ pair.1.ids ++ pair.2.ids,
      table'.bindingOf id = table.bindingOf id)
    (hcarries : ∀ pair ∈ pairs,
      ∀ location ∈ (pair.1.targetEffects table).reads ++ (pair.2.effects table).reads,
        location.Carries σ σ') : Found table' I σ' pairs found := by
  induction hfound with
  | nil => exact .nil
  | cons hpair _ ih =>
    rcases List.forall_mem_cons.mp hsimple with ⟨⟨htarget, hsource⟩, hsimple⟩
    rcases List.forall_mem_cons.mp hids with ⟨hpairIds, hids⟩
    rcases List.forall_mem_cons.mp hcarries with ⟨hpairCarries, hcarries⟩
    rcases List.forall_mem_append.mp hpairIds with ⟨htargetIds, hsourceIds⟩
    rcases List.forall_mem_append.mp hpairCarries with ⟨htargetCarries, hsourceCarries⟩
    refine .cons ⟨?_, ?_⟩ (ih hsimple hids hcarries)
    · exact Expr.spot_carries htarget htargetIds htargetCarries hpair.1
    · exact Expr.value_carries hsource hsourceIds hsourceCarries hpair.2

theorem Stmts.attempt_singles {table' : SymbolTable} {pairs : List (Expr × Expr)}
    {stmts : List Stmt} {found : List (Spot δ × Value δ)}
    (hstmts : List.Forall₂ (fun pair s => ∃ id, s = .assign id [pair.1] .assign [pair.2])
      pairs stmts)
    (hsimple : Simple pairs)
    (hids : ∀ pair ∈ pairs, ∀ id ∈ pair.1.ids ++ pair.2.ids,
      table'.bindingOf id = table.bindingOf id)
    (hsafe : hazardous table pairs = false) (hfound : Found table I σ pairs found) :
    Stmts.attempt table' I stmts σ = assignEach I found σ := by
  induction hstmts generalizing σ found with
  | nil =>
    cases hfound
    rfl
  | @cons pair s pairs stmts hs _ ih =>
    have hfound' : Found table' I σ (pair :: pairs) found :=
      hfound.carries hsimple hids fun _ _ location _ => (Memory.Within.refl σ).carries location
    cases hfound with
    | @cons _ head _ rest hpair hrest =>
      rcases hs with ⟨id, rfl⟩
      rcases (List.forall₂_cons.mp hfound').1 with ⟨hspot, hv⟩
      rcases List.forall_mem_cons.mp hsimple with ⟨⟨htarget, _⟩, hsimple⟩
      simp only [hazardous, Bool.or_eq_false_iff] at hsafe
      rw [Stmts.attempt, Stmt.attempt_assign_single hspot hv, assignEach]
      cases hstep : head.1.assign I head.2 σ with
      | none => rfl
      | some σ' =>
        -- The write carries what the remaining pairs read.
        have hcarries := carries_later htarget hpair.1 hstep hsafe.1.1
        apply ih hsimple (List.forall_mem_cons.mp hids).2 hsafe.2
        exact Found.carries hrest hsimple
          (fun _ _ _ _ => rfl) fun other hother location hlocation =>
          (hcarries other hother location hlocation).1

/-!
## Memory with temporaries

The temporaries of a split are the variables from a first number up to a last one.
-/

def Cell.Between (first last : Nat) (cell : Cell) : Prop :=
  ∃ b : BindingId, cell = .var b ∧ first ≤ b.index ∧ b.index < last

theorem Cell.Between.not_after {first mid last : Nat} {cell : Cell}
    (h : cell.Between first mid) : ¬ cell.Between mid last := by
  rintro ⟨b, rfl, hmid, _⟩
  rcases h with ⟨b', heq, _, hbefore⟩
  cases heq
  exact Nat.lt_irrefl _ (Nat.lt_of_lt_of_le hbefore hmid)

theorem Cell.Between.widen {first first' last last' : Nat} {cell : Cell}
    (h : cell.Between first' last') (hfirst : first ≤ first') (hlast : last' ≤ last) :
    cell.Between first last := by
  rcases h with ⟨b, rfl, hafter, hbefore⟩
  exact ⟨b, rfl, Nat.le_trans hfirst hafter, Nat.lt_of_lt_of_le hbefore hlast⟩

namespace Memory

section

omit [DecidableEq δ]

variable {first mid last : Nat} {ρ ρ' ρ'' : Memory δ}

def Spare (first : Nat) (σ : Memory δ) : Prop :=
  ∀ b : BindingId, first ≤ b.index → σ.cells (.var b) = none

/-- Nothing has changed but cells of variables between two numbers. -/
structure Gains (first last : Nat) (ρ ρ' : Memory δ) : Prop where
  cells : ∀ cell : Cell, ¬ cell.Between first last → ρ'.cells cell = ρ.cells cell
  entries : ρ'.entries = ρ.entries

def Keeps (first last : Nat) (ρ ρ' : Memory δ) : Prop :=
  ∀ cell : Cell, cell.Between first last → ρ'.cells cell = ρ.cells cell

theorem Gains.trans (h : ρ.Gains first mid ρ') (h' : ρ'.Gains mid last ρ'') (hfirst : first ≤ mid)
    (hlast : mid ≤ last) : ρ.Gains first last ρ'' where
  cells cell hcell := by
    rw [h'.cells cell fun hlater => hcell (hlater.widen hfirst (Nat.le_refl _)),
      h.cells cell fun hearlier => hcell (hearlier.widen (Nat.le_refl _) hlast)]
  entries := h'.entries.trans h.entries

theorem Gains.keeps (h : ρ.Gains mid last ρ') : ρ.Keeps first mid ρ' :=
  fun cell hcell => h.cells cell hcell.not_after

theorem Keeps.trans (h : ρ.Keeps first last ρ') (h' : ρ'.Keeps first last ρ'') :
    ρ.Keeps first last ρ'' :=
  fun cell hcell => (h' cell hcell).trans (h cell hcell)

theorem Keeps.narrow {first' last' : Nat} (h : ρ.Keeps first last ρ') (hfirst : first ≤ first')
    (hlast : last' ≤ last) : ρ.Keeps first' last' ρ' :=
  fun cell hcell => h cell (hcell.widen hfirst hlast)

theorem Spare.mono (h : σ.Spare first) (hle : first ≤ last) : σ.Spare last :=
  fun b hb => h b (Nat.le_trans hle hb)

theorem Within.of_gains (h : σ.Within ρ) (hspare : σ.Spare first) (hgains : ρ.Gains first last ρ') :
    σ.Within ρ' where
  cells cell v hv := by
    have hother : ¬ cell.Between first last := by
      rintro ⟨b, rfl, hb, _⟩
      rw [hspare b hb] at hv
      cases hv
    rw [hgains.cells cell hother]
    exact h.cells cell v hv
  entries := hgains.entries.trans h.entries

end

end Memory

/-- Run from any memory that holds a given one, statements make cells for the
temporaries between two numbers, and something holds as long as these are kept. -/
def Prepares (table : SymbolTable) (I : Meaning δ) (first last : Nat) (σ : Memory δ)
    (stmts : List Stmt) (ready : Memory δ → Prop) : Prop :=
  ∀ ρ, σ.Within ρ → ∃ ρ', Stmts.run table I stmts ρ = some ρ' ∧ ρ.Gains first last ρ' ∧
    ∀ ρ'', ρ'.Keeps first last ρ'' → ready ρ''

namespace Prepares

variable {first mid last : Nat} {stmts stmts' : List Stmt} {ready ready' : Memory δ → Prop}

theorem nil (h : ∀ ρ, ready ρ) : Prepares table I first first σ [] ready :=
  fun ρ _ => ⟨ρ, rfl, ⟨fun _ _ => rfl, rfl⟩, fun ρ'' _ => h ρ''⟩

theorem mono (h : Prepares table I first last σ stmts ready) (himp : ∀ ρ, ready ρ → ready' ρ) :
    Prepares table I first last σ stmts ready' := by
  intro ρ hρ
  rcases h ρ hρ with ⟨ρ', hrun, hgains, hready⟩
  exact ⟨ρ', hrun, hgains, fun ρ'' hkeeps => himp ρ'' (hready ρ'' hkeeps)⟩

theorem append (h : Prepares table I first mid σ stmts ready)
    (h' : Prepares table I mid last σ stmts' ready') (hspare : σ.Spare first)
    (hfirst : first ≤ mid) (hlast : mid ≤ last) :
    Prepares table I first last σ (stmts ++ stmts') (fun ρ => ready ρ ∧ ready' ρ) := by
  intro ρ hρ
  rcases h ρ hρ with ⟨ρ₁, hrun, hgains, hready⟩
  rcases h' ρ₁ (hρ.of_gains hspare hgains) with ⟨ρ₂, hrun', hgains', hready'⟩
  refine ⟨ρ₂, ?_, hgains.trans hgains' hfirst hlast, fun ρ'' hkeeps => ⟨?_, ?_⟩⟩
  · rw [Stmts.run_append, hrun]
    exact hrun'
  · exact hready ρ'' (hgains'.keeps.trans (hkeeps.narrow (Nat.le_refl _) hlast))
  · exact hready' ρ'' (hkeeps.narrow hfirst (Nat.le_refl _))

end Prepares

/-!
## Writing to a spot
-/

namespace Spot

theorem assign_of_cell {spot : Spot δ} {cell : Cell} (h : spot.cell? I = some cell) (v : Value δ)
    (σ : Memory δ) :
    spot.assign I v σ = if (σ.cells cell).isSome then some (σ.write cell v) else none := by
  cases spot with
  | discard => cases h
  | var b =>
    cases h
    rfl
  | pointee pointer =>
    show (Option.bind _ _) = _
    rw [h]
    rfl
  | element container key =>
    cases container with
    | slice cells =>
      show (Option.bind _ _) = _
      rw [h]
      rfl
    | _ => cases h

theorem assign_cases {spot : Spot δ} {v : Value δ} (h : spot.assign I v σ = some τ) :
    (spot = .discard ∧ τ = σ) ∨
      (∃ map key, spot = .element (.map map) key ∧ I.accepts map key = true ∧
        τ = σ.writeEntry map key v) ∨
      ∃ cell, spot.cell? I = some cell ∧ (σ.cells cell).isSome = true ∧ τ = σ.write cell v := by
  have hother : (spot.cell? I).bind (fun cell =>
      if (σ.cells cell).isSome then some (σ.write cell v) else none) = some τ →
      ∃ cell, spot.cell? I = some cell ∧ (σ.cells cell).isSome = true ∧ τ = σ.write cell v := by
    intro h
    rcases Option.bind_eq_some_iff.mp h with ⟨cell, hcell, h⟩
    split at h
    · cases h
      exact ⟨cell, hcell, ‹_›, rfl⟩
    · cases h
  cases spot with
  | discard =>
    cases h
    exact .inl ⟨rfl, rfl⟩
  | var b | pointee pointer => exact .inr (.inr (hother h))
  | element container key =>
    cases container with
    | map map =>
      rw [assign] at h
      split at h
      · cases h
        exact .inr (.inl ⟨map, key, rfl, ‹_›, rfl⟩)
      · cases h
    | data datum | pointer cell | slice cells => exact .inr (.inr (hother h))

end Spot

structure Memory.Follows (first : Nat) (τ ρ : Memory δ) : Prop where
  cells : ∀ cell : Cell, (∀ b, cell = .var b → b.index < first) → ρ.cells cell = τ.cells cell
  entries : ρ.entries = τ.entries
  spare : τ.Spare first

namespace Memory.Follows

variable {first : Nat} {ρ : Memory δ}

omit [DecidableEq δ] in
theorem not_temporary (h : τ.Follows first ρ) {cell : Cell} (hcell : (τ.cells cell).isSome = true) :
    ∀ b, cell = .var b → b.index < first := by
  rintro b rfl
  by_contra hle
  rw [h.spare b (Nat.le_of_not_lt hle)] at hcell
  cases hcell

omit [DecidableEq δ] in
theorem refl (h : σ.Spare first) : σ.Follows first σ :=
  ⟨fun _ _ => rfl, rfl, h⟩

omit [DecidableEq δ] in
theorem of_gains {mid last : Nat} {ρ' : Memory δ} (h : τ.Follows first ρ)
    (hgains : ρ.Gains mid last ρ') (hle : first ≤ mid) : τ.Follows first ρ' where
  cells cell hcell := by
    rw [← h.cells cell hcell]
    apply hgains.cells
    rintro ⟨b, rfl, hb, _⟩
    exact Nat.lt_irrefl _ (Nat.lt_of_lt_of_le (hcell b rfl) (Nat.le_trans hle hb))
  entries := hgains.entries.trans h.entries
  spare := h.spare

theorem assign {spot : Spot δ} {v : Value δ} {τ' : Memory δ} (h : τ.Follows first ρ)
    (hassign : spot.assign I v τ = some τ') :
    ∃ ρ', spot.assign I v ρ = some ρ' ∧ τ'.Follows first ρ' ∧ ∀ last, ρ.Keeps first last ρ' := by
  rcases Spot.assign_cases hassign with
    ⟨rfl, rfl⟩ | ⟨map, key, rfl, haccepts, rfl⟩ | ⟨cell, hcell, hsome, rfl⟩
  · exact ⟨ρ, rfl, h, fun _ _ _ => rfl⟩
  · refine ⟨ρ.writeEntry map key v, ?_, ⟨h.cells, ?_, h.spare⟩, fun _ _ _ => rfl⟩
    · rw [Spot.assign, if_pos haccepts]
    · rw [Memory.writeEntry, Memory.writeEntry, h.entries]
  · have hold := h.not_temporary hsome
    refine ⟨ρ.write cell v, ?_, ⟨?_, h.entries, ?_⟩, ?_⟩
    · rw [Spot.assign_of_cell hcell, h.cells cell hold, if_pos hsome]
    · intro other hother
      by_cases heq : other = cell
      · rw [heq, Memory.write_cells_self, Memory.write_cells_self]
      · rw [Memory.write_cells_of_ne _ _ heq, Memory.write_cells_of_ne _ _ heq]
        exact h.cells other hother
    · intro b hb
      rw [Memory.write_cells_of_ne]
      · exact h.spare b hb
      · rintro rfl
        exact Nat.lt_irrefl _ (Nat.lt_of_lt_of_le (hold b rfl) hb)
    · rintro last other ⟨b, rfl, hb, _⟩
      apply Memory.write_cells_of_ne
      rintro rfl
      exact Nat.lt_irrefl _ (Nat.lt_of_lt_of_le (hold b rfl) hb)

end Memory.Follows

def Writes (table : SymbolTable) (I : Meaning δ) (ρ : Memory δ) (stmts : List Stmt)
    (pair : Spot δ × Value δ) : Prop :=
  Stmts.attempt table I stmts ρ = ρ.orFault (pair.1.assign I pair.2 ρ)

theorem Stmts.run_writes {first last : Nat} {ρ₀ ρ : Memory δ} {steps : List (List Stmt)}
    {found : List (Spot δ × Value δ)} (hlength : steps.length = found.length)
    (hready : ∀ ρ, ρ₀.Keeps first last ρ →
      List.Forall₂ (Writes table I ρ) steps found)
    (hfollows : σ.Follows first ρ) (hkeeps : ρ₀.Keeps first last ρ)
    (hassign : assignAll I found σ = some τ) :
    ∃ ρ', Stmts.run table I steps.flatten ρ = some ρ' ∧ τ.Follows first ρ' := by
  induction steps generalizing found σ ρ with
  | nil =>
    cases found with
    | nil =>
      cases hassign
      exact ⟨ρ, rfl, hfollows⟩
    | cons pair found => cases hlength
  | cons stmts steps ih =>
    cases found with
    | nil => cases hlength
    | cons pair found =>
      rcases Option.bind_eq_some_iff.mp hassign with ⟨σ', hstep, hassign⟩
      rcases hfollows.assign hstep with ⟨ρ', hrun, hfollows', hkeeps'⟩
      have hhead := (List.forall₂_cons.mp (hready ρ hkeeps)).1
      have hrest := fun ρ hρ => (List.forall₂_cons.mp (hready ρ hρ)).2
      rcases ih (Nat.succ.inj hlength) hrest hfollows' (hkeeps.trans (hkeeps' last)) hassign with
        ⟨ρ'', hrun', hfollows''⟩
      refine ⟨ρ'', ?_, hfollows''⟩
      rw [Writes, hrun] at hhead
      rw [List.flatten_cons, Stmts.run_append, (Stmts.attempt_eq_ok_iff table I stmts).mp hhead]
      exact hrun'

/-!
## Making temporaries
-/

/-- Statements made between two states prepare the temporaries made between them.
This is said of any table that the later state may grow to. -/
def Readies (table : SymbolTable) (I : Meaning δ) (σ : Memory δ) (p q : Pass) (stmts : List Stmt)
    (ready : Memory δ → Prop) : Prop :=
  q.table.Extends q.ids.count table →
    Prepares table I p.table.bindings.size q.table.bindings.size σ stmts ready

namespace Readies

variable {q r : Pass} {stmts stmts' : List Stmt} {ready ready' : Memory δ → Prop}

theorem nil (p : Pass) (h : ∀ ρ, ready ρ) : Readies table I σ p p [] ready :=
  fun _ => .nil h

theorem mono (h : Readies table I σ p q stmts ready) (himp : ∀ ρ, ready ρ → ready' ρ) :
    Readies table I σ p q stmts ready' :=
  fun htable => (h htable).mono himp

theorem before (h : Readies table I σ q r stmts ready) (hsame : p.table.SameNames q.table) :
    Readies table I σ p r stmts ready := by
  intro htable
  rw [← hsame.bindings]
  exact h htable

theorem after (h : Readies table I σ p q stmts ready) (hqr : q.Grows r)
    (hsame : q.table.SameNames r.table) : Readies table I σ p r stmts ready := by
  intro htable
  rw [hsame.bindings]
  exact h (hqr.extends_before htable)

theorem append (h : Readies table I σ p q stmts ready) (h' : Readies table I σ q r stmts' ready')
    (hpq : p.Grows q) (hqr : q.Grows r) (hspare : σ.Spare p.table.bindings.size) :
    Readies table I σ p r (stmts ++ stmts') (fun ρ => ready ρ ∧ ready' ρ) :=
  fun htable => (h (hqr.extends_before htable)).append (h' htable) hspare hpq.size_le hqr.size_le

end Readies

namespace Parallel

theorem yields_hold_readies (scope : ScopeId) (ty : TypeId)
    (spelled : TypeExpr) {value : Expr} {v : Value δ} (hoperand : value.isOperand = true)
    (hv : value.value table I σ = some v) :
    Obtains env p (hold scope ty spelled value) (fun held q =>
      Readies table I σ p q [held.1] fun ρ => held.2.value table I ρ = some v) := by
  apply (PassM.yields_holds trivial scope ty spelled value).mono
  rintro held q _ ⟨binder, use, hholds⟩ htable ρ hρ
  rcases hholds.declares with ⟨stmtId, declId, specId, hdeclared⟩
  have hbinder := hholds.defines.bindingOf htable
  have huse := hholds.refers.bindingOf htable
  have hvalue : value.value table I ρ = some v :=
    Expr.value_carries hoperand (fun _ _ => rfl) (fun location _ => hρ.carries location) hv
  have hnew : Cell.Between p.table.bindings.size q.table.bindings.size
      (.var ⟨p.table.bindings.size⟩) := by
    refine ⟨_, rfl, Nat.le_refl _, ?_⟩
    rw [hholds.makes.size]
    exact Nat.lt_succ_self _
  refine ⟨ρ.write (.var ⟨p.table.bindings.size⟩) v, ?_, ⟨?_, rfl⟩, ?_⟩
  · rw [hdeclared]
    simp [Stmts.run, Stmt.run, Spec.run, hvalue, declareAll, hbinder]
  · intro cell hcell
    apply Memory.write_cells_of_ne
    rintro rfl
    exact hcell hnew
  · intro ρ'' hkeeps
    rw [hholds.reads, Expr.value, huse, Option.bind_some, hkeeps _ hnew, Memory.write_cells_self]

theorem yields_holdOperand_readies (scope : ScopeId)
    {operand : Expr} {v : Value δ} (hoperand : operand.isOperand = true)
    (hv : operand.value table I σ = some v) :
    Obtains env p (holdOperand scope operand) (fun held q =>
      Readies table I σ p q [held.1] fun ρ => held.2.value table I ρ = some v) := by
  refine .look (PassM.exec_typeOf operand env p) ?_
  apply Ends.require_bind trivial
  intro ty _
  refine .step (PassM.exec_onTable _ env p) (PassM.grows_defaultType ty) ?_
  apply (PassM.yields_spell _ _ (fun _ _ => trivial)).bind
  rintro spelled r _ rfl
  apply (yields_hold_readies scope _ spelled hoperand hv).mono
  intro held r _ hheld
  exact hheld.before (p.table.sameNames_defaultType ty)

def StandsFor (table : SymbolTable) (I : Meaning δ) (place : Expr) (spot : Spot δ)
    (ρ : Memory δ) : Prop :=
  ∃ spot', place.spot table I ρ = some spot' ∧ spot'.assign I = spot.assign I

theorem yields_pinAddress_readies (scope : ScopeId)
    {place : Expr} {spot : Spot δ} {cell : Cell} (hoperand : place.isOperand = true)
    (hspot : place.spot table I σ = some spot) (hcell : spot.cell? I = some cell) :
    Obtains env p (pinAddress scope place) (fun pinned q =>
      Readies table I σ p q pinned.1 (StandsFor table I pinned.2 spot)) := by
  refine .look (PassM.exec_typeOf place env p) ?_
  apply Ends.require_bind trivial
  intro ty _
  refine .step (PassM.exec_onTable _ env p) (PassM.grows_intern _) ?_
  apply (PassM.yields_newExpr_sameNames _ _ trivial).bind
  rintro address r hr ⟨⟨id, rfl, _⟩, hsame⟩
  apply (PassM.yields_spell _ _ (fun _ _ => trivial)).bind
  rintro spelled u _ rfl
  have haddress : (Expr.unary id .addr place).value table I σ = some (.pointer cell) := by
    rw [Expr.value, hspot, Option.bind_some, hcell]
    rfl
  have hpointer : (Expr.unary id .addr place).isOperand = true := hoperand
  apply (yields_hold_readies scope _ spelled hpointer haddress).bind
  intro held v _ hheld
  apply (PassM.yields_newExpr_sameNames _ _ trivial).bind
  rintro target w hw ⟨⟨starId, rfl, _⟩, hsame'⟩
  apply Ends.pure
  have hnames : p.table.SameNames u.table := (p.table.sameNames_intern _).trans hsame
  refine ((hheld.before hnames).after hw hsame').mono fun ρ hρ => ?_
  refine ⟨.pointee (.pointer cell), ?_, ?_⟩
  · rw [Expr.spot, hρ]
    rfl
  · funext v σ'
    rw [Spot.assign_of_cell hcell, Spot.assign_of_cell rfl]

def MapsRecorded (known table : SymbolTable) (I : Meaning δ) (σ : Memory δ) (target : Expr) :
    Prop :=
  match target.unparen with
  | .index _ x _ => ∀ map, x.value table I σ = some (.map map) → (mapKey known x).isSome = true
  | _ => True

def Addressed (known : SymbolTable) (I : Meaning δ) (target : Expr) (spot : Spot δ) : Prop :=
  match target.unparen with
  | .index _ x _ => mapKey known x = none → ∃ cell, spot.cell? I = some cell
  | _ => True

theorem yields_pin_readies (scope : ScopeId) (target : Expr)
    {spot : Spot δ} (hspare : σ.Spare p.table.bindings.size) (htarget : target.isTarget = true)
    (haddressed : Addressed p.table I target spot)
    (hspot : target.spot table I σ = some spot) :
    Obtains env p (pin scope target) (fun pinned q =>
      Readies table I σ p q pinned.1 (StandsFor table I pinned.2 spot)) := by
  cases target with
  | ident id name => exact .pure (.nil p fun ρ => ⟨spot, hspot, rfl⟩)
  | paren id x => exact yields_pin_readies scope x hspare htarget haddressed hspot
  | index id x i =>
    simp only [Expr.isTarget, Bool.and_eq_true] at htarget
    have hparts := hspot
    rw [Expr.spot] at hparts
    rcases Option.bind_eq_some_iff.mp hparts with ⟨container, hcontainer, hrest⟩
    rcases Option.map_eq_some_iff.mp hrest with ⟨key, hkey, rfl⟩
    rw [pin]
    refine .look (PassM.exec_getTable env p) ?_
    cases hmap : mapKey p.table x with
    | none =>
      rcases haddressed hmap with ⟨cell, hcell⟩
      apply yields_pinAddress_readies scope _ hspot hcell
      simp [Expr.isOperand, htarget]
    | some keyType =>
      refine .look (PassM.exec_getTable env p) ?_
      apply (yields_holdOperand_readies scope htarget.1 hcontainer).bind
      intro map q hq hheld
      apply (PassM.yields_spell _ _ (fun _ _ => trivial)).bind
      rintro spelled q' _ rfl
      apply (yields_hold_readies scope keyType spelled htarget.2 hkey).bind
      intro held r hr hheld'
      apply (PassM.yields_newExpr_sameNames _ _ trivial).bind
      rintro place u hu ⟨⟨indexId, rfl, _⟩, hsame⟩
      apply Ends.pure
      refine ((hheld.append hheld' hq hr hspare).after hu hsame).mono fun ρ hρ => ?_
      refine ⟨_, ?_, rfl⟩
      rw [Expr.spot, hρ.1, Option.bind_some, hρ.2]
      rfl
  | star id x =>
    rw [Expr.spot] at hspot
    rcases Option.map_eq_some_iff.mp hspot with ⟨pointer, hpointer, rfl⟩
    rw [pin]
    refine .look (PassM.exec_getTable env p) ?_
    apply (yields_holdOperand_readies scope htarget hpointer).bind
    intro held q hq hheld
    apply (PassM.yields_newExpr_sameNames _ _ trivial).bind
    rintro place r hr ⟨⟨starId, rfl, _⟩, hsame⟩
    apply Ends.pure
    refine (hheld.after hr hsame).mono fun ρ hρ => ?_
    refine ⟨_, ?_, rfl⟩
    rw [Expr.spot, hρ]
    rfl
  | _ => cases htarget

theorem yields_evaluate_readies (scope : ScopeId) (node : NodeId)
    {target source : Expr} {v : Value δ} (hsource : source.isOperand = true)
    (hv : source.value table I σ = some v) :
    Obtains env p (evaluate scope node target source) (fun step q =>
      Readies table I σ p q step.1 fun ρ => ∀ spot, StandsFor table I target spot ρ →
        Writes table I ρ step.2 (spot, v)) := by
  have hwrite : ∀ {id : NodeId} {value : Expr} {ρ : Memory δ}, value.value table I ρ = some v →
      ∀ spot, StandsFor table I target spot ρ →
        Writes table I ρ [.assign id [target] .assign [value]] (spot, v) := by
    rintro id value ρ hvalue spot ⟨spot', hspot, hsame⟩
    rw [Writes, Stmts.attempt, Stmt.attempt_assign_single hspot hvalue, hsame]
    cases spot.assign I v ρ <;> rfl
  unfold evaluate
  split
  · rename_i hblank
    apply (PassM.yields_newStmt_sameNames _ trivial).bind
    rintro s q hq ⟨⟨id, rfl⟩, hsame⟩
    apply Ends.pure
    have hname : target.name? = some blank := beq_iff_eq.mp hblank
    cases target with
    | ident identId name =>
      cases hname
      have hdiscard : ∀ ρ, (Expr.ident identId blank).spot table I ρ = some .discard := by
        intro ρ
        rw [Expr.spot, if_pos rfl]
      refine Readies.after ?_ hq hsame
      intro _ ρ hρ
      refine ⟨ρ, ?_, ⟨fun _ _ => rfl, rfl⟩, ?_⟩
      · have hvalue : source.value table I ρ = some v :=
          Expr.value_carries hsource (fun _ _ => rfl) (fun location _ => hρ.carries location) hv
        exact (Stmts.attempt_eq_ok_iff table I _).mp
          (hwrite hvalue .discard ⟨.discard, hdiscard ρ, rfl⟩)
      · rintro ρ'' _ spot ⟨spot', hspot, hsame⟩
        rw [hdiscard] at hspot
        cases hspot
        rw [Writes, ← hsame]
        rfl
    | _ => cases hname
  · split
    · rename_i hliteral
      apply (PassM.yields_newStmt_sameNames _ trivial).bind
      rintro s q hq ⟨⟨id, rfl⟩, hsame⟩
      cases source with
      | lit litId literal =>
        have hvalue : ∀ ρ, (Expr.lit litId literal).value table I ρ = some v := fun _ => hv
        exact .pure ((Readies.nil p fun ρ => hwrite (hvalue ρ)).after hq hsame)
      | _ => cases hliteral
    · refine .look (PassM.exec_typeOf target env p) ?_
      apply Ends.require_bind trivial
      intro ty _
      apply (PassM.yields_spell _ _ (fun _ _ => trivial)).bind
      rintro spelled r _ rfl
      apply (yields_hold_readies scope ty spelled hsource hv).bind
      intro held q hq hheld
      apply (PassM.yields_newStmt_sameNames _ trivial).bind
      rintro s r' hr ⟨⟨id, rfl⟩, hsame⟩
      exact .pure ((hheld.after hr hsame).mono fun ρ hρ => hwrite hρ)

/-!
## Blocks with temporaries
-/

theorem mapKey_of_grows {q : Pass} (hq : p.Grows q) {x : Expr} (hid : x.id.Below p.ids.count)
    (h : (mapKey p.table x).isSome = true) : (mapKey q.table x).isSome = true := by
  unfold mapKey at h ⊢
  rw [hq.table.exprTypes _ hid]
  cases hty : p.table.exprTypes[x.id]? with
  | none =>
    rw [hty] at h
    cases h
  | some ty =>
    rw [hty] at h
    simp only [Option.map_some] at h ⊢
    cases hstructure : p.table.structureOf ty with
    | map key value =>
      rw [SymbolTable.structureOf_of_extends hq.table hstructure (by simp)]
      rfl
    | _ =>
      rw [hstructure] at h
      cases h

omit [DecidableEq δ] in
theorem Addressed.mono {q : Pass} {target : Expr} {spot : Spot δ} (hq : p.Grows q)
    (hids : ∀ id ∈ target.ids, id.Below p.ids.count) (h : Addressed p.table I target spot) :
    Addressed q.table I target spot := by
  unfold Addressed at h ⊢
  cases hform : target.unparen with
  | index id x i =>
    rw [hform] at h
    have hmem : x.id ∈ target.unparen.ids := by
      rw [hform]
      exact List.mem_cons_of_mem id (List.mem_append_left _ x.id_mem_ids)
    intro hnone
    apply h
    by_contra hsome
    have hkept := mapKey_of_grows hq (hids _ (target.unparen_ids_subset hmem))
      (Option.isSome_iff_ne_none.mpr hsome)
    rw [hnone] at hkept
    cases hkept
  | _ => trivial

theorem MapsRecorded.addressed {known : SymbolTable} {target : Expr} {spot : Spot δ}
    (h : MapsRecorded known table I σ target) (hspot : target.spot table I σ = some spot)
    (hwrites : ∃ v σ₁ σ₂, spot.assign I v σ₁ = some σ₂) : Addressed known I target spot := by
  unfold MapsRecorded at h
  unfold Addressed
  rw [← Expr.spot_unparen] at hspot
  cases hform : target.unparen with
  | index id x i =>
    rw [hform] at h hspot
    rw [Expr.spot] at hspot
    rcases Option.bind_eq_some_iff.mp hspot with ⟨container, hcontainer, hrest⟩
    rcases Option.map_eq_some_iff.mp hrest with ⟨key, hkey, rfl⟩
    intro hnone
    rcases hwrites with ⟨v, σ₁, σ₂, hassign⟩
    rcases Spot.assign_cases hassign with ⟨heq, _⟩ | ⟨map, _, heq, _⟩ | ⟨cell, hcell, _⟩
    · cases heq
    · cases heq
      have hrecorded := h map hcontainer
      rw [hnone] at hrecorded
      cases hrecorded
    · exact ⟨cell, hcell⟩
  | _ => trivial

structure Located (p : Pass) (table : SymbolTable) (I : Meaning δ) (σ : Memory δ) (target : Expr)
    (spot : Spot δ) : Prop where
  isTarget : target.isTarget = true
  ids : ∀ id ∈ target.ids, id.Below p.ids.count
  found : target.spot table I σ = some spot
  addressed : Addressed p.table I target spot

omit [DecidableEq δ] in
theorem Located.mono {q : Pass} {target : Expr} {spot : Spot δ} (hq : p.Grows q)
    (h : Located p table I σ target spot) : Located q table I σ target spot where
  isTarget := h.isTarget
  ids id hid := PassM.below_mono hq (h.ids id hid)
  found := h.found
  addressed := h.addressed.mono hq h.ids

theorem yields_pins_readies (scope : ScopeId)
    {targets : List Expr} {spots : List (Spot δ)} (hspare : σ.Spare p.table.bindings.size)
    (hlocated : List.Forall₂ (Located p table I σ) targets spots) :
    Obtains env p (targets.mapM (pin scope)) (fun pinned q =>
      Readies table I σ p q (pinned.flatMap Prod.fst) fun ρ =>
        List.Forall₂ (fun pin spot => StandsFor table I pin.2 spot ρ) pinned spots) := by
  induction targets generalizing p spots with
  | nil =>
    cases hlocated
    exact .pure (.nil p fun _ => .nil)
  | cons target targets ih =>
    cases hlocated with
    | cons hhead hrest =>
      rw [List.mapM_cons]
      apply (yields_pin_readies scope target hspare hhead.isTarget hhead.addressed
        hhead.found).bind
      intro pin q hq hpin
      apply (ih (hspare.mono hq.size_le) (hrest.imp fun _ _ h => h.mono hq)).bind
      intro pins r hr hpins
      apply Ends.pure
      rw [List.flatMap_cons]
      exact (hpin.append hpins hq hr hspare).mono fun ρ hρ => .cons hρ.1 hρ.2

theorem yields_steps_ready (scope : ScopeId) (node : NodeId)
    {pairs : List (Expr × Expr)} {values : List (Value δ)}
    (hspare : σ.Spare p.table.bindings.size)
    (hvalues : List.Forall₂ (fun pair v => pair.2.isOperand = true ∧
      pair.2.value table I σ = some v) pairs values) :
    Obtains env p (pairs.mapM fun (target, source) => evaluate scope node target source)
      (fun steps q => Readies table I σ p q (steps.flatMap Prod.fst) fun ρ => ∀ spots,
        List.Forall₂ (fun pair spot => StandsFor table I pair.1 spot ρ) pairs spots →
          List.Forall₂ (Writes table I ρ) (steps.map Prod.snd) (spots.zip values)) := by
  induction pairs generalizing p values with
  | nil =>
    cases hvalues
    refine .pure (.nil p fun _ spots hspots => ?_)
    cases hspots
    exact .nil
  | cons pair pairs ih =>
    cases hvalues with
    | cons hhead hrest =>
      rw [List.mapM_cons]
      apply (yields_evaluate_readies scope node hhead.1 hhead.2).bind
      intro step q hq hstep
      apply (ih (hspare.mono hq.size_le) hrest).bind
      intro steps r hr hsteps
      apply Ends.pure
      rw [List.flatMap_cons]
      refine (hstep.append hsteps hq hr hspare).mono fun ρ hρ spots hspots => ?_
      cases hspots with
      | cons hspot hspots => exact .cons (hρ.1 _ hspot) (hρ.2 _ hspots)

theorem forall₂_zip_left {α β γ : Type} {R : α → γ → Prop} {xs : List α} {ys : List β}
    {zs : List γ} (h : List.Forall₂ R xs zs) (hlength : xs.length = ys.length) :
    List.Forall₂ (fun pair z => R pair.1 z) (xs.zip ys) zs := by
  rw [← List.map_fst_zip (Nat.le_of_eq hlength)] at h
  exact List.forall₂_map_left_iff.mp h

theorem forall₂_zip_right {α β γ : Type} {R : β → γ → Prop} {xs : List α} {ys : List β}
    {zs : List γ} (h : List.Forall₂ R ys zs) (hlength : xs.length = ys.length) :
    List.Forall₂ (fun pair z => R pair.2 z) (xs.zip ys) zs := by
  rw [← List.map_snd_zip (Nat.le_of_eq hlength.symm)] at h
  exact List.forall₂_map_left_iff.mp h

/-- A block with temporaries first makes them, and then each of its statements writes
to the spot of its original target. -/
def Staged (table : SymbolTable) (I : Meaning δ) (first : Nat) (σ : Memory δ)
    (found : List (Spot δ × Value δ)) (s : Stmt) : Prop :=
  ∃ id blockId prepared steps last ρ, s = .block id ⟨blockId, prepared ++ List.flatten steps⟩ ∧
    Stmts.run table I prepared σ = some ρ ∧ σ.Follows first ρ ∧
    ∀ ρ', ρ.Keeps first last ρ' → List.Forall₂ (Writes table I ρ') steps found

theorem yields_sequence_stages (owner node : NodeId) {lhs rhs : List Expr}
    {P : List (List Stmt × Expr) → Pass → Prop}
    {Q : List (List Stmt × Expr) → List (List Stmt × List Stmt) → Pass → Prop}
    (hlength : lhs.length = rhs.length)
    (hpins : ∀ scope r, p.Grows r → p.table.SameNames r.table →
      Obtains env r (lhs.mapM (pin scope)) P)
    (hsteps : ∀ scope pinned r, p.Grows r → (pinned.map Prod.snd).length = rhs.length →
      P pinned r →
        Obtains env r (((pinned.map Prod.snd).zip rhs).mapM fun (target, source) =>
          evaluate scope node target source) (Q pinned)) :
    Obtains env p (sequence owner node lhs rhs) (fun s q =>
      ∃ id blockId pinned steps r, s = .block id ⟨blockId,
        (pinned.flatMap Prod.fst ++ steps.flatMap Prod.fst) ++
          (steps.map Prod.snd).flatten⟩ ∧ r.Grows q ∧ Q pinned steps r) := by
  apply (PassM.yields_scopeAt owner (fun _ _ => trivial)).bind
  rintro parent q _ ⟨rfl, _⟩
  have hscope := PassM.grows_newScope (p := q) parent
  refine .step (PassM.exec_onTable _ env q) hscope ?_
  apply ((hpins (q.table.newScope parent).1 _ hscope ⟨rfl, rfl⟩).counted).bind
  rintro pinned r hr ⟨hpinned, hcount⟩
  have hplaces : (pinned.map Prod.snd).length = rhs.length := by
    rw [List.length_map, hcount, hlength]
  apply (hsteps (q.table.newScope parent).1 pinned r (hscope.trans hr) hplaces hpinned).bind
  intro steps u _ hdone
  apply (PassM.yields_freshId trivial).bind
  intro blockId v hv hblock
  have hattach := PassM.grows_attachScope (q.table.newScope parent).1 hblock
  refine .step (PassM.exec_modifyTable _ env v) hattach ?_
  apply (PassM.yields_newStmt _ trivial).mono
  rintro s w hw ⟨id, rfl, _⟩
  refine ⟨id, blockId, pinned, steps, u, ?_, hv.trans (hattach.trans hw), hdone⟩
  rw [← List.flatMap_def]

theorem staged_of_readies {pinned : List (List Stmt × Expr)} {steps : List (List Stmt × List Stmt)}
    {rhs : List Expr} {spots : List (Spot δ)} {values : List (Value δ)} {q r : Pass}
    (hcount : (pinned.map Prod.snd).length = rhs.length) (hspare : σ.Spare p.table.bindings.size)
    (hpq : p.Grows q) (hqr : q.Grows r)
    (hpins : Readies table I σ p q (pinned.flatMap Prod.fst) fun ρ =>
      List.Forall₂ (fun pin spot => StandsFor table I pin.2 spot ρ) pinned spots)
    (hsteps : Readies table I σ q r (steps.flatMap Prod.fst) fun ρ => ∀ spots,
      List.Forall₂ (fun pair spot => StandsFor table I pair.1 spot ρ)
        ((pinned.map Prod.snd).zip rhs) spots →
        List.Forall₂ (Writes table I ρ) (steps.map Prod.snd) (spots.zip values))
    (htable : r.table.Extends r.ids.count table) (id blockId : NodeId) :
    Staged table I p.table.bindings.size σ (spots.zip values) (.block id ⟨blockId,
      (pinned.flatMap Prod.fst ++ steps.flatMap Prod.fst) ++ (steps.map Prod.snd).flatten⟩) := by
  rcases hpins.append hsteps hpq hqr hspare htable σ (.refl σ) with ⟨ρ, hrun, hgains, hready⟩
  refine ⟨id, blockId, _, steps.map Prod.snd, r.table.bindings.size, ρ, rfl, hrun,
    (Memory.Follows.refl hspare).of_gains hgains (Nat.le_refl _), fun ρ' hkeeps => ?_⟩
  rcases hready ρ' hkeeps with ⟨hstands, hdone⟩
  have hspots : List.Forall₂ (fun place spot => StandsFor table I place spot ρ')
      (pinned.map Prod.snd) spots :=
    List.forall₂_map_left_iff.mpr hstands
  exact hdone _ (forall₂_zip_left hspots hcount)

theorem yields_sequence_staged (owner node : NodeId) {lhs rhs : List Expr}
    {found : List (Spot δ × Value δ)} (hlength : lhs.length = rhs.length)
    (hspare : σ.Spare p.table.bindings.size)
    (hlocated : List.Forall₂ (Located p table I σ) lhs (found.map Prod.fst))
    (hvalues : List.Forall₂ (fun source v => source.isOperand = true ∧
      source.value table I σ = some v) rhs (found.map Prod.snd)) :
    Obtains env p (sequence owner node lhs rhs) (fun s q =>
      q.table.Extends q.ids.count table → Staged table I p.table.bindings.size σ found s) := by
  have hyields : Obtains env p _ _ := yields_sequence_stages owner node hlength
    (P := fun pinned q => p.Grows q ∧ Readies table I σ p q (pinned.flatMap Prod.fst) fun ρ =>
      List.Forall₂ (fun pin spot => StandsFor table I pin.2 spot ρ) pinned (found.map Prod.fst))
    (Q := fun pinned steps r => r.table.Extends r.ids.count table →
      ∀ id blockId, Staged table I p.table.bindings.size σ found (.block id ⟨blockId,
        (pinned.flatMap Prod.fst ++ steps.flatMap Prod.fst) ++ (steps.map Prod.snd).flatten⟩))
    (fun scope r hr hsame => ?_) (fun scope pinned r hr hcount hpinned => ?_)
  · apply hyields.mono
    rintro s q _ ⟨id, blockId, pinned, steps, r, rfl, hr, hstaged⟩ htable
    exact hstaged (hr.extends_before htable) id blockId
  · have hspare' : σ.Spare r.table.bindings.size := hspare.mono hr.size_le
    apply (yields_pins_readies scope hspare' (hlocated.imp fun _ _ h => h.mono hr)).mono
    intro pinned q hq hpinned
    exact ⟨hr.trans hq, hpinned.before hsame⟩
  · apply (yields_steps_ready scope node (hspare.mono hr.size_le)
      (forall₂_zip_right hvalues hcount)).mono
    intro steps u hu hsteps htable id blockId
    have hstaged := staged_of_readies hcount hspare hpinned.1 hu hpinned.2 hsteps htable id blockId
    rwa [← List.zip_of_prod rfl rfl] at hstaged

theorem exec_splitAssign_staged {owner node : NodeId} {labels : List Label} {lhs rhs : List Expr}
    {stmts : List Stmt} {p q : Pass} {found : List (Spot δ × Value δ)}
    (hhazard : hazardous p.table (lhs.zip rhs) = true) (hlength : lhs.length = rhs.length)
    (hspare : σ.Spare p.table.bindings.size)
    (hlocated : List.Forall₂ (Located p q.table I σ) lhs (found.map Prod.fst))
    (hvalues : List.Forall₂ (fun source v => source.isOperand = true ∧
      source.value q.table I σ = some v) rhs (found.map Prod.snd))
    (hexec : (splitAssign owner node labels lhs rhs).exec env p = (.ok stmts, q)) :
    ∃ s, stmts = [s.label labels] ∧ Staged q.table I p.table.bindings.size σ found s := by
  unfold splitAssign at hexec
  rw [PassM.exec_bind_ok (PassM.exec_getTable env p), hhazard, if_pos rfl] at hexec
  have hyields : Obtains env p
      (sequence owner node lhs rhs >>= fun s => pure [s.label labels])
      (fun stmts r => r.table.Extends r.ids.count q.table →
        ∃ s, stmts = [s.label labels] ∧ Staged q.table I p.table.bindings.size σ found s) := by
    apply (yields_sequence_staged owner node hlength hspare hlocated hvalues).bind
    intro s r _ hs
    exact .pure fun htable => ⟨s, rfl, hs htable⟩
  exact (hyields.of_ok hexec).2 (.refl _ _)

theorem Staged.run {first : Nat} {found : List (Spot δ × Value δ)} {s : Stmt}
    (h : Staged table I first σ found s) (hassign : assignAll I found σ = some τ) :
    ∃ ρ, s.run table I σ = some ρ ∧ τ.Follows first ρ := by
  rcases h with ⟨id, blockId, prepared, steps, last, ρ, rfl, hrun, hfollows, hwrites⟩
  have hkeeps : ρ.Keeps first last ρ := fun _ _ => rfl
  rcases Stmts.run_writes (hwrites ρ hkeeps).length_eq hwrites hfollows hkeeps hassign with
    ⟨ρ', hrun', hfollows'⟩
  refine ⟨ρ', ?_, hfollows'⟩
  rw [Stmt.run, Stmts.run_append, hrun]
  exact hrun'

/-!
## The statement
-/

theorem grows_splitAssign {owner node : NodeId} {labels : List Label} {lhs rhs : List Expr}
    {stmts : List Stmt} {p q : Pass} (hlength : lhs.length = rhs.length)
    (hsplit : (splitAssign owner node labels lhs rhs).exec env p = (.ok stmts, q)) :
    p.Grows q := by
  have hleaves : PassM.Leaves Liberty.full env p (splitAssign owner node labels lhs rhs)
      (fun stmts q => Renews Liberty.full Property.Unkept p q _ _) :=
    leaves_splitAssign (fun _ => trivial) (fun _ => trivial) owner node labels lhs rhs hlength
  exact (hleaves.yields.of_ok hsplit).1

theorem bindingOf_zip {lhs rhs : List Expr} {p q : Pass} (hgrows : p.Grows q)
    (hids : ∀ id ∈ Exprs.ids lhs ++ Exprs.ids rhs, id.Below p.ids.count) :
    ∀ pair ∈ lhs.zip rhs, ∀ id ∈ pair.1.ids ++ pair.2.ids,
      q.table.bindingOf id = p.table.bindingOf id := by
  intro pair hpair id hid
  rcases List.of_mem_zip hpair with ⟨htarget, hsource⟩
  apply SymbolTable.bindingOf_of_extends hgrows.table
  apply hids
  rcases List.mem_append.mp hid with hid | hid
  · exact List.mem_append_left _ (Exprs.ids_subset htarget hid)
  · exact List.mem_append_right _ (Exprs.ids_subset hsource hid)

theorem exists_assign_of_assignAll {found : List (Spot δ × Value δ)}
    (h : assignAll I found σ = some τ) :
    ∀ pair ∈ found, ∃ v σ₁ σ₂, pair.1.assign I v σ₁ = some σ₂ := by
  induction found generalizing σ with
  | nil => exact fun _ hpair => nomatch hpair
  | cons pair found ih =>
    rcases Option.bind_eq_some_iff.mp h with ⟨σ', hstep, hrest⟩
    intro other hother
    rcases List.mem_cons.mp hother with rfl | hother
    · exact ⟨_, _, _, hstep⟩
    · exact ih hrest other hother

theorem run_direct {owner node : NodeId} {labels : List Label} {lhs rhs : List Expr}
    {stmts : List Stmt} {p q : Pass} {found : List (Spot δ × Value δ)}
    (hsafe : hazardous p.table (lhs.zip rhs) = false) (hsimple : Simple (lhs.zip rhs))
    (hids : ∀ pair ∈ lhs.zip rhs, ∀ id ∈ pair.1.ids ++ pair.2.ids,
      table.bindingOf id = p.table.bindingOf id)
    (hfound : Found p.table I σ (lhs.zip rhs) found) (hassign : assignAll I found σ = some τ)
    (hexec : (splitAssign owner node labels lhs rhs).exec env p = (.ok stmts, q)) :
    Stmts.run table I stmts σ = some τ := by
  unfold splitAssign at hexec
  rw [PassM.exec_bind_ok (PassM.exec_getTable env p), hsafe, bind_pure_comp] at hexec
  have heach : PassM.Gives env
      (Stmts.labelFirst labels <$> (lhs.zip rhs).mapM fun pair => PassM.newAssign [pair.1] [pair.2])
      (fun stmts => Stmts.run table I stmts σ = some τ) := by
    refine (PassM.Gives.mapM_each (lhs.zip rhs) fun pair _ => PassM.Gives.newStmt _).map _ ?_
    intro singles hsingles
    rw [Stmts.run_labelFirst, ← Stmts.attempt_eq_ok_iff,
      Stmts.attempt_singles hsingles hsimple hids hsafe hfound]
    exact assignEach_eq_ok_iff.mpr hassign
  exact heach p q stmts hexec

theorem run_sequence {owner node : NodeId} {labels : List Label} {lhs rhs : List Expr}
    {stmts : List Stmt} {p q : Pass} {found : List (Spot δ × Value δ)}
    (hhazard : hazardous p.table (lhs.zip rhs) = true) (hlength : lhs.length = rhs.length)
    (hspare : σ.Spare p.table.bindings.size)
    (hlocated : List.Forall₂ (Located p q.table I σ) lhs (found.map Prod.fst))
    (hvalues : List.Forall₂ (fun source v => source.isOperand = true ∧
      source.value q.table I σ = some v) rhs (found.map Prod.snd))
    (hassign : assignAll I found σ = some τ)
    (hexec : (splitAssign owner node labels lhs rhs).exec env p = (.ok stmts, q)) :
    ∃ ρ, Stmts.run q.table I stmts σ = some ρ ∧ τ.Follows p.table.bindings.size ρ := by
  rcases exec_splitAssign_staged hhazard hlength hspare hlocated hvalues hexec with ⟨s, rfl, hs⟩
  rcases hs.run hassign with ⟨ρ, hrun, hfollows⟩
  refine ⟨ρ, ?_, hfollows⟩
  rw [Stmts.run, Stmt.run_label, hrun]
  rfl

theorem isTarget_unparen {e : Expr} (h : e.isTarget = true) : e.unparen.isTarget = true := by
  cases e with
  | paren id x => exact isTarget_unparen (e := x) h
  | _ => exact h

omit [DecidableEq δ] in
theorem MapsRecorded.of_extends {known later : SymbolTable} {bound : Nat} {target : Expr}
    (hextends : table.Extends bound later) (htarget : target.isTarget = true)
    (hids : ∀ id ∈ target.ids, id.Below bound) (h : MapsRecorded known table I σ target) :
    MapsRecorded known later I σ target := by
  have hform := isTarget_unparen htarget
  have hsub := target.unparen_ids_subset
  unfold MapsRecorded at h ⊢
  cases hunparen : target.unparen with
  | index id x i =>
    rw [hunparen] at h hform hsub
    simp only [Expr.isTarget, Bool.and_eq_true] at hform
    intro map hmap
    apply h map
    apply Expr.value_carries hform.1 _ (fun l _ => (Memory.Within.refl σ).carries l) hmap
    intro id' hid'
    have hmem : id' ∈ target.ids := hsub (List.mem_cons_of_mem id (List.mem_append_left _ hid'))
    exact (SymbolTable.bindingOf_of_extends hextends (hids id' hmem)).symm
  | _ => trivial

/-- An assignment that is split keeps its meaning.  From every memory in which
finding the targets, evaluating the sources and then writing from left to right goes
through, the statements that take its place go through as well, and they leave the
same in every cell but those of new variables. -/
theorem split_keeps_memory {owner : NodeId} {s : Stmt} {stmts : List Stmt} {p q : Pass}
    {node : NodeId} {lhs rhs : List Expr} (hs : s.unlabeled = .assign node lhs .assign rhs)
    (hids : ∀ id ∈ Exprs.ids lhs ++ Exprs.ids rhs, id.Below p.ids.count)
    (hlhs : ∀ target ∈ lhs, target.isTarget = true)
    (hrhs : ∀ source ∈ rhs, source.isOperand = true)
    (hspare : σ.Spare p.table.bindings.size)
    (hmaps : ∀ target ∈ lhs, MapsRecorded p.table p.table I σ target)
    (hsplit : (splitStmt owner s).exec env p = (.ok (some stmts), q))
    (hrun : s.run p.table I σ = some τ) :
    ∃ ρ, Stmts.run q.table I stmts σ = some ρ ∧ ρ.entries = τ.entries ∧
      ∀ cell : Cell, (∀ b, cell = .var b → b.index < p.table.bindings.size) →
        ρ.cells cell = τ.cells cell := by
  rcases exec_splitAssign hs hsplit with ⟨hlength, hexec⟩
  have hgrows := grows_splitAssign hlength hexec
  rw [← s.label_labels_unlabeled, Stmt.run_label, hs] at hrun
  rcases (Stmt.run_assign hlength).mp hrun with ⟨found, hfound, hassign⟩
  have hsimple : Simple (lhs.zip rhs) := by
    intro pair hpair
    rcases List.of_mem_zip hpair with ⟨htarget, hsource⟩
    exact ⟨hlhs _ htarget, hrhs _ hsource⟩
  have hsame := bindingOf_zip hgrows hids
  cases hhazard : hazardous p.table (lhs.zip rhs) with
  | false => exact ⟨τ, run_direct hhazard hsimple hsame hfound hassign hexec, rfl, fun _ _ => rfl⟩
  | true =>
      have hfound' : Found q.table I σ (lhs.zip rhs) found :=
        hfound.carries hsimple hsame fun _ _ location _ => (Memory.Within.refl σ).carries location
      rcases (found_zip_iff hlength).mp hfound' with ⟨hspots, hvalues⟩
      have hlocated : List.Forall₂ (Located p q.table I σ) lhs (found.map Prod.fst) := by
        have hwritten : ∀ spot ∈ found.map Prod.fst, ∃ v σ₁ σ₂, spot.assign I v σ₁ = some σ₂ := by
          intro spot hspot
          rcases List.mem_map.mp hspot with ⟨pair, hpair, rfl⟩
          exact exists_assign_of_assignAll hassign pair hpair
        have hbelow : ∀ target ∈ lhs, ∀ id ∈ target.ids, id.Below p.ids.count :=
          fun target htarget id hid =>
            hids id (List.mem_append_left _ (Exprs.ids_subset htarget hid))
        have hboth := ((List.forall₂_and_left _ _).mpr ⟨hwritten, hspots.flip⟩).flip
        have hall := (List.forall₂_and_left _ _).mpr ⟨fun target (h : target ∈ lhs) => h, hboth⟩
        refine hall.imp fun target spot h => ⟨hlhs _ h.1, hbelow _ h.1, h.2.2, ?_⟩
        exact ((hmaps _ h.1).of_extends hgrows.table (hlhs _ h.1) (hbelow _ h.1)).addressed
          h.2.2 h.2.1
      have hoperands := (List.forall₂_and_left _ _).mpr ⟨hrhs, hvalues⟩
      rcases run_sequence hhazard hlength hspare hlocated hoperands hassign hexec with
        ⟨ρ, hrun', hfollows⟩
      exact ⟨ρ, hrun', hfollows.entries, hfollows.cells⟩

/-- An exchange of two variables, one of which is reached through a pointer:
`*p, y = y, x`. -/
def aliasedSwap : Stmt :=
  .assign ⟨0⟩ [.star ⟨1⟩ (.ident ⟨2⟩ "p"), .ident ⟨3⟩ "y"] .assign [.ident ⟨4⟩ "y", .ident ⟨5⟩ "x"]

def aliasedPass : Pass where
  file := ⟨⟨7⟩, "main", "", [], []⟩
  table :=
    { SymbolTable.empty with
      types := #[.basic .int, .pointer ⟨0⟩]
      exprTypes := (((((∅ : NodeMap TypeId).insert ⟨1⟩ ⟨0⟩).insert ⟨2⟩ ⟨1⟩).insert ⟨3⟩ ⟨0⟩).insert
        ⟨4⟩ ⟨0⟩).insert ⟨5⟩ ⟨0⟩
      uses := ((((∅ : NodeMap BindingId).insert ⟨2⟩ ⟨2⟩).insert ⟨3⟩ ⟨1⟩).insert ⟨4⟩ ⟨1⟩).insert
        ⟨5⟩ ⟨0⟩
      bindings := #[⟨"x", some ⟨0⟩, ⟨0⟩, .var, false⟩, ⟨"y", some ⟨0⟩, ⟨0⟩, .var, false⟩,
        ⟨"p", some ⟨1⟩, ⟨0⟩, .var, false⟩] }
  ids := ⟨8⟩
  diagnostics := []
  scopes := ⟨[(⟨6⟩, ⟨0⟩)]⟩
  changes := 0
  applications := 0

def naturals : Meaning Nat where
  literal _ := .data 0
  unary _ := some
  binary _ v _ := some v
  shortcut _ _ := none
  position := fun
    | .data n => some n
    | _ => none
  absent _ _ := none
  accepts _ _ := true

def aliasedMemory : Memory Nat where
  cells := fun
    | .var ⟨0⟩ => some (.data 1)
    | .var ⟨1⟩ => some (.data 2)
    | .var ⟨2⟩ => some (.pointer (.var ⟨0⟩))
    | _ => none
  entries _ _ := none

/-- The numbers change places, although the first write changes what the second
source reads. -/
theorem aliasedSwap_keeps_memory :
    ∃ stmts q ρ,
      (splitStmt ⟨6⟩ aliasedSwap).exec crossingEnv aliasedPass = (.ok (some stmts), q) ∧
      Stmts.run q.table naturals stmts aliasedMemory = some ρ ∧
      ρ.cells (.var ⟨0⟩) = some (.data 2) ∧ ρ.cells (.var ⟨1⟩) = some (.data 1) := by
  have hids : ∀ id ∈ aliasedSwap.ids, id.Below aliasedPass.ids.count := by
    unfold NodeId.Below
    decide +kernel
  have hspare : aliasedMemory.Spare aliasedPass.table.bindings.size := by
    rintro ⟨_ | _ | _ | b⟩ hb
    · exact absurd hb (by decide)
    · exact absurd hb (by decide)
    · exact absurd hb (by decide)
    · rfl
  have hbindings : aliasedPass.table.bindingOf ⟨2⟩ = some ⟨2⟩ ∧
      aliasedPass.table.bindingOf ⟨3⟩ = some ⟨1⟩ ∧ aliasedPass.table.bindingOf ⟨4⟩ = some ⟨1⟩ ∧
      aliasedPass.table.bindingOf ⟨5⟩ = some ⟨0⟩ := by
    decide +kernel
  have hrun : aliasedSwap.run aliasedPass.table naturals aliasedMemory =
      some ((aliasedMemory.write (.var ⟨0⟩) (.data 2)).write (.var ⟨1⟩) (.data 1)) := by
    simp [aliasedSwap, Stmt.run, Expr.spot, Expr.value, hbindings, aliasedMemory, assignAll,
      Spot.assign, Spot.cell?, Memory.write, blank]
  have hgiven : ((splitStmt ⟨6⟩ aliasedSwap).exec crossingEnv
      aliasedPass).1.toOption.join.isSome = true := by
    decide +kernel
  rcases PassM.exec_eq_some hgiven with ⟨stmts, q, hsplit⟩
  rcases split_keeps_memory rfl (fun id hid => hids id (.tail _ hid)) (by decide) (by decide) hspare
    (by simp [MapsRecorded, Expr.unparen]) hsplit hrun with ⟨ρ, hrun', _, hcells⟩
  refine ⟨stmts, q, ρ, hsplit, hrun', ?_, ?_⟩
  · rw [hcells _ (by rintro b ⟨⟩; decide)]
    rfl
  · rw [hcells _ (by rintro b ⟨⟩; decide)]
    rfl

end Parallel

end Desugar
