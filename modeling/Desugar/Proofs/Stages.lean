import Desugar.Catalog
import Desugar.Pipeline.Run
import Desugar.Proofs.Assignments
import Desugar.Proofs.Declarations
import Desugar.Proofs.Dereferences
import Desugar.Proofs.Loops
import Desugar.Proofs.ShortDeclarations
import Desugar.Proofs.Splitting

/-!
# Stages of normalization

After so many rules of the default order, the nodes of the file have the traits
up to that stage.  Each rule advances by one stage, however often it is applied.
-/

namespace Desugar

open PassM (Obtains)
open Node (All AllHave)
open Trait (With)

namespace Trait

/-- The traits of a file after so many rules: what the file brings along, and
what the rules have established. -/
def UpTo (base : Trait → Prop) (stage : Nat) (trait : Trait) : Prop :=
  (trait.stage = 0 ∧ base trait) ∨ (0 < trait.stage ∧ trait.stage ≤ stage)

def ofStage : Nat → Trait
  | 1 => .explicitDeref
  | 2 => .taggedSwitch
  | 3 => .noControlInit
  | 4 => .conditionLoop
  | 5 => .singleName
  | 6 => .typedDecl
  | 7 => .initializedDecl
  | 8 => .noShortDecl
  | 9 => .singleTarget
  | 10 => .explicitDiscard
  | _ => .bounded

theorem ofStage_stage {trait : Trait} (h : 0 < trait.stage) : ofStage trait.stage = trait := by
  cases trait <;> first | rfl | exact absurd h (Nat.lt_irrefl 0)

variable {base : Trait → Prop} {stage : Nat} {trait more : Trait}

theorem UpTo.stage_le (h : UpTo base stage trait) : trait.stage ≤ stage := by
  rcases h with ⟨hzero, _⟩ | ⟨_, hle⟩
  · rw [hzero]
    exact Nat.zero_le _
  · exact hle

theorem UpTo.of_base (hstage : trait.stage = 0) (h : base trait) : UpTo base stage trait :=
  .inl ⟨hstage, h⟩

theorem UpTo.mono {stage' : Nat} (hle : stage ≤ stage') (h : UpTo base stage trait) :
    UpTo base stage' trait :=
  h.imp_right fun ⟨hpos, htrait⟩ => ⟨hpos, Nat.le_trans htrait hle⟩

theorem UpTo.with_succ (hmore : more.stage = stage + 1) (h : UpTo base (stage + 1) trait) :
    With (UpTo base stage) more trait := by
  rcases h with hbase | ⟨hpos, hle⟩
  · exact .inl (.inl hbase)
  · rcases Nat.lt_or_ge stage trait.stage with hlt | hge
    · right
      have hsame : trait.stage = more.stage := by omega
      rw [← ofStage_stage hpos, hsame]
      exact ofStage_stage (by omega)
    · exact .inl (.inr ⟨hpos, hge⟩)

end Trait

theorem Node.Has.of_subset {traits traits' : Trait → Prop} {p : Pass} {n : Node}
    (h : n.Has traits p) (hsubset : ∀ trait, traits' trait → traits trait) : n.Has traits' p :=
  fun q hq trait htrait => h q hq trait (hsubset trait htrait)

structure Trait.Base (base : Trait → Prop) : Prop where
  bounded : base .bounded
  simpleHeaders : base .simpleHeaders
  branchElse : base .branchElse
  namedSpecs : base .namedSpecs

structure Pass.AtStage (base : Trait → Prop) (stage : Nat) (p : Pass) : Prop where
  drawn : p.Drawn
  fileId : p.file.id.Below p.ids.count
  nodes : AllHave (Trait.UpTo base stage) p p.file.nodes

namespace Pass.AtStage

variable {base : Trait → Prop} {stage : Nat} {p q : Pass}

theorem of_same_file (h : p.AtStage base stage) (hgrows : p.Grows q) (hfile : q.file = p.file) :
    q.AtStage base stage where
  drawn := h.drawn.of_grows hgrows
  fileId := by
    rw [hfile]
    exact PassM.below_mono hgrows h.fileId
  nodes := by
    rw [hfile]
    exact Node.Has.all_mono hgrows h.nodes

theorem back (h : p.AtStage base (stage + 1)) : p.AtStage base stage where
  drawn := h.drawn
  fileId := h.fileId
  nodes n hn := (h.nodes n hn).of_subset fun _ htrait => htrait.mono (Nat.le_succ stage)

theorem advance {more : Trait} (hmore : more.stage = stage + 1) (h : p.AtStage base stage)
    (hgrows : p.Grows q) (hid : q.file.id = p.file.id)
    (hnodes : All (fun p n => n.Has (With (Trait.UpTo base stage) more) p) q q.file.nodes) :
    q.AtStage base (stage + 1) where
  drawn := h.drawn.of_grows hgrows
  fileId := by
    rw [hid]
    exact PassM.below_mono hgrows h.fileId
  nodes n hn := (hnodes n hn).of_subset fun _ htrait => htrait.with_succ hmore

end Pass.AtStage

/-!
## Rules
-/

namespace Rule

def Advances (rule : Rule) (base : Trait → Prop) (stage : Nat) : Prop :=
  ∀ (env : PassEnv) (p : Pass), p.AtStage base stage →
    Obtains env p rule.apply (fun _ q => q.AtStage base (stage + 1))

def Settles (rule : Rule) (base : Trait → Prop) (stage : Nat) (more : Trait) : Prop :=
  ∀ (env : PassEnv) (p : Pass), p.AtStage base stage →
    Obtains env p rule.apply (fun _ q => q.file.id = p.file.id ∧
      All (fun p n => n.Has (With (Trait.UpTo base stage) more) p) q q.file.nodes)

section

variable {rule : Rule} {base : Trait → Prop} {stage : Nat} {t : Transformer} {more : Trait}

theorem Settles.advances (h : rule.Settles base stage more) (hmore : more.stage = stage + 1) :
    rule.Advances base stage := by
  intro env p hp
  apply (h env p hp).mono
  intro changes q hq hpost
  exact hp.advance hmore hq hpost.1 hpost.2

theorem settles_of_nodeContract (hrule : rule.apply = t.run)
    (h : ∀ (env : PassEnv) (p : Pass), t.NodeContract Fault.any env p
      (fun n => n.Has (Trait.UpTo base stage) p) (Trait.UpTo base stage) more) :
    rule.Settles base stage more := by
  intro env p hp
  rw [hrule]
  exact (h env p).run (.refl p) hp.nodes fun _ _ => trivial

theorem settles_of_listContract (hrule : rule.apply = t.run)
    (h : ∀ (env : PassEnv) (p : Pass), p.Drawn →
      t.ListContract Fault.any env p (Trait.UpTo base stage) more)
    (hdecl : ∀ (q : Pass) (d : Decl), more.OnDecl q d) : rule.Settles base stage more := by
  intro env p hp
  have htop : ∀ d, .decl d ∈ p.file.decls →
      (Node.decl d true).Has (With (Trait.UpTo base stage) more) p := by
    intro d hd
    have hnode : Node.decl d true ∈ p.file.nodes := by
      apply List.mem_flatMap.mpr
      refine ⟨.decl d, hd, ?_⟩
      rcases d with ⟨id, kind, specs⟩
      exact .head _
    exact (hp.nodes _ hnode).with_trait fun q _ _ => hdecl q d
  rw [hrule]
  exact (h env p hp.drawn).run (.refl p) hp.nodes htop

end

section

variable {base : Trait → Prop} {stage : Nat}

theorem stage_lt {bound : Nat} (h : stage < bound) :
    ∀ trait, Trait.UpTo base stage trait → trait.stage < bound :=
  fun _ htrait => Nat.lt_of_le_of_lt htrait.stage_le h

variable (hbase : Trait.Base base)

include hbase

theorem explicitDeref_advances {env : PassEnv} {p : Pass} (hp : p.AtStage base 0)
    (hclosed : p.table.Closed) (hdirect : ∀ n ∈ p.file.nodes, n.Direct p.table) :
    Obtains env p explicitDeref.apply (fun _ q => q.AtStage base 1) := by
  have hcontract : Dereference.transformer.NodeContract Fault.any env p
      (fun n => n.Has (Trait.UpTo base 0) p ∧ n.Direct p.table)
        (Trait.UpTo base 0) .explicitDeref :=
    Dereference.contract hclosed (.of_base rfl hbase.bounded) (.of_base rfl
      hbase.simpleHeaders) (.of_base rfl hbase.branchElse)
  apply (hcontract.run (.refl p) (fun n hn => ⟨hp.nodes n hn, hdirect n hn⟩)
    fun _ _ => trivial).mono
  intro changes q hq hpost
  exact hp.advance rfl hq hpost.1 hpost.2

theorem switchTag_settles : switchTag.Settles base stage .taggedSwitch :=
  settles_of_nodeContract rfl fun _ _ => SwitchTag.contract
    (.of_base rfl hbase.simpleHeaders) (.of_base rfl hbase.branchElse)

theorem hoistInit_settles (hstage : stage < 8) : hoistInit.Settles base stage .noControlInit :=
  settles_of_listContract rfl (fun _ _ _ => Initializer.contract (stage_lt hstage)
    (.of_base rfl hbase.bounded) (.of_base rfl hbase.simpleHeaders)
    (.of_base rfl hbase.branchElse)) fun _ _ => trivial

theorem forLoop_settles (hstage : stage < 8) : forLoop.Settles base stage .conditionLoop :=
  settles_of_listContract rfl (fun _ _ hdrawn => Loop.contract (stage_lt hstage)
    (.of_base rfl hbase.bounded) (.of_base rfl hbase.simpleHeaders)
    (.of_base rfl hbase.branchElse) hdrawn) fun _ _ => trivial

theorem splitDecl_settles (hstage : stage < 5) : splitDecl.Settles base stage .singleName := by
  intro env p hp
  exact Split.yields_run (stage_lt hstage) (.of_base rfl hbase.bounded)
    (.of_base rfl hbase.simpleHeaders) (.of_base rfl hbase.branchElse) hp.nodes

theorem explicitType_settles : explicitType.Settles base stage .typedDecl :=
  settles_of_nodeContract rfl fun _ _ => Annotations.contract
    (.of_base rfl hbase.simpleHeaders) (.of_base rfl hbase.branchElse)

theorem zeroValue_settles : zeroValue.Settles base stage .initializedDecl :=
  settles_of_nodeContract rfl fun _ _ => Zero.contract
    (.of_base rfl hbase.simpleHeaders) (.of_base rfl hbase.branchElse)
    (.of_base rfl hbase.namedSpecs)

theorem shortDecl_settles (hstage : stage < 8) : shortDecl.Settles base stage .noShortDecl :=
  settles_of_listContract rfl (fun _ _ _ => Short.contract (stage_lt hstage)
    (.of_base rfl hbase.bounded) (.of_base rfl hbase.simpleHeaders)
    (.of_base rfl hbase.branchElse)) fun _ _ => trivial

theorem parallelAssign_settles : parallelAssign.Settles base stage .singleTarget :=
  settles_of_listContract rfl (fun _ _ _ => Parallel.contract
    (.of_base rfl hbase.bounded) (.of_base rfl hbase.simpleHeaders)
    (.of_base rfl hbase.branchElse)) fun _ _ => trivial

theorem explicitDiscard_settles : explicitDiscard.Settles base stage .explicitDiscard :=
  settles_of_listContract rfl (fun _ _ _ => Discard.contract
    (.of_base rfl hbase.bounded) (.of_base rfl hbase.simpleHeaders)
    (.of_base rfl hbase.branchElse)) fun _ _ => trivial

end

end Rule
end Desugar
