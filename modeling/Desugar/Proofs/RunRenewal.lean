import Desugar.Proofs.AssignmentRenewal
import Desugar.Proofs.LoopRenewal
import Desugar.Proofs.WellFormed

/-!
# Renewal by runs

Every rule renews the inventory of the file it is applied to, and so do the pass
of a rule and a whole run.  A pass that fails and is undone leaves behind only
the identities it drew.
-/

namespace Desugar

open PassM (Leaves)

structure Pass.Renewed (lib : Liberty) (keeps : Property → Prop) (p q : Pass) : Prop where
  fileId : q.file.id = p.file.id
  nodes : Renews lib keeps p q (inventory p.file.nodes) (inventory q.file.nodes)

namespace Pass.Renewed

variable {lib : Liberty} {keeps : Property → Prop} {p q r : Pass}

theorem stay (h : p.Evolves lib q) (hfile : q.file = p.file) : p.Renewed lib keeps q where
  fileId := congrArg File.id hfile
  nodes := by
    rw [hfile]
    exact .stay h _

theorem trans (hpq : p.Renewed lib keeps q) (hqr : q.Renewed lib keeps r) :
    p.Renewed lib keeps r where
  fileId := hqr.fileId.trans hpq.fileId
  nodes := hpq.nodes.trans hqr.nodes

end Pass.Renewed

/-!
## Passes
-/

namespace Rule

variable {lib : Liberty} {keeps : Property → Prop} {env : PassEnv} {rule : Rule} {p : Pass}

def Renews (rule : Rule) (lib : Liberty) (keeps : Property → Prop) (env : PassEnv) (start : Pass) :
    Prop :=
  ∀ p, start.Evolves lib p → Leaves lib env p rule.apply (fun _ q => p.Renewed lib keeps q)

theorem Renews.of_transformer {t : Transformer} (hrule : rule.apply = t.run)
    (h : ∀ q, p.Evolves lib q → t.Renewing lib keeps env q) : rule.Renews lib keeps env p := by
  intro q hq
  rw [hrule]
  exact (h q hq).leaves_run.mono fun _ r _ hr => ⟨hr.1, hr.2⟩

theorem Renews.leaves_iterate (h : rule.Renews lib keeps env p) (limit n total : Nat) {q : Pass}
    (hq : p.Evolves lib q) :
    Leaves lib env q (rule.iterate limit n total) (fun _ r => q.Renewed lib keeps r) := by
  induction n generalizing q total with
  | zero => exact Leaves.raise
  | succ n ih =>
    refine (h q hq).bind fun changes r hr happlied => ?_
    have hcount : r.Evolves lib { r with applications := r.applications + 1 } :=
      .of_same_record rfl rfl rfl
    refine .step (PassM.exec_modify _ env r) hcount ?_
    have hcounted := happlied.trans (.stay hcount rfl)
    split
    · exact Leaves.of_exec_error (PassM.exec_throw .exhausted env _) (.refl _)
    · split
      · exact .pure hcounted
      · exact (ih _ (hq.trans (hr.trans hcount))).mono fun _ u _ hu => hcounted.trans hu

theorem Renews.leaves_pass (h : rule.Renews lib keeps env p) (config : Config) :
    Leaves lib env p (rule.pass config) (fun _ q => p.Renewed lib keeps q) := by
  refine (h.leaves_iterate _ _ 0 (.refl p)).bind fun changes q _ hq => ?_
  split
  · refine .look (PassM.exec_get env q) ?_
    split
    · exact Leaves.raise_bind
    · exact .pure hq
  · exact .pure hq

end Rule

class Liberty.Ample (lib : Liberty) : Prop where
  reports : lib.reports
  adds : ∀ type, lib.adds type
  lifts : ∀ property, lib.lifts property = true

def Liberty.full : Liberty :=
  ⟨True, fun _ => True, fun _ => true, True⟩

instance : Liberty.full.Ample where
  reports := trivial
  adds _ := trivial
  lifts _ := rfl

instance : Liberty.full.Reserving where
  reserves := trivial

def Liberty.coining : Liberty :=
  { Liberty.full with reserves := False }

instance : Liberty.coining.Ample where
  reports := trivial
  adds _ := trivial
  lifts _ := rfl

def Property.Unkept : Property → Prop :=
  fun _ => False

def Rule.spoils (rule : Rule) : List Property :=
  match rule.establishes with
  | [.explicitDeref] => [.explicitDeref]
  | [.noControlInit] | [.noThreeClauseLoop] => [.noShortDecl]
  | [.singleNameDecl] => [.typedDecl, .initializedDecl]
  | [.noShortDecl] => [.singleTargetAssign]
  | _ => []

def Rule.mayReport (rule : Rule) : Bool :=
  rule.establishes.any fun
    | .singleNameDecl | .typedDecl | .initializedDecl | .noShortDecl | .singleTargetAssign => true
    | _ => false

theorem Rule.renews_of_mem_catalog {lib : Liberty} {keeps : Property → Prop}
    {rule : Rule} (h : rule ∈ catalog) (hreports : rule.mayReport = true → lib.reports)
    (hbasic : lib.AddsBasics)
    (hpointers : .singleTargetAssign ∈ rule.establishes → ∀ ty, lib.adds (.pointer ty))
    (hlifts : ∀ property ∈ rule.establishes, lib.lifts property = true)
    (hkeeps : ∀ property ∈ rule.spoils, ¬ keeps property) (env : PassEnv) {p : Pass}
    (hdrawn : p.Drawn) : rule.Renews lib keeps env p := by
  simp only [catalog, List.mem_cons, List.not_mem_nil, or_false] at h
  rcases h with rfl | rfl | rfl | rfl | rfl | rfl | rfl | rfl | rfl | rfl
  · exact .of_transformer rfl fun _ _ => Dereference.renewing (hkeeps _ (.head _))
  · exact .of_transformer rfl fun _ _ => SwitchTag.renewing _ (hbasic _)
  · exact .of_transformer rfl fun _ _ =>
      Initializer.renewing (hlifts _ (.head _)) (hkeeps _ (.head _))
  · exact .of_transformer rfl fun q hq =>
      Loop.renewing (hlifts _ (.head _)) (hkeeps _ (.head _)) (hbasic _)
        (hdrawn.of_grows hq.toGrows)
  · intro q _
    exact (Split.leaves_run (hkeeps _ (.head _)) (hkeeps _ (.tail _ (.head _))) (hreports rfl)
      hbasic).mono fun _ r _ hr => ⟨hr.1, hr.2⟩
  · exact .of_transformer rfl fun _ _ => Annotations.renewing (hreports rfl) hbasic
  · exact .of_transformer rfl fun _ _ => Zero.renewing (hreports rfl) hbasic
  · exact .of_transformer rfl fun _ _ => Short.renewing (hreports rfl) (hkeeps _ (.head _)) hbasic
  · exact .of_transformer rfl fun _ _ =>
      Parallel.renewing (hreports rfl) hbasic (hpointers (.head _))
  · exact .of_transformer rfl fun _ _ => Discard.renewing _

/-!
## Runs
-/

namespace Pass.Evolves

variable {lib : Liberty} {p q : Pass}

theorem renew [lib.Ample] (h : p.Evolves lib q) (hdiagnostics : p.diagnostics = []) :
    p.Evolves lib q.renew where
  ids := h.ids
  table := h.table
  recorded := h.recorded
  diagnostics := by
    rw [hdiagnostics]
    exact List.nil_prefix
  silent hsilent := absurd Liberty.Ample.reports hsilent
  added := h.added
  scopeOf := h.scopeOf
  scopes := h.scopes
  distinct := h.distinct
  coined := h.coined

theorem undo (h : p.Evolves lib q) : p.Evolves lib { p with ids := q.ids } where
  ids := h.ids
  table := .refl _ _
  recorded _ hid := .inl hid
  diagnostics := List.prefix_refl _
  silent _ := rfl
  added := ⟨[], (List.append_nil _).symm, fun _ h => nomatch h⟩
  scopeOf _ _ := .inl rfl
  scopes hnamed := .refl hnamed
  distinct := id
  coined _ := ⟨[], [], .of_same rfl rfl⟩

end Pass.Evolves

theorem Pass.Renewed.renew {lib : Liberty} [lib.Ample] {p q : Pass}
    (h : p.Renewed lib Property.Unkept q) (hdiagnostics : p.diagnostics = []) :
    p.Renewed lib Property.Unkept q.renew where
  fileId := h.fileId
  nodes :=
    { evolves := h.nodes.evolves.renew hdiagnostics
      few := h.nodes.few
      lasting := h.nodes.lasting
      spared := fun _ hkeeps => hkeeps.elim
      labels := fun hlib id name hname =>
        (h.nodes.labels hlib id name hname).imp_right fun hcoined =>
          ⟨hcoined.reserved, hcoined.fresh, hcoined.free⟩ }

theorem Progress.start_drawn {file : File} {table : SymbolTable} {ids : NodeSupply}
    {report : Report} (names : List String)
    (h : NodeSupply.after? (file.maxId.larger table.maxNode) = some ids) :
    (Progress.start ⟨file, table.reserve names, ids, report⟩).Drawn ∧
      ∀ id ∈ file.ids, id.Below ids.count := by
  have hlargest : (file.maxId.larger table.maxNode).Below ids.count := by
    unfold NodeId.Below
    rw [NodeSupply.count_after? h]
    exact Nat.lt_succ_self _
  rcases NodeId.larger_below_iff.mp hlargest with ⟨hmaxId, hmaxNode⟩
  constructor
  · exact (SymbolTable.maxNode_below_iff (Nat.zero_lt_of_lt hmaxNode)).mp hmaxNode
  · exact File.maxId_below_iff.mp hmaxId

namespace Pipeline

variable {config : Config} {view : PackageView}

theorem step_evolves_of_ample (lib : Liberty) [lib.Ample] {progress left : Progress} {rule : Rule}
    {result : Except Fault Progress} (hrule : rule ∈ Rule.catalog)
    (hdrawn : progress.start.Drawn) (h : step config view progress rule = (result, left)) :
    progress.start.Evolves lib left.start ∧ ∀ next, result = .ok next →
      next = left ∧ progress.start.Renewed lib Property.Unkept next.start := by
  have hrenews : rule.Renews lib Property.Unkept ⟨rule.name, view, config.tempStem⟩
      progress.start :=
    Rule.renews_of_mem_catalog hrule (fun _ => Liberty.Ample.reports)
      (fun _ => Liberty.Ample.adds _) (fun _ _ => Liberty.Ample.adds _)
      (fun property _ => Liberty.Ample.lifts property) (fun _ _ => id) _ hdrawn
  have hleaves := hrenews.leaves_pass config
  cases stepEnds h with
  | skipped _ hnext =>
    subst hnext
    refine ⟨.of_same_record rfl rfl rfl, fun next hnext => ?_⟩
    cases hnext
    exact ⟨rfl, .stay (.of_same_record rfl rfl rfl) rfl⟩
  | applied _ hpass hnext =>
    subst hnext
    rcases hleaves.of_ok hpass with ⟨hevolves, hrenewed⟩
    refine ⟨hevolves.renew rfl, fun next hnext => ?_⟩
    cases hnext
    exact ⟨rfl, hrenewed.renew rfl⟩
  | undone _ hpass _ hnext =>
    subst hnext
    have hevolves := (hleaves.of_error hpass).undo
    refine ⟨hevolves, fun next hnext => ?_⟩
    cases hnext
    exact ⟨rfl, .stay hevolves rfl⟩
  | stopped _ hpass =>
    exact ⟨(hleaves.of_error hpass).renew rfl, fun next hnext => nomatch hnext⟩

theorem steps_evolves_of_ample (lib : Liberty) [lib.Ample] {rules : List Rule}
    (hrules : rules ⊆ Rule.catalog) {progress left : Progress} {result : Except Fault Report}
    (hdrawn : progress.start.Drawn) (h : steps config view progress rules = (result, left)) :
    progress.start.Evolves lib left.start ∧ ∀ report, result = .ok report →
      progress.start.Renewed lib Property.Unkept left.start := by
  induction rules generalizing progress with
  | nil =>
    cases h
    exact ⟨.refl _, fun _ _ => .stay (.refl _) rfl⟩
  | cons rule rest ih =>
    have hrule : rule ∈ Rule.catalog := hrules (.head _)
    have hrest : rest ⊆ Rule.catalog := fun other hother => hrules (.tail _ hother)
    unfold steps at h
    cases hstep : step config view progress rule with
    | mk outcome next =>
      rw [hstep] at h
      rcases step_evolves_of_ample lib hrule hdrawn hstep with ⟨hevolves, hnext⟩
      cases outcome with
      | error fault =>
        cases h
        exact ⟨hevolves, by rintro _ ⟨⟩⟩
      | ok next' =>
        rcases hnext next' rfl with ⟨rfl, hrenewed⟩
        rcases ih hrest (hdrawn.of_grows hevolves.toGrows) h with ⟨hlast, hreport⟩
        exact ⟨hevolves.trans hlast, fun report hresult => hrenewed.trans (hreport report hresult)⟩

theorem steps_evolves {rules : List Rule} (hrules : rules ⊆ Rule.catalog)
    {progress left : Progress} {result : Except Fault Report} (hdrawn : progress.start.Drawn)
    (h : steps config view progress rules = (result, left)) :
    progress.start.Evolves .full left.start ∧ ∀ report, result = .ok report →
      progress.start.Renewed .full Property.Unkept left.start :=
  steps_evolves_of_ample .full hrules hdrawn h

theorem supply_of_result {pipeline : Pipeline} {file : File} {table : SymbolTable}
    (h : (pipeline.run file table).result ≠ .error .exhausted) :
    ∃ ids, NodeSupply.after? (file.maxId.larger table.maxNode) = some ids := by
  cases hids : NodeSupply.after? (file.maxId.larger table.maxNode) with
  | some ids => exact ⟨ids, rfl⟩
  | none =>
    have hsame : (table.reserve file.spelledNames).maxNode = table.maxNode := rfl
    unfold run at h
    simp only [hsame, hids] at h
    exact absurd rfl h

theorem supply_of_run {pipeline : Pipeline} {file : File} {table : SymbolTable} {report : Report}
    (h : (pipeline.run file table).result = .ok report) :
    ∃ ids, NodeSupply.after? (file.maxId.larger table.maxNode) = some ids := by
  apply supply_of_result
  rw [h]
  intro hfault
  cases hfault

theorem steps_of_run {pipeline : Pipeline} {file : File} {table : SymbolTable} {ids : NodeSupply}
    (h : NodeSupply.after? (file.maxId.larger table.maxNode) = some ids) :
    ∃ left : Progress, (pipeline.run file table).file = left.file ∧
      (pipeline.run file table).table = left.table ∧
      steps pipeline.config (.ofFile file) ⟨file, table.reserve file.spelledNames, ids, ⟨[], []⟩⟩
        pipeline.rules = ((pipeline.run file table).result, left) := by
  rw [run_eq_of_ids h]
  exact ⟨_, rfl, rfl, rfl⟩

/-!
## Rules of a configuration
-/

theorem names_of_select {available : List Rule} {names seen : List String} {rules : List Rule}
    (h : select available seen names = .ok rules) :
    rules ⊆ available ∧ rules.map Rule.name = names ∧ names.Nodup ∧
    ∀ name ∈ names, name ∉ seen := by
  induction names generalizing seen rules with
  | nil =>
    cases h
    exact ⟨List.nil_subset _, rfl, .nil, fun _ hname => nomatch hname⟩
  | cons name rest ih =>
    unfold select at h
    split at h
    · cases h
    · rename_i rule hfind
      split at h
      · cases h
      · rename_i hseen
        cases hrest : select available (name :: seen) rest with
        | error problem =>
          rw [hrest] at h
          cases h
        | ok others =>
          rw [hrest] at h
          cases h
          rcases ih hrest with ⟨hsubset, hnames, hnodup, hnew⟩
          have hbeq : (rule.name == name) = true :=
            List.find?_some (p := fun rule : Rule => rule.name == name) hfind
          have hname : rule.name = name := beq_iff_eq.mp hbeq
          have hfresh : name ∉ seen := fun hmem => hseen (List.contains_iff_mem.mpr hmem)
          refine ⟨List.cons_subset.mpr ⟨List.mem_of_find?_eq_some hfind, hsubset⟩, ?_, ?_, ?_⟩
          · rw [List.map_cons, hname, hnames]
          · exact List.nodup_cons.mpr ⟨fun hmem => hnew name hmem (.head _), hnodup⟩
          · intro other hother
            rcases List.mem_cons.mp hother with rfl | hother
            · exact hfresh
            · exact fun hmem => hnew other hother (.tail _ hmem)

structure Accepted (rules : List Rule) : Prop where
  subset : rules ⊆ Rule.catalog
  nodup : (rules.map Rule.name).Nodup
  ordered : orderProblem? Rule.catalog rules = none

theorem accepted_of_plan {pipeline : Pipeline} {ordered : List Rule}
    (hsubset : ordered ⊆ Rule.catalog) (hnodup : (ordered.map Rule.name).Nodup)
    (hplan : (do
      let rules := ordered.filter (fun rule => !config.disabled.contains rule.name)
      match orderProblem? Rule.catalog rules with
      | some problem => throw problem
      | none => return ⟨rules, config⟩ : Except Problem Pipeline) = .ok pipeline) :
    pipeline.config = config ∧ Accepted pipeline.rules := by
  dsimp only at hplan
  split at hplan
  · cases hplan
  · rename_i hordered
    cases hplan
    refine ⟨rfl, ⟨fun rule hrule => hsubset (List.mem_filter.mp hrule).1, ?_, hordered⟩⟩
    exact hnodup.sublist (List.filter_sublist.map Rule.name)

theorem accepted_of_ofConfig {pipeline : Pipeline} (h : ofConfig config = .ok pipeline) :
    pipeline.config = config ∧ Accepted pipeline.rules := by
  unfold ofConfig ofRules at h
  cases hunknown : firstUnknown? Rule.catalog (config.disabled ++ config.order.getD []) with
  | some name =>
    rw [hunknown] at h
    cases h
  | none =>
    rw [hunknown] at h
    cases horder : config.order with
    | none =>
      rw [horder] at h
      exact accepted_of_plan (List.Subset.refl _) (by decide) h
    | some order =>
      rw [horder] at h
      cases hselect : select Rule.catalog [] order with
      | error problem =>
        simp only [hselect] at h
        cases h
      | ok ordered =>
        simp only [hselect] at h
        rcases names_of_select hselect with ⟨hsubset, hnames, hnodup, _⟩
        exact accepted_of_plan hsubset (hnames ▸ hnodup) h

theorem findIdx?_of_nodup {rules : List Rule} (hnames : (rules.map Rule.name).Nodup) {j : Nat}
    {rule : Rule} (hj : rules[j]? = some rule) :
    rules.findIdx? (fun other => other.name == rule.name) = some j := by
  rcases List.getElem?_eq_some_iff.mp hj with ⟨hlength, hfound⟩
  apply List.findIdx?_eq_some_iff_getElem.mpr
  refine ⟨hlength, by simp [hfound], ?_⟩
  intro k hk hname
  have hlt : k < (rules.map Rule.name).length := by
    rw [List.length_map]
    exact Nat.lt_trans hk hlength
  have hsame : (rules.map Rule.name)[k]? = (rules.map Rule.name)[j]? := by
    rw [List.getElem?_map, List.getElem?_map, hj,
      List.getElem?_eq_getElem (Nat.lt_trans hk hlength)]
    exact congrArg some (beq_iff_eq.mp hname)
  exact Nat.ne_of_lt hk ((List.getElem?_inj hlt hnames).mp hsame)

end Pipeline

theorem PassM.Leaves.yields {α : Type} {lib : Liberty} {env : PassEnv} {p : Pass} {m : PassM α}
    {post : α → Pass → Prop} (h : PassM.Leaves lib env p m post) : PassM.Obtains env p m post := by
  cases hexec : m.exec env p with
  | mk result q =>
    cases result with
    | ok a => exact .of_exec hexec (h.of_ok hexec).1.toGrows (h.of_ok hexec).2
    | error fault => exact .of_exec_error hexec (h.of_error hexec).toGrows trivial

end Desugar
