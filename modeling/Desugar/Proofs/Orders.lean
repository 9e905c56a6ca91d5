import Desugar.Proofs.RunRenewal

/-!
# Orders of rules

Which orders a configuration may ask for, told without the way in which rules
are selected: every name is that of a rule, no name is listed twice, and no rule
runs before a prerequisite that runs as well.  Exactly these orders are accepted,
and the rules then run as listed.
-/

namespace Desugar
namespace Pipeline

def runNames (available : List Rule) (config : Config) : List String :=
  (config.order.getD (available.map Rule.name)).filter fun name => !config.disabled.contains name

/-- A configuration that asks for an order in which rules can run. -/
structure Orderly (available : List Rule) (config : Config) : Prop where
  disabled : ∀ name ∈ config.disabled, name ∈ available.map Rule.name
  listed : ∀ order ∈ config.order, ∀ name ∈ order, name ∈ available.map Rule.name
  once : ∀ order ∈ config.order, order.Nodup
  /-- Prerequisites of the rules that run are rules. -/
  required : ∀ rule ∈ available, rule.name ∈ runNames available config →
    ∀ name ∈ rule.requires, name ∈ available.map Rule.name
  /-- Those that run as well do not come later. -/
  ordered : ∀ rule ∈ available, ∀ name ∈ rule.requires, ∀ i j : Nat,
    (runNames available config)[i]? = some rule.name →
      (runNames available config)[j]? = some name → j ≤ i

/-!
## Names
-/

theorem any_name_iff {available : List Rule} {name : String} :
    available.any (fun rule => rule.name == name) = true ↔ name ∈ available.map Rule.name := by
  rw [List.any_eq_true, List.mem_map]
  simp only [beq_iff_eq]

theorem firstUnknown?_eq_none_iff {available : List Rule} {names : List String} :
    firstUnknown? available names = none ↔ ∀ name ∈ names, name ∈ available.map Rule.name := by
  unfold firstUnknown?
  rw [List.find?_eq_none]
  constructor
  · intro h name hname
    have hknown := h name hname
    rw [Bool.not_eq_true, Bool.not_eq_false'] at hknown
    exact any_name_iff.mp hknown
  · intro h name hname
    rw [any_name_iff.mpr (h name hname)]
    exact Bool.false_ne_true

theorem exists_select {available : List Rule} {names seen : List String}
    (hknown : ∀ name ∈ names, name ∈ available.map Rule.name) (hnodup : names.Nodup)
    (hfresh : ∀ name ∈ names, name ∉ seen) : ∃ rules, select available seen names = .ok rules := by
  induction names generalizing seen with
  | nil => exact ⟨[], rfl⟩
  | cons name rest ih =>
    rcases List.nodup_cons.mp hnodup with ⟨hname, hrest⟩
    have hfresh' : ∀ other ∈ rest, other ∉ name :: seen := by
      intro other hother hmem
      rcases List.mem_cons.mp hmem with rfl | hmem
      · exact hname hother
      · exact hfresh other (.tail _ hother) hmem
    rcases ih (fun other hother => hknown other (.tail _ hother)) hrest hfresh' with
      ⟨rules, hrules⟩
    have hunseen : seen.contains name = false := by
      rw [← Bool.not_eq_true, List.contains_iff_mem]
      exact hfresh name (.head _)
    unfold select
    cases hfind : available.find? (fun rule => rule.name == name) with
    | none =>
      have habsent := List.find?_eq_none.mp hfind
      rcases List.mem_map.mp (hknown name (.head _)) with ⟨rule, hrule, hsame⟩
      exact absurd (beq_iff_eq.mpr hsame) (habsent rule hrule)
    | some rule =>
      exists rule :: rules
      simp only [hunseen, hrules]
      rfl

/-!
## Positions
-/

section

variable {rules : List Rule}

theorem prerequisiteProblem?_eq_none_iff {available : List Rule} {rule : Rule} {i : Nat}
    {name : String} (hnames : (rules.map Rule.name).Nodup) :
    prerequisiteProblem? available rules rule i name = none ↔
      name ∈ available.map Rule.name ∧ ∀ j, (rules.map Rule.name)[j]? = some name → j ≤ i := by
  have hposition : ∀ {j : Nat}, (rules.map Rule.name)[j]? = some name →
      rules.findIdx? (fun other => other.name == name) = some j := by
    intro j hj
    rw [List.getElem?_map, Option.map_eq_some_iff] at hj
    rcases hj with ⟨other, hother, rfl⟩
    exact findIdx?_of_nodup hnames hother
  unfold prerequisiteProblem?
  by_cases hknown : available.any (fun known => known.name == name) = true
  · rw [if_pos hknown]
    constructor
    · intro h
      refine ⟨any_name_iff.mp hknown, fun j hj => ?_⟩
      rw [hposition hj] at h
      dsimp only at h
      by_contra hlater
      rw [if_pos (Nat.lt_of_not_le hlater)] at h
      cases h
    · rintro ⟨_, h⟩
      cases hfound : rules.findIdx? (fun other => other.name == name) with
      | none => rfl
      | some j =>
        rcases List.findIdx?_eq_some_iff_getElem.mp hfound with ⟨hlength, hname, _⟩
        have hj : (rules.map Rule.name)[j]? = some name := by
          rw [List.getElem?_map, List.getElem?_eq_getElem hlength]
          exact congrArg some (beq_iff_eq.mp hname)
        exact if_neg (Nat.not_lt.mpr (h j hj))
  · rw [if_neg hknown]
    constructor
    · intro h
      cases h
    · rintro ⟨h, _⟩
      exact absurd (any_name_iff.mpr h) hknown

theorem orderProblem?_eq_none_iff {available : List Rule} (hnames : (rules.map Rule.name).Nodup) :
    orderProblem? available rules = none ↔
      ∀ (i : Nat) (rule : Rule), rules[i]? = some rule → ∀ name ∈ rule.requires,
        name ∈ available.map Rule.name ∧ ∀ j, (rules.map Rule.name)[j]? = some name → j ≤ i := by
  unfold orderProblem?
  rw [List.findSome?_eq_none_iff]
  constructor
  · intro h i rule hrule name hname
    have hnone := List.findSome?_eq_none_iff.mp
      (h (rule, i) (List.mk_mem_zipIdx_iff_getElem?.mpr hrule)) name hname
    exact (prerequisiteProblem?_eq_none_iff hnames).mp hnone
  · rintro h ⟨rule, i⟩ hmem
    apply List.findSome?_eq_none_iff.mpr
    intro name hname
    exact (prerequisiteProblem?_eq_none_iff hnames).mpr
      (h i rule (List.mk_mem_zipIdx_iff_getElem?.mp hmem) name hname)

end

/-!
## Selection
-/

section

variable {available : List Rule} {config : Config}

def arrange (available : List Rule) (config : Config) : Except Problem (List Rule) :=
  match config.order with
  | none => .ok available
  | some order => select available [] order

theorem arrange_ok {ordered : List Rule} (h : arrange available config = .ok ordered) :
    ordered ⊆ available ∧
      ordered.map Rule.name = config.order.getD (available.map Rule.name) ∧
      ∀ order ∈ config.order, order.Nodup := by
  unfold arrange at h
  cases horder : config.order with
  | none =>
    rw [horder] at h
    cases h
    exact ⟨List.Subset.refl _, rfl, fun _ hmem => nomatch hmem⟩
  | some order =>
    rw [horder] at h
    rcases names_of_select h with ⟨hsubset, hnames, hnodup, _⟩
    refine ⟨hsubset, hnames, fun other hother => ?_⟩
    cases hother
    exact hnodup

theorem exists_arrange (h : Orderly available config) :
    ∃ ordered, arrange available config = .ok ordered := by
  unfold arrange
  cases horder : config.order with
  | none => exact ⟨available, rfl⟩
  | some order =>
    exact exists_select (h.listed order horder) (h.once order horder) fun _ _ hmem => nomatch hmem

def enabled (config : Config) (ordered : List Rule) : List Rule :=
  ordered.filter fun rule => !config.disabled.contains rule.name

theorem names_enabled {ordered : List Rule} (h : arrange available config = .ok ordered) :
    (enabled config ordered).map Rule.name = runNames available config := by
  have hfilter := List.filter_map (f := Rule.name) (p := fun name => !config.disabled.contains name)
    (l := ordered)
  rw [(arrange_ok h).2.1] at hfilter
  exact hfilter.symm

theorem nodup_enabled (hnames : (available.map Rule.name).Nodup) {ordered : List Rule}
    (h : arrange available config = .ok ordered) :
    ((enabled config ordered).map Rule.name).Nodup := by
  have hordered : (ordered.map Rule.name).Nodup := by
    rw [(arrange_ok h).2.1]
    cases horder : config.order with
    | none => exact hnames
    | some order => exact (arrange_ok h).2.2 order horder
  exact hordered.sublist (List.filter_sublist.map Rule.name)

def settle (available : List Rule) (config : Config) (ordered : List Rule) :
    Except Problem Pipeline :=
  match orderProblem? available (enabled config ordered) with
  | some problem => .error problem
  | none => .ok ⟨enabled config ordered, config⟩

theorem ofRules_of_known
    (h : firstUnknown? available (config.disabled ++ config.order.getD []) = none) :
    ofRules available config = (arrange available config).bind (settle available config) := by
  unfold ofRules arrange
  rw [h]
  cases config.order <;> rfl

theorem settle_eq_ok_iff {ordered : List Rule} {pipeline : Pipeline} :
    settle available config ordered = .ok pipeline ↔
      orderProblem? available (enabled config ordered) = none ∧
        pipeline = ⟨enabled config ordered, config⟩ := by
  unfold settle
  cases orderProblem? available (enabled config ordered) with
  | some problem => simp
  | none => simp [eq_comm]

theorem ofRules_eq_ok_iff {pipeline : Pipeline} : ofRules available config = .ok pipeline ↔
    firstUnknown? available (config.disabled ++ config.order.getD []) = none ∧
      ∃ ordered, arrange available config = .ok ordered ∧
        settle available config ordered = .ok pipeline := by
  cases hunknown : firstUnknown? available (config.disabled ++ config.order.getD []) with
  | some name =>
    have herror : ofRules available config = .error (unknownRule name) := by
      unfold ofRules
      rw [hunknown]
      rfl
    simp [herror]
  | none =>
    rw [ofRules_of_known hunknown]
    cases arrange available config with
    | error problem | ok ordered => simp [Except.bind]

end

/-!
## Acceptance
-/

theorem orderly_of_arrange {available : List Rule} {config : Config}
    (hnames : (available.map Rule.name).Nodup)
    (hunknown : firstUnknown? available (config.disabled ++ config.order.getD []) = none)
    {ordered : List Rule} (harrange : arrange available config = .ok ordered)
    (hproblem : orderProblem? available (enabled config ordered) = none) :
    Orderly available config := by
  have hknown := firstUnknown?_eq_none_iff.mp hunknown
  have hrun := names_enabled harrange
  have hnodup := nodup_enabled hnames harrange
  have hordered := (orderProblem?_eq_none_iff hnodup).mp hproblem
  -- a rule that runs stands where its name stands
  have hplace : ∀ rule ∈ available, ∀ i : Nat, (runNames available config)[i]? = some rule.name →
      (enabled config ordered)[i]? = some rule := by
    intro rule hrule i hi
    rw [← hrun, List.getElem?_map, Option.map_eq_some_iff] at hi
    rcases hi with ⟨other, hother, hname⟩
    have hmem : other ∈ available :=
      (arrange_ok harrange).1 (List.mem_filter.mp (List.mem_of_getElem? hother)).1
    rw [← List.inj_on_of_nodup_map hnames hmem hrule hname]
    exact hother
  constructor
  · intro name hname
    exact hknown name (List.mem_append_left _ hname)
  · intro order horder name hname
    apply hknown name (List.mem_append_right _ _)
    rw [horder]
    exact hname
  · exact (arrange_ok harrange).2.2
  · intro rule hrule hruns name hname
    rcases List.getElem?_of_mem hruns with ⟨i, hi⟩
    exact (hordered i rule (hplace rule hrule i hi) name hname).1
  · intro rule hrule name hname i j hi hj
    rw [← hrun] at hj
    exact (hordered i rule (hplace rule hrule i hi) name hname).2 j hj

theorem Orderly.orderProblem?_eq_none {available : List Rule} {config : Config}
    (h : Orderly available config) (hnames : (available.map Rule.name).Nodup)
    {ordered : List Rule} (harrange : arrange available config = .ok ordered) :
    orderProblem? available (enabled config ordered) = none := by
  have hrun := names_enabled harrange
  apply (orderProblem?_eq_none_iff (nodup_enabled hnames harrange)).mpr
  intro i rule hrule name hname
  have hmem : rule ∈ available :=
    (arrange_ok harrange).1 (List.mem_filter.mp (List.mem_of_getElem? hrule)).1
  have hi : (runNames available config)[i]? = some rule.name := by
    rw [← hrun, List.getElem?_map, hrule]
    rfl
  constructor
  · exact h.required rule hmem (List.mem_of_getElem? hi) name hname
  · intro j hj
    rw [hrun] at hj
    exact h.ordered rule hmem name hname i j hi hj

/-- Rules with different names are selected exactly if the configuration is
orderly.  They then run as listed, or as they come, without the disabled ones, and
each of them once. -/
theorem ofRules_accepts_exactly {available : List Rule} (hnames : (available.map Rule.name).Nodup)
    (config : Config) :
    ((∃ pipeline, ofRules available config = .ok pipeline) ↔ Orderly available config) ∧
      ∀ pipeline, ofRules available config = .ok pipeline →
        pipeline.config = config ∧ pipeline.rules ⊆ available ∧
        pipeline.rules.map Rule.name = runNames available config ∧
        (pipeline.rules.map Rule.name).Nodup := by
  constructor
  · constructor
    · rintro ⟨pipeline, h⟩
      rcases ofRules_eq_ok_iff.mp h with ⟨hunknown, ordered, harrange, hsettle⟩
      exact orderly_of_arrange hnames hunknown harrange (settle_eq_ok_iff.mp hsettle).1
    · intro h
      rcases exists_arrange h with ⟨ordered, harrange⟩
      exists ⟨enabled config ordered, config⟩
      have hsettle := settle_eq_ok_iff.mpr ⟨h.orderProblem?_eq_none hnames harrange, rfl⟩
      refine ofRules_eq_ok_iff.mpr ⟨?_, ordered, harrange, hsettle⟩
      apply firstUnknown?_eq_none_iff.mpr
      intro name hname
      rcases List.mem_append.mp hname with hname | hname
      · exact h.disabled name hname
      · cases horder : config.order with
        | none =>
            rw [horder] at hname
            cases hname
        | some order =>
            rw [horder] at hname
            exact h.listed order horder name hname
  · intro pipeline h
    rcases ofRules_eq_ok_iff.mp h with ⟨_, ordered, harrange, hsettle⟩
    rcases settle_eq_ok_iff.mp hsettle with ⟨_, rfl⟩
    refine ⟨rfl, ?_, names_enabled harrange, nodup_enabled hnames harrange⟩
    intro rule hrule
    exact (arrange_ok harrange).1 (List.mem_filter.mp hrule).1

end Pipeline

/-- An order with a disabled rule, and with a rule whose prerequisite does not
run. -/
def partialOrder : Config :=
  { order := some ["split-decl", "explicit-discard", "zero-value", "hoist-init"]
    disabled := ["explicit-discard"] }

theorem partialOrder_accepted :
    (Rule.catalog.map Rule.name).Nodup ∧ Pipeline.Orderly Rule.catalog partialOrder ∧
      ∃ pipeline, Pipeline.ofRules Rule.catalog partialOrder = .ok pipeline ∧
        pipeline.rules ⊆ Rule.catalog ∧
        pipeline.rules.map Rule.name = ["split-decl", "zero-value", "hoist-init"] := by
  have hnames : (Rule.catalog.map Rule.name).Nodup := by decide
  rcases Pipeline.ofRules_accepts_exactly hnames partialOrder with ⟨haccepts, hresult⟩
  have hsome : ∃ pipeline, Pipeline.ofRules Rule.catalog partialOrder = .ok pipeline := ⟨_, rfl⟩
  rcases hsome with ⟨pipeline, hpipeline⟩
  rcases hresult pipeline hpipeline with ⟨_, hsubset, hrun, _⟩
  exact ⟨hnames, haccepts.mp ⟨pipeline, hpipeline⟩, pipeline, hpipeline, hsubset, hrun⟩

end Desugar
