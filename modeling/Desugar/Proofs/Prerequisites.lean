import Desugar.Proofs.NormalForms
import Desugar.Proofs.RunRenewal
import Desugar.Proofs.Violations

/-!
# Prerequisites of rules

A rule declares which rules have to run before it.  The orders that respect the
prerequisites keep what has been reached: a rule that runs later does not break
what an earlier one established.  Two rules that move headers into statement
lists are exceptions, for they can expose values that are discarded.
-/

namespace Desugar

/-!
## Growth by basic types
-/

namespace SymbolTable

variable {old new : SymbolTable}

/-- A table that differs from another one, as far as types go, by basic types in
places that were empty. -/
def BasicallyGrown (old new : SymbolTable) : Prop :=
  ∀ id : TypeId, new.ty id = old.ty id ∨
    (old.ty id = .invalid ∧ ∃ kind, new.ty id = .basic kind)

theorem BasicallyGrown.of_append {more : List Ty}
    (happend : new.types.toList = old.types.toList ++ more)
    (hmore : ∀ type ∈ more, ∃ kind, type = .basic kind) : old.BasicallyGrown new := by
  intro id
  have hnew : new.types[id.index]? = (old.types.toList ++ more)[id.index]? := by
    rw [← happend, Array.getElem?_toList]
  by_cases hindex : id.index < old.types.size
  · left
    unfold ty
    rw [hnew, List.getElem?_append_left (by simpa using hindex), Array.getElem?_toList]
  · have hnone : old.types[id.index]? = none := Array.getElem?_eq_none (Nat.le_of_not_lt hindex)
    have hlater : new.types[id.index]? = more[id.index - old.types.toList.length]? := by
      rw [hnew, List.getElem?_append_right (by simpa using hindex)]
    unfold ty
    rw [hnone, hlater]
    cases hfound : more[id.index - old.types.toList.length]? with
    | none => exact .inl rfl
    | some type => exact .inr ⟨rfl, hmore type (List.mem_of_getElem? hfound)⟩

namespace BasicallyGrown

theorem structureOf (h : old.BasicallyGrown new) (id : TypeId) :
    new.structureOf id = old.structureOf id ∨
      (old.structureOf id = .invalid ∧ ∃ kind, new.structureOf id = .basic kind) := by
  unfold SymbolTable.structureOf underlying
  generalize nestingLimit = limit
  induction limit generalizing id with
  | zero => exact h id
  | succ limit ih =>
    unfold followNamed
    rcases h id with hsame | ⟨hold, kind, hnew⟩
    · rw [hsame]
      cases hfound : old.ty id with
      | named package name next args =>
        cases next with
        | none => exact h id
        | some next => exact ih next
      | _ => exact h id
    · rw [hold, hnew]
      exact h id

theorem pointerElem (h : old.BasicallyGrown new) : new.pointerElem = old.pointerElem := by
  funext id
  unfold SymbolTable.pointerElem
  rcases h.structureOf id with hsame | ⟨hold, kind, hnew⟩
  · rw [hsame]
  · rw [hold, hnew]

theorem isPointerToArray (h : old.BasicallyGrown new) :
    new.isPointerToArray = old.isPointerToArray := by
  have hisArray : new.isArray = old.isArray := by
    funext id
    unfold isArray
    rcases h.structureOf id with hsame | ⟨hold, kind, hnew⟩
    · rw [hsame]
    · rw [hold, hnew]
  funext id
  unfold SymbolTable.isPointerToArray
  rw [h.pointerElem, hisArray]

theorem fieldsOf (h : old.BasicallyGrown new) : new.fieldsOf = old.fieldsOf := by
  funext id
  unfold SymbolTable.fieldsOf
  rcases h.structureOf id with hsame | ⟨hold, kind, hnew⟩
  · rw [hsame]
  · rw [hold, hnew]

theorem searchLevel (h : old.BasicallyGrown new) (name : String) (level next : List FieldTrail)
    (seen : List TypeId) :
    new.searchLevel name level next seen = old.searchLevel name level next seen := by
  induction level generalizing next seen with
  | nil => rfl
  | cons trail rest ih =>
    unfold SymbolTable.searchLevel
    rw [h.pointerElem, h.fieldsOf]
    simp only [ih]

theorem searchFields (h : old.BasicallyGrown new) (name : String) (limit : Nat)
    (level : List FieldTrail) (seen : List TypeId) :
    new.searchFields name limit level seen = old.searchFields name limit level seen := by
  induction limit generalizing level seen with
  | zero => rfl
  | succ limit ih =>
    unfold SymbolTable.searchFields
    simp only [h.searchLevel, ih]

theorem fieldPath (h : old.BasicallyGrown new) : new.fieldPath = old.fieldPath := by
  funext id name
  exact h.searchFields name _ _ _

theorem implicitDeref (h : old.BasicallyGrown new) : new.implicitDeref = old.implicitDeref := by
  funext id name
  unfold SymbolTable.implicitDeref
  rw [h.pointerElem, h.fieldPath]

end BasicallyGrown
end SymbolTable

/-!
## Entries that stay intact
-/

/-- A state whose file and table use identities that are drawn. -/
structure Pass.Numbered (p : Pass) : Prop where
  table : p.Drawn
  file : ∀ id ∈ p.file.ids, id.Below p.ids.count

/-- What the types of expressions tell about pointers does not change during the
pass. -/
def Pass.KeepsPointers (lib : Liberty) (p : Pass) : Prop :=
  ∀ q, p.Evolves lib q → ∀ (node : NodeId) (ty : TypeId), p.table.exprTypes[node]? = some ty →
    q.table.isPointerToArray ty = p.table.isPointerToArray ty ∧
      ∀ name, q.table.implicitDeref ty name = p.table.implicitDeref ty name

namespace Pass

variable {lib : Liberty} {p : Pass}

theorem KeepsPointers.of_closed (h : p.table.Closed) : p.KeepsPointers lib := by
  intro q hq node ty hty
  have hhas := h.exprTypes node ty hty
  exact ⟨SymbolTable.isPointerToArray_eq_of_hasType h hq.toGrows.table hhas,
    SymbolTable.implicitDeref_eq_of_hasType h hq.toGrows.table hhas⟩

theorem KeepsPointers.of_basic (h : ∀ type, lib.adds type → ∃ kind, type = .basic kind) :
    p.KeepsPointers lib := by
  intro q hq node ty _
  rcases hq.added with ⟨more, hmore, hadds⟩
  have hgrown := SymbolTable.BasicallyGrown.of_append hmore fun type htype =>
    h type (hadds type htype)
  rw [hgrown.isPointerToArray, hgrown.implicitDeref]
  exact ⟨rfl, fun _ => rfl⟩

end Pass

theorem Property.consults_plain (property : Property) (id : NodeId) :
    property.consults ⟨id, .plain⟩ = [] := by
  cases property <;> rfl

theorem Node.consults_subset {property : Property} {n : Node} {entry : Entry}
    (h : entry ∈ n.entries) :
    property.consults entry ⊆ n.stmt?.elim n.shownIds Stmt.discards := by
  have hplain : ∀ ids, entry ∈ plainEntries ids →
      property.consults entry ⊆ n.stmt?.elim n.shownIds Stmt.discards := by
    intro ids hids
    rcases List.mem_map.mp hids with ⟨id, _, rfl⟩
    rw [property.consults_plain]
    exact List.nil_subset _
  have hstmt : ∀ (s : Stmt) (listed : Bool), entry = ⟨s.id, s.kind listed⟩ →
      property.consults entry ⊆ s.discards := by
    rintro s listed rfl
    cases property with
    | explicitDiscard => exact (s.consults_discard listed s.id) ▸ List.Subset.refl _
    | _ => cases s <;> exact List.nil_subset _
  have hspec : ∀ (isVar : Bool) (spec : Spec), entry ∈ Spec.entries isVar spec →
      property.consults entry = [] := by
    intro isVar spec hentry
    cases spec with
    | value spec =>
      rcases List.mem_cons.mp hentry with rfl | hentry
      · cases isVar <;> cases property <;> rfl
      · rcases List.mem_map.mp hentry with ⟨id, _, rfl⟩
        exact property.consults_plain id
    | type spec =>
      cases List.mem_singleton.mp hentry
      exact property.consults_plain _
  cases n with
  | expr e =>
    rcases List.mem_cons.mp h with rfl | h
    · cases e with
      | index id x y | slice id x low high max =>
        cases property with
        | explicitDeref => exact List.subset_cons_self _ _
        | _ => exact List.nil_subset _
      | selector id x name =>
        cases property with
        | explicitDeref => exact List.Subset.refl _
        | _ => exact List.nil_subset _
      | unary id op x =>
        cases op <;> cases property <;> exact List.nil_subset _
      | _ => cases property <;> exact List.nil_subset _
    · exact hplain _ h
  | stmt s | header s =>
    rcases List.mem_cons.mp h with hself | h
    · exact hstmt s _ hself
    · exact hplain _ h
  | decl d top =>
    rcases List.mem_cons.mp h with rfl | h
    · rw [property.consults_plain]
      exact List.nil_subset _
    · rcases List.mem_flatMap.mp h with ⟨spec, _, hentry⟩
      rw [hspec _ spec hentry]
      exact List.nil_subset _
  | func fn => exact hplain _ h
  | block b => exact hplain [b.id] h

theorem OptStmt.mem_operands {s : Option Stmt} {operand : NodeId}
    (h : operand ∈ OptStmt.operands s) : ∃ id x, s = some (.expr id x) ∧ operand = x.id := by
  cases s with
  | none => cases h
  | some s =>
    cases s with
    | expr id x => exact ⟨id, x, rfl, List.mem_singleton.mp h⟩
    | _ => cases h

theorem File.discards_subset {file : File} {s : Stmt}
    (hs : .stmt s ∈ file.nodes ∨ .header s ∈ file.nodes) : s.discards ⊆ file.ids := by
  intro operand hoperand
  have hheader : ∀ clause, operand ∈ OptStmt.operands clause →
      OptStmt.headerNodes clause ⊆ s.parts → operand ∈ file.ids := by
    intro clause hclause hparts
    rcases OptStmt.mem_operands hclause with ⟨id, x, rfl, rfl⟩
    have hnode := File.parts_subset hs (hparts (.head _))
    exact file.layout.inside _ hnode _ (.tail _ (.head _))
  cases s with
  | expr id x =>
    cases List.mem_singleton.mp hoperand
    rcases hs with hs | hs <;> exact file.layout.inside _ hs _ (.tail _ (.head _))
  | ifElse id init cond body els | switch id init tag clauses | typeSwitch id init guard clauses =>
    exact hheader init hoperand (by simp [Stmt.parts])
  | forLoop id init cond post body =>
    rcases List.mem_append.mp hoperand with hoperand | hoperand
    · exact hheader init hoperand (by simp [Stmt.parts])
    · exact hheader post hoperand (by intro n hn; simp [Stmt.parts, hn])
  | _ => cases hoperand

theorem SymbolTable.producesValue_of_grows {p q : Pass} (hq : p.Grows q) {operand : NodeId}
    (hbelow : operand.Below p.ids.count) (h : p.table.producesValue operand = false) :
    q.table.producesValue operand = false := by
  unfold producesValue at h ⊢
  rw [hq.table.exprTypes operand hbelow]
  cases hty : p.table.exprTypes[operand]? with
  | none =>
    rw [hty] at h
    exact h
  | some ty =>
    rw [hty] at h
    have htuple : p.table.ty ty = .tuple [] := by simpa using h
    have hkept := SymbolTable.ty_of_extends hq.table htuple (by simp)
    simp [hkept]

theorem Pass.Numbered.spared {lib : Liberty} {p : Pass} (h : p.Numbered) {property : Property}
    (hpointers : property = .explicitDeref → p.KeepsPointers lib) {entry : Entry}
    (hentry : entry ∈ inventory p.file.nodes)
    (hintact : property.breaks lib.lifts p.table entry = false) :
    entry.Spared lib property p := by
  have hknown : ∀ id ∈ property.consults entry, id.Below p.ids.count := by
    intro id hid
    rcases mem_inventory.mp hentry with ⟨n, hn, hown⟩
    have hconsulted := Node.consults_subset hown hid
    cases n with
    | stmt s => exact h.file id (File.discards_subset (.inl hn) hconsulted)
    | header s => exact h.file id (File.discards_subset (.inr hn) hconsulted)
    | _ => exact h.file id (p.file.layout.inside _ hn id hconsulted)
  refine ⟨hknown, fun q hq => ?_⟩
  rcases entry with ⟨id, kind⟩
  cases property with
  | explicitDeref =>
    have hpointers := hpointers rfl q hq
    cases kind with
    | access operand =>
      have hsame := hq.toGrows.table.exprTypes operand (hknown operand (.head _))
      simp only [Property.breaks] at hintact ⊢
      rw [hsame]
      cases hty : p.table.exprTypes[operand]? with
      | none => rfl
      | some ty =>
        rw [hty] at hintact
        exact (hpointers operand ty hty).1.trans hintact
    | field operand name =>
      have hselection := hq.toGrows.table.selections id (hknown id (.head _))
      have hsame := hq.toGrows.table.exprTypes operand (hknown operand (.tail _ (.head _)))
      simp only [Property.breaks] at hintact ⊢
      rw [hselection, hsame]
      cases hty : p.table.exprTypes[operand]? with
      | none => exact Bool.and_false _
      | some ty =>
        rw [hty] at hintact
        rw [Option.any_some] at hintact ⊢
        rw [(hpointers operand ty hty).2 name]
        exact hintact
    | _ => rfl
  | explicitDiscard =>
    cases kind with
    | value listed operand =>
      cases listed with
      | false => rfl
      | true =>
        have hvalue : p.table.producesValue operand = false := by
          simpa [Property.breaks] using hintact
        have hkept := SymbolTable.producesValue_of_grows hq.toGrows (hknown _ (.head _)) hvalue
        simp [Property.breaks, hkept]
    | control init tagless operands | loop clauses operands =>
      simp only [Property.breaks, Bool.and_eq_false_iff, List.any_eq_false,
        Bool.not_eq_true] at hintact ⊢
      exact hintact.imp_right fun hnone operand hoperand =>
        SymbolTable.producesValue_of_grows hq.toGrows (hknown _ hoperand) (hnone operand hoperand)
    | _ => rfl
  | _ => cases kind <;> exact hintact

/-!
## Orders
-/

namespace Rule

theorem eq_of_name {first second : Rule} (hfirst : first ∈ catalog) (hsecond : second ∈ catalog)
    (h : first.name = second.name) : first = second :=
  List.inj_on_of_nodup_map (by decide) hfirst hsecond h

theorem eq_of_establishes {first second : Rule} (hfirst : first ∈ catalog)
    (hsecond : second ∈ catalog) {property : Property} (h : property ∈ first.establishes)
    (h' : property ∈ second.establishes) : first = second := by
  have hnames : ∀ first ∈ catalog, ∀ second ∈ catalog, ∀ property ∈ first.establishes,
      property ∈ second.establishes → first.name = second.name := by
    decide
  exact eq_of_name hfirst hsecond (hnames first hfirst second hsecond property h h')

/-- Whether some accepted order of all rules runs one rule before another. -/
def MayPrecede (first second : Rule) : Prop :=
  ∃ (config : Config) (pipeline : Pipeline) (i j : Nat),
    Pipeline.ofConfig config = .ok pipeline ∧ catalog ⊆ pipeline.rules ∧ i < j ∧
      pipeline.rules[i]? = some first ∧ pipeline.rules[j]? = some second

end Rule

namespace Pipeline.Accepted

variable {rules : List Rule}

theorem le_of_requires (h : Accepted rules) {i j : Nat} {rule required : Rule}
    (hi : rules[i]? = some rule) (hj : rules[j]? = some required)
    (hrequires : required.name ∈ rule.requires) : j ≤ i := by
  have hrule := List.findSome?_eq_none_iff.mp h.ordered (rule, i)
    (List.mk_mem_zipIdx_iff_getElem?.mpr hi)
  have hnone := List.findSome?_eq_none_iff.mp hrule required.name hrequires
  have hknown : Rule.catalog.any (fun known => known.name == required.name) = true :=
    List.any_eq_true.mpr ⟨required, h.subset (List.mem_of_getElem? hj), beq_self_eq_true _⟩
  unfold prerequisiteProblem? at hnone
  rw [if_pos hknown, findIdx?_of_nodup h.nodup hj] at hnone
  by_contra hlater
  dsimp only at hnone
  rw [if_pos (Nat.lt_of_not_le hlater)] at hnone
  cases hnone

end Pipeline.Accepted

namespace Rule.MayPrecede

variable {first second : Rule}

theorem mem_catalog (h : first.MayPrecede second) : first ∈ catalog ∧ second ∈ catalog := by
  rcases h with ⟨config, pipeline, i, j, hconfig, _, _, hi, hj⟩
  have hsubset := (Pipeline.accepted_of_ofConfig hconfig).2.subset
  exact ⟨hsubset (List.mem_of_getElem? hi), hsubset (List.mem_of_getElem? hj)⟩

theorem ne (h : first.MayPrecede second) : first.name ≠ second.name := by
  rcases h with ⟨config, pipeline, i, j, hconfig, _, hlt, hi, hj⟩
  have haccepted := (Pipeline.accepted_of_ofConfig hconfig).2
  intro hname
  have hfirst := Pipeline.findIdx?_of_nodup haccepted.nodup hi
  rw [hname, Pipeline.findIdx?_of_nodup haccepted.nodup hj] at hfirst
  cases hfirst
  exact Nat.lt_irrefl _ hlt

theorem not_requires (h : first.MayPrecede second) : second.name ∉ first.requires := by
  rcases h with ⟨config, pipeline, i, j, hconfig, _, hlt, hi, hj⟩
  have haccepted := (Pipeline.accepted_of_ofConfig hconfig).2
  intro hrequires
  exact Nat.not_lt.mpr (haccepted.le_of_requires hi hj hrequires) hlt

theorem of_requires (h : first.MayPrecede second) {required : Rule} (hmem : required ∈ catalog)
    (hrequires : required.name ∈ first.requires) : required.MayPrecede second := by
  rcases h with ⟨config, pipeline, i, j, hconfig, hall, hlt, hi, hj⟩
  rcases List.getElem?_of_mem (hall hmem) with ⟨k, hk⟩
  have hle := (Pipeline.accepted_of_ofConfig hconfig).2.le_of_requires hi hk hrequires
  exact ⟨config, pipeline, k, j, hconfig, hall, Nat.lt_of_le_of_lt hle hlt, hk, hj⟩

end Rule.MayPrecede

theorem Rule.spoils_cases : ∀ first ∈ catalog, ∀ second ∈ catalog,
    ∀ property ∈ first.establishes, property ∈ second.spoils →
      first.name = second.name ∨ second.name ∈ first.requires ∨
      ∃ required ∈ catalog, required.name ∈ first.requires ∧ second.name ∈ required.requires := by
  decide

theorem Rule.MayPrecede.not_spoils {first second : Rule} (h : first.MayPrecede second)
    {property : Property} (hproperty : property ∈ first.establishes) :
    property ∉ second.spoils := by
  rcases h.mem_catalog with ⟨hfirst, hsecond⟩
  intro hspoils
  rcases spoils_cases first hfirst second hsecond property hproperty hspoils with
    hsame | hrequires | ⟨required, hrequired, hbefore, hrequires⟩
  · exact h.ne hsame
  · exact h.not_requires hrequires
  · exact (h.of_requires hrequired hbefore).not_requires hrequires

/-!
## Steps
-/

def Rule.lifting (rule : Rule) : Lifting :=
  rule.establishes.contains

/-- What the passes of a rule may do: only splitting assignments adds types that
are not basic. -/
def Rule.liberty (rule : Rule) : Liberty :=
  ⟨True, fun type => .singleTargetAssign ∈ rule.establishes ∨ ∃ kind, type = .basic kind,
    rule.lifting, False⟩

namespace Progress

variable {progress : Progress} {rule : Rule} {outcome : Outcome} {stats : PassStats}
  {diagnostics : List Diagnostic}

theorem unavailable_subset_addPass :
    progress.unavailable ⊆ (progress.addPass rule outcome stats diagnostics).unavailable := by
  unfold unavailable addPass
  rw [List.filter_append, List.map_append]
  exact List.subset_append_left _ _

theorem mem_unavailable_addPass (h : (outcome == .applied) = false) :
    rule.name ∈ (progress.addPass rule outcome stats diagnostics).unavailable := by
  simp [unavailable, addPass, PassReport.isApplied, h]

theorem unavailable_addPass_applied :
    (progress.addPass rule .applied stats diagnostics).unavailable = progress.unavailable := by
  simp [unavailable, addPass, PassReport.isApplied]

end Progress

namespace Pipeline

variable {config : Config} {view : PackageView} {rule : Rule} {progress next left : Progress}

theorem step_ok_cases (h : step config view progress rule = (.ok next, left)) :
    (next.file = progress.file ∧ next.table = progress.table ∧ rule.name ∈ next.unavailable ∧
      progress.unavailable ⊆ next.unavailable) ∨
    (rule.requires.find? progress.unavailable.contains = none ∧ ∃ changes q,
      (rule.pass config).exec ⟨rule.name, view, config.tempStem⟩ progress.start =
        (.ok changes, q) ∧ next.start = q.renew ∧ next.unavailable = progress.unavailable) := by
  cases stepEnds h with
  | skipped _ hnext | undone _ _ _ hnext =>
    subst hnext
    exact .inl ⟨rfl, rfl, Progress.mem_unavailable_addPass rfl,
      Progress.unavailable_subset_addPass⟩
  | applied hready hpass hnext =>
    subst hnext
    exact .inr ⟨hready, _, _, hpass, rfl, Progress.unavailable_addPass_applied⟩

theorem step_keeps_spared (hrule : rule ∈ Rule.catalog) (hdrawn : progress.start.Drawn)
    {property : Property} (hspoils : property ∉ rule.spoils)
    (hspared : ∀ entry ∈ inventory progress.file.nodes,
      entry.Spared rule.liberty property progress.start)
    (hstep : step config view progress rule = (.ok next, left)) :
    ∀ entry ∈ inventory next.file.nodes,
      property.breaks rule.lifting next.table entry = false := by
  rcases step_ok_cases hstep with ⟨hfile, htable, _⟩ | ⟨_, changes, q, hexec, hnext, _⟩
  · rw [hfile, htable]
    intro entry hentry
    exact (hspared entry hentry).intact progress.start (.refl progress.start)
  · have hrenews : rule.Renews rule.liberty (fun kept => kept ∉ rule.spoils)
        ⟨rule.name, view, config.tempStem⟩ progress.start :=
      Rule.renews_of_mem_catalog hrule (fun _ => trivial) (fun kind => Or.inr ⟨kind, rfl⟩)
        (fun hassign _ => Or.inl hassign)
        (fun _ hmem => List.elem_eq_true_of_mem hmem) (fun _ hmem hkept => hkept hmem) _ hdrawn
    rcases (hrenews.leaves_pass config).of_ok hexec with ⟨_, hrenewed⟩
    have hfile : next.file = q.file := congrArg Pass.file hnext
    have htable : next.table = q.table := congrArg Pass.table hnext
    rw [hfile, htable]
    intro entry hentry
    exact (hrenewed.nodes.spared property hspoils hspared entry hentry).intact q (.refl q)

theorem step_keeps_property (hrule : rule ∈ Rule.catalog) (hnumbered : progress.start.Numbered)
    {property : Property} (hspoils : property ∉ rule.spoils)
    (hpointers : property = .explicitDeref → progress.start.KeepsPointers rule.liberty)
    (hintact : ∀ entry ∈ inventory progress.file.nodes,
      property.breaks rule.lifting progress.table entry = false)
    (hstep : step config view progress rule = (.ok next, left)) :
    ∀ entry ∈ inventory next.file.nodes,
      property.breaks rule.lifting next.table entry = false :=
  step_keeps_spared hrule hnumbered.table hspoils
    (fun entry hentry => hnumbered.spared hpointers hentry (hintact entry hentry)) hstep

end Pipeline

namespace Property

variable {table : SymbolTable}

theorem breaks_lifts {property : Property} (hdiscard : property ≠ .explicitDiscard)
    (lifts : Lifting) (entry : Entry) :
    property.breaks lifts table entry = property.breaks .none table entry := by
  rcases entry with ⟨id, kind⟩
  cases property with
  | explicitDiscard => exact absurd rfl hdiscard
  | _ => cases kind <;> rfl

theorem breaks_of_lifts {property : Property} {lifts : Lifting} {entry : Entry}
    (h : property.breaks lifts table entry = false) :
    property.breaks .none table entry = false := by
  by_cases hdiscard : property = .explicitDiscard
  · subst hdiscard
    rcases entry with ⟨id, kind⟩
    cases kind with
    | value listed operand => exact h
    | _ => rfl
  · rwa [breaks_lifts hdiscard] at h

end Property

/-- The headers of a statement that are lifted into a statement list. -/
def Stmt.lifted (lifts : Lifting) : Stmt → List Stmt
  | .ifElse _ init _ _ _ | .switch _ init _ _ | .typeSwitch _ init _ _ =>
    if lifts .noControlInit then init.toList else []
  | .forLoop _ init _ post _ =>
    if lifts .noThreeClauseLoop then init.toList ++ post.toList else []
  | _ => []

theorem Stmt.breaks_discard_of_lifted {lifts : Lifting} {table : SymbolTable} {s : Stmt}
    {listed : Bool} {id : NodeId}
    (h : Property.explicitDiscard.breaks .none table ⟨id, s.kind listed⟩ = false)
    (hlifted : ∀ header ∈ s.lifted lifts, header.discardsValue table = false) :
    Property.explicitDiscard.breaks lifts table ⟨id, s.kind listed⟩ = false := by
  have hclause : ∀ clause, (∀ header ∈ clause, header ∈ s.lifted lifts) →
      (OptStmt.operands clause).any table.producesValue = false := by
    intro clause hmem
    simp only [List.any_eq_false, Bool.not_eq_true]
    intro operand hoperand
    rcases OptStmt.mem_operands hoperand with ⟨id, x, rfl, rfl⟩
    exact hlifted _ (hmem _ rfl)
  rw [s.breaks_discard] at h ⊢
  cases s with
  | expr id x => exact h
  | ifElse id init cond body els | switch id init tag clauses | typeSwitch id init guard clauses =>
    cases hlifts : lifts .noControlInit with
    | false => simp [exposes, hlifts]
    | true => simp [discards, hclause init (by simp [lifted, hlifts])]
  | forLoop id init cond post body =>
    cases hlifts : lifts .noThreeClauseLoop with
    | false => simp [exposes, hlifts]
    | true =>
      have hinit := hclause init (by simp +contextual [lifted, hlifts])
      have hpost := hclause post (by simp +contextual [lifted, hlifts])
      rw [discards, List.any_append, hinit, hpost]
      exact Bool.and_false _
  | _ => rfl

theorem Property.breaks_discard_of_lifted {lifts : Lifting} {table : SymbolTable} {file : File}
    (h : ∀ entry ∈ inventory file.nodes, Property.explicitDiscard.breaks .none table entry = false)
    (hlifted : ∀ n ∈ file.nodes, ∀ s ∈ n.stmt?, ∀ header ∈ s.lifted lifts,
      header.discardsValue table = false) :
    ∀ entry ∈ inventory file.nodes, Property.explicitDiscard.breaks lifts table entry = false := by
  intro entry hentry
  rcases mem_inventory.mp hentry with ⟨n, hn, hown⟩
  have hplain : ∀ ids, entry ∈ plainEntries ids →
      Property.explicitDiscard.breaks lifts table entry = false := by
    intro ids hids
    rcases List.mem_map.mp hids with ⟨id, _, rfl⟩
    rfl
  cases n with
  | expr e =>
    rcases List.mem_cons.mp hown with rfl | hown
    · exact breaks_expr (by simp) e
    · exact hplain _ hown
  | stmt s | header s =>
    rcases List.mem_cons.mp hown with rfl | hown
    · exact Stmt.breaks_discard_of_lifted (h _ hentry) (hlifted _ hn s rfl)
    · exact hplain _ hown
  | decl d top =>
    rcases List.mem_cons.mp hown with rfl | hown
    · rfl
    · rcases List.mem_flatMap.mp hown with ⟨spec, _, hspec⟩
      cases spec with
      | value spec =>
        rcases List.mem_cons.mp hspec with rfl | hspec
        · cases d.isVar <;> rfl
        · exact hplain _ hspec
      | type spec =>
        cases List.mem_singleton.mp hspec
        rfl
  | func fn => exact hplain _ hown
  | block b => exact hplain [b.id] hown

/-- If some accepted order of all rules runs one rule before another, a step of
the second keeps what the first established.  Where that is the absence of discarded
values, no header that the second lifts into a statement list may discard one, and the
types have to be closed where splitting an assignment adds pointers. -/
theorem Pipeline.step_keeps_established {first second : Rule} (hpair : first.MayPrecede second)
    {config : Config} {view : PackageView} {progress next left : Progress}
    (hnumbered : progress.start.Numbered)
    (hheaders : first = .explicitDiscard → ∀ n ∈ progress.file.nodes, ∀ s ∈ n.stmt?,
      ∀ header ∈ s.lifted second.lifting, header.discardsValue progress.table = false)
    (htypes : first = .explicitDeref → second = .parallelAssign → progress.table.Closed)
    (hcheck : progress.file.check progress.table first.establishes = [])
    (hstep : step config view progress second = (.ok next, left)) :
    next.file.check next.table first.establishes = [] := by
  rcases hpair.mem_catalog with ⟨hfirst, hsecond⟩
  rw [File.check_eq_nil_iff] at hcheck ⊢
  intro property hproperty entry hentry
  apply Property.breaks_of_lifts
  refine step_keeps_property hsecond hnumbered (hpair.not_spoils hproperty) ?_ ?_ hstep entry hentry
  · rintro rfl
    have hderef : first = .explicitDeref :=
      Rule.eq_of_establishes hfirst (by simp [Rule.catalog]) hproperty (.head _)
    by_cases hassign : .singleTargetAssign ∈ second.establishes
    · have hparallel : second = .parallelAssign :=
        Rule.eq_of_establishes hsecond (by simp [Rule.catalog]) hassign (.head _)
      exact .of_closed (htypes hderef hparallel)
    · exact .of_basic fun type hadds => hadds.resolve_left hassign
  · by_cases hdiscard : property = .explicitDiscard
    · subst hdiscard
      have hfirst' : first = .explicitDiscard :=
        Rule.eq_of_establishes hfirst (by simp [Rule.catalog]) hproperty (.head _)
      exact Property.breaks_discard_of_lifted (hcheck _ hproperty) (hheaders hfirst')
    · intro entry hentry
      rw [Property.breaks_lifts hdiscard]
      exact hcheck property hproperty entry hentry

/-- The start of a run on a file, before names are reserved. -/
def Progress.begin (file : File) (table : SymbolTable) (ids : NodeSupply) : Progress :=
  ⟨file, table, ids, ⟨[], []⟩⟩

theorem Progress.begin_numbered {file : File} {table : SymbolTable} {ids : NodeSupply}
    (h : NodeSupply.after? (file.maxId.larger table.maxNode) = some ids) :
    (begin file table ids).start.Numbered := by
  rcases Progress.start_drawn [] h with ⟨hdrawn, hbelow⟩
  exact ⟨hdrawn, hbelow⟩

def arrayArena : Array Ty :=
  #[.basic .int, .array 3 ⟨0⟩, .array 3 ⟨0⟩]

theorem swapTable_arrayArena_closed : (swapTable arrayArena).Closed := by
  constructor
  · simp [swapTable, arrayArena, Ty.mentions, SymbolTable.HasType]
  · exact swapTable_closed.exprTypes

theorem swap_keeps_established :
    ∃ next left, Rule.explicitDeref.MayPrecede .parallelAssign ∧
      (Progress.begin swapFile (swapTable arrayArena) ⟨16⟩).start.Numbered ∧
      (swapTable arrayArena).Closed ∧
      swapFile.check (swapTable arrayArena) Rule.explicitDeref.establishes = [] ∧
      Pipeline.step {} (.ofFile swapFile) (.begin swapFile (swapTable arrayArena) ⟨16⟩)
        .parallelAssign = (.ok next, left) ∧
      next.file.check next.table Rule.explicitDeref.establishes = [] := by
  have hpair : Rule.explicitDeref.MayPrecede .parallelAssign :=
    ⟨{}, .default, 0, 8, rfl, List.Subset.refl _, by decide, rfl, rfl⟩
  have hnumbered := Progress.begin_numbered (after?_swapFile arrayArena)
  have hcheck : swapFile.check (swapTable arrayArena) Rule.explicitDeref.establishes = [] := by
    decide +kernel
  have hok : (Pipeline.step {} (.ofFile swapFile) (.begin swapFile (swapTable arrayArena) ⟨16⟩)
      .parallelAssign).1.toOption.isSome = true := by
    decide +kernel
  cases hstep : Pipeline.step {} (.ofFile swapFile) (.begin swapFile (swapTable arrayArena) ⟨16⟩)
      .parallelAssign with
  | mk result left =>
      rw [hstep] at hok
      cases result with
      | error fault => cases hok
      | ok next =>
          refine ⟨next, left, hpair, hnumbered, swapTable_arrayArena_closed, hcheck, rfl, ?_⟩
          exact Pipeline.step_keeps_established hpair hnumbered
            (fun hdiscard => absurd (congrArg Rule.name hdiscard) (by decide))
            (fun _ _ => swapTable_arrayArena_closed) hcheck hstep

/-!
## Steps that break what was established
-/

/-- A clean step on a well-formed file that breaks what an earlier rule may have
established. -/
structure Rule.Undoes (second first : Rule) (progress : Progress) : Prop where
  precedes : first.MayPrecede second
  numbered : progress.start.Numbered
  wellFormed : progress.file.WellFormed progress.table
  before : progress.file.check progress.table first.establishes = []
  after : ∃ next left, Pipeline.step {} (.ofFile progress.file) progress second = (.ok next, left) ∧
    next.report.success = true ∧ next.report.diagnostics = [] ∧
    next.file.check next.table first.establishes ≠ []

theorem Rule.Undoes.of_step {second first : Rule} {progress : Progress}
    (hprecedes : first.MayPrecede second) (hnumbered : progress.start.Numbered)
    (hwellFormed : progress.file.WellFormed progress.table)
    (hbefore : progress.file.check progress.table first.establishes = [])
    (hafter : (Pipeline.step {} (.ofFile progress.file) progress second).1.toOption.any (fun next =>
      next.report.success && next.report.diagnostics.isEmpty &&
        !(next.file.check next.table first.establishes).isEmpty) = true) :
    second.Undoes first progress := by
  refine ⟨hprecedes, hnumbered, hwellFormed, hbefore, ?_⟩
  cases hstep : Pipeline.step {} (.ofFile progress.file) progress second with
  | mk result left =>
    rw [hstep] at hafter
    cases result with
    | error fault => cases hafter
    | ok next =>
      have hnext : (next.report.success = true ∧ next.report.diagnostics = []) ∧
          next.file.check next.table first.establishes ≠ [] := by
        simpa [Except.toOption] using hafter
      exact ⟨next, left, rfl, hnext.1.1, hnext.1.2, hnext.2⟩

def lonelyFile (s : Stmt) : File :=
  ⟨⟨0⟩, "main", "", [], [.func ⟨⟨1⟩, ⟨⟨2⟩, "main"⟩, none, ⟨[], [], false⟩, some ⟨⟨3⟩, [s]⟩⟩]⟩

def bareCall : Stmt :=
  .expr ⟨5⟩ (.call ⟨6⟩ (.ident ⟨7⟩ "f") [] false)

def callInit : Stmt :=
  .ifElse ⟨4⟩ (some bareCall) (.ident ⟨8⟩ "c") ⟨⟨9⟩, []⟩ none

def callPost : Stmt :=
  .forLoop ⟨4⟩ none (some (.ident ⟨8⟩ "c")) (some bareCall) ⟨⟨9⟩, []⟩

def callTable : SymbolTable :=
  { SymbolTable.empty with
    types := #[.basic .int]
    exprTypes := (∅ : NodeMap TypeId).insert ⟨6⟩ ⟨0⟩
    scopeOf := ((∅ : NodeMap ScopeId).insert ⟨4⟩ ⟨0⟩).insert ⟨9⟩ ⟨0⟩ }

def discardFirst : Config :=
  { order := some ["explicit-discard", "explicit-deref", "switch-tag", "hoist-init", "for-loop",
      "split-decl", "explicit-type", "zero-value", "short-decl", "parallel-assign"] }

def discardPipeline : Pipeline :=
  ⟨[Rule.explicitDiscard, Rule.explicitDeref, Rule.switchTag, Rule.hoistInit, Rule.forLoop,
    Rule.splitDecl, Rule.explicitType, Rule.zeroValue, Rule.shortDecl, Rule.parallelAssign],
    discardFirst⟩

theorem catalog_subset_discardPipeline : Rule.catalog ⊆ discardPipeline.rules := by
  intro rule hrule
  simp only [Rule.catalog, List.mem_cons, List.not_mem_nil, or_false] at hrule
  simp only [discardPipeline, List.mem_cons, List.not_mem_nil, or_false]
  tauto

theorem explicitDiscard_mayPrecede {second : Rule} {j : Nat} (hj : 0 < j)
    (h : discardPipeline.rules[j]? = some second) : Rule.explicitDiscard.MayPrecede second :=
  ⟨discardFirst, discardPipeline, 0, j, rfl, catalog_subset_discardPipeline, hj, rfl, h⟩

theorem callInit_numbered :
    (Progress.begin (lonelyFile callInit) callTable ⟨10⟩).start.Numbered := by
  apply Progress.begin_numbered
  apply NodeSupply.after?_of_largest 9
  · decide
  · decide +kernel
  · decide +kernel
  · decide +kernel

theorem callPost_numbered :
    (Progress.begin (lonelyFile callPost) callTable ⟨10⟩).start.Numbered := by
  apply Progress.begin_numbered
  apply NodeSupply.after?_of_largest 9
  · decide
  · decide +kernel
  · decide +kernel
  · decide +kernel

theorem lonelyFile_wellFormed {s : Stmt} (h : s = callInit ∨ s = callPost) :
    (lonelyFile s).WellFormed callTable := by
  rcases h with rfl | rfl
  all_goals
    constructor
    · simp [lonelyFile, callInit, callPost, bareCall, File.nodes, TopDecl.nodes, Block.nodes,
        Stmts.nodes, Stmt.parts, OptStmt.headerNodes, OptStmt.nodes, OptExpr.nodes, Exprs.nodes,
        Expr.nodes, Node.WellFormed, Stmt.WellFormed, Stmt.isSimple]
    · simp [lonelyFile, callInit, callPost, bareCall, File.nodes, TopDecl.nodes, Block.nodes,
        Stmts.nodes, Stmt.parts, OptStmt.headerNodes, OptStmt.nodes, OptExpr.nodes, Exprs.nodes,
        Expr.nodes, Node.Direct, Expr.Direct, callTable, SymbolTable.empty]

/-- The prerequisites do not suffice in every case: lifting an initializer or a
post step exposes a discarded value, and splitting an assignment may add the very
type that an operand was recorded with. -/
theorem prerequisites_insufficient :
    Rule.hoistInit.Undoes .explicitDiscard (.begin (lonelyFile callInit) callTable ⟨10⟩) ∧
      Rule.forLoop.Undoes .explicitDiscard (.begin (lonelyFile callPost) callTable ⟨10⟩) ∧
      Rule.parallelAssign.Undoes .explicitDeref (.begin swapFile (swapTable shortArena) ⟨16⟩) := by
  refine ⟨?_, ?_, ?_⟩
  · refine .of_step (explicitDiscard_mayPrecede (j := 3) (by decide) rfl) callInit_numbered
      (lonelyFile_wellFormed (.inl rfl)) ?_ ?_
    · decide +kernel
    · decide +kernel
  · refine .of_step (explicitDiscard_mayPrecede (j := 4) (by decide) rfl) callPost_numbered
      (lonelyFile_wellFormed (.inr rfl)) ?_ ?_
    · decide +kernel
    · decide +kernel
  · refine .of_step ⟨{}, .default, 0, 8, rfl, List.Subset.refl _, by decide, rfl, rfl⟩
      (Progress.begin_numbered (after?_swapFile shortArena)) (swapFile_wellFormed shortArena) ?_ ?_
    · decide +kernel
    · decide +kernel

end Desugar
