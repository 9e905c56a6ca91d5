import Desugar.Proofs.Hoisting
import Desugar.Proofs.ScopeForest

/-!
# Founded types

A table is founded when every type is made of earlier ones, whatever its underlying type
is, and every type recorded for a node or a binding stands in the arena.  On such a table
a type is spelled and shown by following ever earlier types, so that the bound on the
depth is never reached.  The operations of the arena and all rules keep a table founded.
-/

namespace Desugar
namespace SymbolTable

/-- Every type is made of earlier types, and every recorded type is in the arena. -/
structure Founded (table : SymbolTable) : Prop where
  grounded : table.Grounded
  exprTypes : ∀ (node : NodeId) (id : TypeId), table.exprTypes[node]? = some id → table.HasType id
  bindings : ∀ binding ∈ table.bindings, ∀ id, binding.ty = some id → table.HasType id

/-!
## Depth
-/

section

variable {table : SymbolTable} {view : PackageView}

theorem wellFounded_components (h : table.Grounded) :
    WellFounded fun part whole => part ∈ (table.ty whole).components :=
  Subrelation.wf h.index_lt (InvImage.wf TypeId.index Nat.lt_wfRel.wf)

theorem mapM_congr {α β : Type} {f g : α → Except TypeId β} {xs : List α}
    (h : ∀ x ∈ xs, f x = g x) : xs.mapM f = xs.mapM g := by
  induction xs with
  | nil => rfl
  | cons x rest ih =>
    rw [List.mapM_cons, List.mapM_cons, h x (.head _), ih fun y hy => h y (.tail _ hy)]

theorem spellWithin_eq (h : table.Grounded) {m n : Nat} {id : TypeId} (hm : id.index < m)
    (hn : id.index < n) : table.spellWithin view m id = table.spellWithin view n id := by
  induction m generalizing n id with
  | zero => exact absurd hm (Nat.not_lt_zero _)
  | succ m ih =>
    cases n with
    | zero => exact absurd hn (Nat.not_lt_zero _)
    | succ n =>
      have hpart : ∀ part ∈ (table.ty id).components,
          table.spellWithin view m part = table.spellWithin view n part := by
        intro part hpart
        have := h.index_lt hpart
        exact ih (by omega) (by omega)
      unfold spellWithin
      generalize table.ty id = type at hpart
      cases type with
      | basic kind => rfl
      | named package name underlying args =>
        have hargs : args.mapM (table.spellWithin view m) = args.mapM (table.spellWithin view n) :=
          mapM_congr hpart
        simp only [hargs]
      | pointer elem | slice elem | array len elem | chan dir elem =>
        simp only [hpart elem (.head _)]
      | map key value =>
        simp only [hpart key (.head _), hpart value (.tail _ (.head _))]
      | signature params results variadic =>
        simp only [mapM_congr fun part h => hpart part (List.mem_append_left _ h),
          mapM_congr fun part h => hpart part (List.mem_append_right _ h)]
      | struct fields =>
        refine congrArg (· >>= _) (mapM_congr fun field hfield => ?_)
        rw [hpart field.ty (List.mem_map_of_mem hfield)]
      | interface methods =>
        refine congrArg (· >>= _) (mapM_congr fun method hmethod => ?_)
        rw [hpart method.sig (List.mem_map_of_mem hmethod)]
      | tuple members | typeParam name | invalid => rfl

theorem displayWithin_eq (h : table.Grounded) {m n : Nat} {id : TypeId} (hm : id.index < m)
    (hn : id.index < n) : table.displayWithin m id = table.displayWithin n id := by
  induction m generalizing n id with
  | zero => exact absurd hm (Nat.not_lt_zero _)
  | succ m ih =>
    cases n with
    | zero => exact absurd hn (Nat.not_lt_zero _)
    | succ n =>
      have hpart : ∀ part ∈ (table.ty id).components,
          table.displayWithin m part = table.displayWithin n part := by
        intro part hpart
        have := h.index_lt hpart
        exact ih (by omega) (by omega)
      unfold displayWithin
      generalize table.ty id = type at hpart
      cases type with
      | named package name underlying parts | tuple parts =>
        have hparts : parts.map (table.displayWithin m) = parts.map (table.displayWithin n) :=
          List.map_congr_left hpart
        simp only [hparts]
      | pointer elem | slice elem | array len elem | chan dir elem =>
        simp only [hpart elem (.head _)]
      | map key value =>
        simp only [hpart key (.head _), hpart value (.tail _ (.head _))]
      | signature params results variadic =>
        have hparams : params.map (table.displayWithin m) = params.map (table.displayWithin n) :=
          List.map_congr_left fun part h => hpart part (List.mem_append_left _ h)
        have hresults : results.map (table.displayWithin m) = results.map (table.displayWithin n) :=
          List.map_congr_left fun part h => hpart part (List.mem_append_right _ h)
        rcases results with _ | ⟨result, _ | ⟨second, rest⟩⟩
        · simp only [hparams]
        · simp only [hparams, hpart result (List.mem_append_right _ (.head _))]
        · simp only [hparams, hresults]
      | struct fields =>
        refine congrArg (fun parts => "struct\x7b" ++ "; ".intercalate parts ++ "\x7d")
          (List.map_congr_left fun field hfield => ?_)
        rw [hpart field.ty (List.mem_map_of_mem hfield)]
      | basic kind | interface methods | typeParam name | invalid => rfl

theorem ty_of_not_hasType {id : TypeId} (h : ¬ table.HasType id) : table.ty id = .invalid := by
  rw [ty, Array.getElem?_eq_none (Nat.le_of_not_lt h)]
  rfl

theorem spellWithin_eq_spell (h : table.Grounded) {n : Nat} (hn : table.types.size < n)
    (id : TypeId) : table.spellWithin view n id = table.spell view id := by
  by_cases hid : table.HasType id
  · exact spellWithin_eq h (Nat.lt_trans hid hn) (Nat.lt_succ_of_lt hid)
  · obtain ⟨n, rfl⟩ := Nat.exists_eq_add_one_of_ne_zero (Nat.ne_zero_of_lt hn)
    unfold spell spellWithin
    rw [ty_of_not_hasType hid]

theorem displayWithin_eq_display (h : table.Grounded) {n : Nat} (hn : table.types.size < n)
    (id : TypeId) : table.displayWithin n id = table.display id := by
  by_cases hid : table.HasType id
  · exact displayWithin_eq h (Nat.lt_trans hid hn) (Nat.lt_succ_of_lt hid)
  · obtain ⟨n, rfl⟩ := Nat.exists_eq_add_one_of_ne_zero (Nat.ne_zero_of_lt hn)
    unfold display displayWithin
    rw [ty_of_not_hasType hid]

end

/-!
## Operations
-/

namespace Founded

variable {old new table : SymbolTable}

theorem of_same_types (h : old.Founded) (htypes : new.types = old.types)
    (hexprTypes : ∀ (node : NodeId) (id : TypeId), new.exprTypes[node]? = some id → old.HasType id)
    (hbindings : ∀ binding ∈ new.bindings, ∀ id, binding.ty = some id → old.HasType id) :
    new.Founded where
  grounded := by
    unfold Grounded
    rw [htypes]
    exact h.grounded
  exprTypes node id hid := by
    unfold HasType
    rw [htypes]
    exact hexprTypes node id hid
  bindings binding hbinding id hid := by
    unfold HasType
    rw [htypes]
    exact hbindings binding hbinding id hid

theorem pushType (h : table.Founded) {type : Ty}
    (htype : ∀ part ∈ type.components, table.HasType part) :
    (table.pushType type).2.Founded ∧ (table.pushType type).2.HasType (table.pushType type).1 := by
  have hsize : (table.pushType type).2.types.size = table.types.size + 1 := Array.size_push ..
  have hkept : ∀ id, table.HasType id → (table.pushType type).2.HasType id := by
    intro id hid
    exact Nat.lt_of_lt_of_eq (Nat.lt_succ_of_lt hid) hsize.symm
  refine ⟨⟨?_, fun node id hid => hkept id (h.exprTypes node id hid),
    fun binding hbinding id hid => hkept id (h.bindings binding hbinding id hid)⟩, ?_⟩
  · intro index hindex part hpart
    simp only [SymbolTable.pushType, Array.getElem_push] at hpart
    split at hpart
    · exact h.grounded index _ part hpart
    · have : index = table.types.size := by omega
      exact this ▸ htype part hpart
  · exact Nat.lt_of_lt_of_eq (Nat.lt_succ_self _) hsize.symm

theorem intern (h : table.Founded) {type : Ty}
    (htype : ∀ part ∈ type.components, table.HasType part) :
    (table.intern type).2.Founded ∧ (table.intern type).2.HasType (table.intern type).1 := by
  unfold SymbolTable.intern
  split
  · exact h.pushType htype
  · split
    · rename_i index hindex
      rcases Option.map_eq_some_iff.mp hindex with ⟨position, _, rfl⟩
      exact ⟨h, position.isLt⟩
    · exact h.pushType htype

theorem defaultType (h : table.Founded) {id : TypeId} (hid : table.HasType id) :
    (table.defaultType id).2.Founded ∧
    (table.defaultType id).2.HasType (table.defaultType id).1 := by
  unfold SymbolTable.defaultType
  split
  · split
    · split
      · exact h.intern fun _ hpart => absurd hpart List.not_mem_nil
      · exact ⟨h, hid⟩
    · exact ⟨h, hid⟩
  · exact ⟨h, hid⟩

theorem setUnderlying (h : table.Founded) (named type : TypeId) :
    (table.setUnderlying named type).Founded := by
  have hsize : (table.setUnderlying named type).types.size = table.types.size := Array.size_modify
  refine ⟨?_, ?_, ?_⟩
  · intro index hindex part hpart
    apply h.grounded index (hsize ▸ hindex) part
    simp only [SymbolTable.setUnderlying, Array.getElem_modify] at hpart
    split at hpart
    · split at hpart
      · rename_i hty
        rw [hty]
        exact hpart
      · exact hpart
    · exact hpart
  · intro node id hid
    unfold HasType
    exact hsize ▸ h.exprTypes node id hid
  · intro binding hbinding id hid
    unfold HasType
    exact hsize ▸ h.bindings binding hbinding id hid

end Founded
end SymbolTable

/-!
## Rules and runs
-/

def Pass.Typed (p : Pass) : Token → Prop
  | .type id => p.table.HasType id
  | .table table => table.Founded ∧ table.types.size ≤ p.table.types.size
  | _ => True

namespace Pass.Act

variable {p q : Pass} {made : List Token}

theorem types_size_le {valid : Token → Prop} (h : p.Act valid q made) :
    p.table.types.size ≤ q.table.types.size := by
  cases h with
  | intern =>
    unfold SymbolTable.intern SymbolTable.pushType
    split
    · exact Nat.le.intro (Array.size_push ..).symm
    · split
      · exact Nat.le_refl _
      · exact Nat.le.intro (Array.size_push ..).symm
  | moveScope =>
    unfold SymbolTable.moveScope
    split <;> exact Nat.le_refl _
  | _ => exact Nat.le_refl _

theorem founded (h : p.Act p.Typed q made) (hp : p.table.Founded) :
    q.table.Founded ∧ ∀ k ∈ made, q.Typed k := by
  cases h with
  | draw =>
    refine ⟨hp, fun k hk => ?_⟩
    cases List.mem_singleton.mp hk
    trivial
  | recordType node hty =>
    refine ⟨hp.of_same_types rfl (fun other id h => ?_) hp.bindings, fun _ hk => by cases hk⟩
    rcases NodeMap.cases_insert h with rfl | h
    · exact hty
    · exact hp.exprTypes other id h
  | intern hnamed hparts =>
    refine ⟨(hp.intern hparts).1, fun k hk => ?_⟩
    cases List.mem_singleton.mp hk
    exact (hp.intern hparts).2
  | newScope =>
    refine ⟨hp.of_same_types rfl hp.exprTypes hp.bindings, fun k hk => ?_⟩
    cases List.mem_singleton.mp hk
    trivial
  | @moveScope source target =>
    constructor
    · unfold SymbolTable.moveScope
      split
      · exact hp
      · exact hp.of_same_types rfl hp.exprTypes hp.bindings
    · intro k hk
      rcases List.mem_map.mp hk with ⟨scope, _, rfl⟩
      trivial
  | copyFacts source =>
    refine ⟨hp.of_same_types rfl (fun other id h => ?_) hp.bindings, fun _ hk => by cases hk⟩
    rcases NodeMap.exists_of_copyEntry h with ⟨node, h⟩
    exact hp.exprTypes node id h
  | declare name hscope hty =>
    refine ⟨hp.of_same_types rfl hp.exprTypes fun binding hbinding id h => ?_,
      fun _ hk => by cases hk⟩
    rcases Array.mem_push.mp hbinding with hbinding | rfl
    · exact hp.bindings binding hbinding id h
    · cases h
      exact hty
  | report | count | note | attachScope =>
    exact ⟨hp.of_same_types rfl hp.exprTypes hp.bindings, fun _ hk => by cases hk⟩

end Pass.Act

def Law.typing : Law where
  holds p := p.table.Founded
  valid := Pass.Typed
  act := by
    intro p q made hp hact
    refine ⟨(hact.founded hp).1, fun k hk => ?_, (hact.founded hp).2⟩
    cases k with
    | type id => exact Nat.lt_of_lt_of_le hk hact.types_size_le
    | table table => exact ⟨hk.1, Nat.le_trans hk.2 hact.types_size_le⟩
    | _ => trivial
  current _ _ := trivial
  table hp := ⟨hp, Nat.le_refl _⟩
  recorded htable hty := Nat.lt_of_lt_of_le (htable.1.exprTypes _ _ hty) htable.2
  bound htable hbinding hty := Nat.lt_of_lt_of_le (htable.1.bindings _ hbinding _ hty) htable.2
  part := by
    intro p table part id htable hpart
    have hid : table.HasType id := by
      by_contra hid
      rw [SymbolTable.ty_of_not_hasType hid] at hpart
      cases hpart
    exact Nat.lt_of_lt_of_le (Nat.lt_trans (htable.1.grounded.index_lt hpart) hid) htable.2

instance : Law.typing.Walking where
  node _ _ := trivial
  enter _ hp := hp
  exit _ hp := hp
  other htable _ hp := (congrArg SymbolTable.Founded htable).mpr hp

theorem Law.typing_governs : Law.typing.Governs SymbolTable.Founded where
  start _ hp := hp
  leave hp := hp

/-- On a founded table every type is spelled and shown within the depth of its components,
so a larger bound changes nothing.  Adding types made of types of the arena and linking
named types to any underlying ones keeps a table founded, and so does every application of
a rule and every run, however they end.  No rule and no run searches without an end as long
as the parents of scopes stand in the table and end. -/
theorem SymbolTable.founded_kept {table : SymbolTable} (h : table.Founded) :
    (WellFounded fun part whole => part ∈ (table.ty whole).components) ∧
    (∀ view n id, table.types.size < n → table.spellWithin view n id = table.spell view id) ∧
    (∀ n id, table.types.size < n → table.displayWithin n id = table.display id) ∧
    (∀ type : Ty, (∀ part ∈ type.components, table.HasType part) →
      (table.intern type).2.Founded ∧ (table.intern type).2.HasType (table.intern type).1) ∧
    (∀ kind, (table.basic kind).2.Founded ∧ (table.basic kind).2.HasType (table.basic kind).1) ∧
    (∀ id, table.HasType id →
      (table.defaultType id).2.Founded ∧
        (table.defaultType id).2.HasType (table.defaultType id).1) ∧
    (∀ package name, (table.newNamed package name).2.Founded ∧
      (table.newNamed package name).2.HasType (table.newNamed package name).1) ∧
    (∀ named type, (table.setUnderlying named type).Founded) ∧
    (∀ rule ∈ Rule.catalog, ∀ env (p : Pass), p.table = table →
      (rule.apply.exec env p).2.table.Founded ∧
        (p.scopes = .empty → table.Climbable → (rule.apply.exec env p).1 ≠ .error .endless)) ∧
    ∀ config pipeline file, Pipeline.ofConfig config = .ok pipeline →
      (pipeline.run file table).table.Founded ∧
        (table.Climbable → (pipeline.run file table).result ≠ .error .endless) := by
  have hnothing : ∀ part ∈ ([] : List TypeId), table.HasType part :=
    fun _ hpart => absurd hpart List.not_mem_nil
  refine ⟨wellFounded_components h.grounded, fun _ _ id hn => spellWithin_eq_spell h.grounded hn id,
    fun _ id hn => displayWithin_eq_display h.grounded hn id, fun type => h.intern,
    fun kind => h.intern hnothing, fun id => h.defaultType, fun _ _ => h.pushType hnothing,
    h.setUnderlying, ?_, fun config pipeline file hconfig => ?_⟩
  · rintro rule hrule env p rfl
    refine ⟨(Rule.keeps_apply (L := Law.typing) hrule p).1 h, fun hscopes hclimb hfault => ?_⟩
    have hgoverns := Law.scoping_governs Climbable
    have hkeeps : (Law.scoping Climbable).Keeps env rule.apply := Rule.keeps_apply hrule
    have hafter := hgoverns.leave ((hkeeps p).1 (hgoverns.start hscopes hclimb))
    exact hafter.not_endless ((hkeeps p).2 hfault)
  · refine ⟨(Pipeline.run_keeps Law.typing_governs hconfig file h).1, fun hclimb hfault => ?_⟩
    have hkeeps := Pipeline.run_keeps (Law.scoping_governs Climbable) hconfig file hclimb
    exact hkeeps.1.not_endless (hkeeps.2 hfault)

/-- A list node links to a node by a pointer, and is itself what it is defined as.  The
scope that holds the head of a list is inside another one. -/
def linkedTable : SymbolTable :=
  { SymbolTable.empty with
    types := #[.named none "Node" (some ⟨2⟩) [], .pointer ⟨0⟩, .struct [⟨"next", ⟨1⟩, false⟩]]
    exprTypes := (∅ : NodeMap TypeId).insert ⟨5⟩ ⟨1⟩
    scopes := #[⟨none, []⟩, ⟨some ⟨0⟩, [("head", ⟨0⟩)]⟩]
    scopeOf := (∅ : NodeMap ScopeId).insert ⟨3⟩ ⟨1⟩
    bindings := #[⟨"head", some ⟨1⟩, ⟨1⟩, .var, false⟩] }

theorem linkedTable_kept :
    linkedTable.Founded ∧ linkedTable.display ⟨2⟩ = "struct\x7bnext *Node\x7d" ∧
      linkedTable.displayWithin 100 ⟨2⟩ = linkedTable.display ⟨2⟩ ∧
      (Pipeline.default.run exchangeFile linkedTable).table.Founded ∧
      linkedTable.Climbable ∧
      (Pipeline.default.run exchangeFile linkedTable).result ≠ .error .endless := by
  have h : linkedTable.Founded := by
    refine ⟨by decide +kernel, fun node id hid => ?_, fun binding hbinding id hid => ?_⟩
    · rcases NodeMap.cases_insert hid with rfl | hid
      · exact Nat.lt_add_of_pos_right (Nat.succ_pos 1)
      · cases hid
    · cases List.mem_singleton.mp (Array.mem_def.mp hbinding)
      cases hid
      exact Nat.lt_add_of_pos_right (Nat.succ_pos 1)
  have hparents : ∀ scope parent, linkedTable.parentOf scope = some parent →
      parent.index < scope.index := by
    rintro ⟨_ | _ | index⟩ parent hparent <;> cases hparent
    exact Nat.one_pos
  have hclimb : linkedTable.Climbable := by
    refine ⟨fun scope parent hparent => ?_, ?_, fun node scope hscope => ?_⟩
    · refine Nat.lt_trans (hparents scope parent hparent) ?_
      by_contra hscope
      rw [SymbolTable.parentOf, SymbolTable.scope?,
        Array.getElem?_eq_none (Nat.le_of_not_lt hscope)] at hparent
      cases hparent
    · exact Subrelation.wf (hparents _ _) (InvImage.wf ScopeId.index Nat.lt_wfRel.wf)
    · rcases NodeMap.cases_insert hscope with rfl | hscope
      · exact Nat.lt_succ_self 1
      · cases hscope
  rcases SymbolTable.founded_kept h with ⟨_, _, hdisplay, _, _, _, _, _, _, hrun⟩
  rcases hrun {} Pipeline.default exchangeFile rfl with ⟨hfounded, hends⟩
  exact ⟨h, by decide +kernel, hdisplay 100 ⟨2⟩ (by decide), hfounded, hclimb, hends hclimb⟩

/-- A loop that counts up, in a table where the scope of its variable is its own parent:
`for ; ; i++ { }`. -/
def circlingFile : File :=
  mainFile [.forLoop ⟨4⟩ none none (some (.incDec ⟨5⟩ (.ident ⟨6⟩ "i") true)) ⟨⟨7⟩, []⟩]

def circlingTable : SymbolTable :=
  { SymbolTable.empty with
    types := #[.basic .int]
    exprTypes := (∅ : NodeMap TypeId).insert ⟨6⟩ ⟨0⟩
    uses := (∅ : NodeMap BindingId).insert ⟨6⟩ ⟨0⟩
    scopes := #[⟨some ⟨0⟩, [("i", ⟨0⟩)]⟩, ⟨some ⟨0⟩, []⟩]
    scopeOf := ((∅ : NodeMap ScopeId).insert ⟨3⟩ ⟨0⟩).insert ⟨7⟩ ⟨1⟩
    bindings := #[⟨"i", some ⟨0⟩, ⟨0⟩, .var, false⟩] }

theorem after?_circlingFile :
    NodeSupply.after? (circlingFile.maxId.larger circlingTable.maxNode) = some ⟨8⟩ :=
  NodeSupply.after?_of_largest 7 (by decide) (by decide +kernel) (by decide +kernel)
    (by decide +kernel)

/-- Types that are founded are not enough: whether the body shadows the step is found out by
climbing from the scope of the variable, and never is. -/
theorem circlingFile_searches_forever :
    circlingTable.Founded ∧ circlingTable.isWithin? ⟨0⟩ ⟨1⟩ = none ∧
      (Pipeline.default.run circlingFile circlingTable).result = .error .endless := by
  refine ⟨⟨by decide +kernel, fun node id hid => ?_, fun binding hbinding id hid => ?_⟩, ?_, ?_⟩
  · rcases NodeMap.cases_insert hid with rfl | hid
    · exact Nat.one_pos
    · cases hid
  · cases List.mem_singleton.mp (Array.mem_def.mp hbinding)
    cases hid
    exact Nat.one_pos
  · decide +kernel
  · rw [Pipeline.run_eq_of_ids after?_circlingFile]
    decide +kernel

end Desugar
