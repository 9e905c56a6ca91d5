import Desugar.Proofs.ControlRenewal
import Desugar.Proofs.Loops

/-!
# Renewal by loops

A copy of a statement has fresh identities throughout and looks like the
original.  So the copies of a post step are new entries, the step itself moves,
and moving the clauses of loops renews the inventory of a file.
-/

namespace Desugar

open PassM (Leaves Replaces)

/-!
## What a copy breaks
-/

namespace Entry.Spared

variable {lib : Liberty} {property : Property} {p q : Pass}

theorem of_expr (hproperty : property ≠ .explicitDeref) (id : NodeId) (e : Expr) :
    Spared lib property p ⟨id, e.kind⟩ := by
  cases property with
  | explicitDeref => exact absurd rfl hproperty
  | _ =>
    cases e with
    | unary _ op _ => cases op <;> exact .of_blind rfl fun _ _ => rfl
    | _ => exact .of_blind rfl fun _ _ => rfl

theorem access_of_copy {id id' operand operand' : NodeId} (hq : p.Evolves lib q)
    (hcopy : operand.CopyOf p.ids.count q operand')
    (h : Spared lib .explicitDeref p ⟨id, .access operand⟩) :
    Spared lib .explicitDeref q ⟨id', .access operand'⟩ where
  known other hother := by
    rw [List.mem_singleton.mp hother]
    exact hcopy.1
  intact r hr := by
    have halike := (hcopy.mono hq.toGrows hr.toGrows).2 (h.known operand (.head _))
    have hbefore := h.intact r (hq.trans hr)
    simp only [Property.breaks] at hbefore ⊢
    rw [halike.exprTypes]
    exact hbefore

theorem field_of_copy {id id' operand operand' : NodeId} {name : String} (hq : p.Evolves lib q)
    (hid : id.CopyOf p.ids.count q id') (hcopy : operand.CopyOf p.ids.count q operand')
    (h : Spared lib .explicitDeref p ⟨id, .field operand name⟩) :
    Spared lib .explicitDeref q ⟨id', .field operand' name⟩ where
  known other hother := by
    rcases List.mem_cons.mp hother with rfl | hother
    · exact hid.1
    · rw [List.mem_singleton.mp hother]
      exact hcopy.1
  intact r hr := by
    have hself := (hid.mono hq.toGrows hr.toGrows).2 (h.known id (.head _))
    have halike := (hcopy.mono hq.toGrows hr.toGrows).2 (h.known operand (.tail _ (.head _)))
    have hbefore := h.intact r (hq.trans hr)
    simp only [Property.breaks] at hbefore ⊢
    rw [hself.selections, halike.exprTypes]
    exact hbefore

theorem expr_of_copy {e e' : Expr} (hq : p.Evolves lib q) (hshape : e'.shape = e.shape)
    (hids : List.Forall₂ (NodeId.CopyOf p.ids.count q) e.shownIds e'.shownIds)
    (h : Spared lib property p ⟨e.id, e.kind⟩) : Spared lib property q ⟨e'.id, e'.kind⟩ := by
  by_cases hproperty : property = .explicitDeref
  · subst hproperty
    cases e' with
    | index id' x' i' =>
      cases e with
      | index id x i =>
        rcases hids with _ | ⟨_, _ | ⟨hoperand, _⟩⟩
        exact access_of_copy hq hoperand h
      | _ => cases hshape
    | slice id' x' low' high' max' =>
      cases e with
      | slice id x low high max =>
        rcases hids with _ | ⟨_, _ | ⟨hoperand, _⟩⟩
        exact access_of_copy hq hoperand h
      | _ => cases hshape
    | selector id' x' name' =>
      cases e with
      | selector id x name =>
        have hname : name' = name := by injection hshape
        subst hname
        rcases hids with _ | ⟨hid, _ | ⟨hoperand, _⟩⟩
        exact field_of_copy hq hid hoperand h
      | _ => cases hshape
    | unary id' op' x' => cases op' <;> exact .of_blind rfl fun _ _ => rfl
    | _ => exact .of_blind rfl fun _ _ => rfl
  · exact of_expr hproperty e'.id e'

end Entry.Spared

namespace Stmt

theorem breaks_shape {property : Property} (hproperty : property ≠ .explicitDiscard)
    (lifts : Lifting) (table : SymbolTable) (listed : Bool) (s : Stmt) (id id' : NodeId) :
    property.breaks lifts table ⟨id', s.kind listed⟩ =
      property.breaks lifts table ⟨id, s.shape.kind listed⟩ := by
  cases property with
  | explicitDiscard => exact absurd rfl hproperty
  | _ => cases s <;> simp [shape, kind, Property.breaks]

/-- Whether the values that a statement discards count, as it is listed or its headers
are lifted. -/
def exposes (lifts : Lifting) (listed : Bool) : Stmt → Bool
  | .expr _ _ => listed
  | .ifElse _ _ _ _ _ | .switch _ _ _ _ | .typeSwitch _ _ _ _ => lifts .noControlInit
  | .forLoop _ _ _ _ _ => lifts .noThreeClauseLoop
  | _ => false

theorem exposes_shape (lifts : Lifting) (listed : Bool) (s : Stmt) :
    s.shape.exposes lifts listed = s.exposes lifts listed := by
  cases s <;> rfl

theorem breaks_discard (lifts : Lifting) (listed : Bool) (s : Stmt) (id : NodeId)
    (table : SymbolTable) :
    Property.explicitDiscard.breaks lifts table ⟨id, s.kind listed⟩ =
      (s.exposes lifts listed && s.discards.any table.producesValue) := by
  cases s <;> simp [Property.breaks, kind, exposes, discards]

theorem consults_discard (listed : Bool) (s : Stmt) (id : NodeId) :
    Property.explicitDiscard.consults ⟨id, s.kind listed⟩ = s.discards := by
  cases s <;> rfl

end Stmt

theorem SymbolTable.any_producesValue_of_copies {p q r : Pass} {operands copies : List NodeId}
    (hcopies : List.Forall₂ (NodeId.CopyOf p.ids.count q) operands copies) (hq : p.Grows q)
    (hr : q.Grows r) (hbelow : ∀ operand ∈ operands, operand.Below p.ids.count) :
    copies.any r.table.producesValue = operands.any r.table.producesValue := by
  induction hcopies with
  | nil => rfl
  | cons hcopy _ ih =>
    rcases List.forall_mem_cons.mp hbelow with ⟨hfirst, hrest⟩
    have halike := (hcopy.mono hq hr).2 hfirst
    rw [List.any_cons, List.any_cons, ih hrest]
    simp only [producesValue, halike.exprTypes]

namespace Entry.Spared

variable {lib : Liberty} {property : Property} {p q : Pass}

theorem stmt_of_copy {listed : Bool} {s s' : Stmt} (hq : p.Evolves lib q)
    (hshape : s'.shape = s.shape)
    (hdiscards : List.Forall₂ (NodeId.CopyOf p.ids.count q) s.discards s'.discards)
    (h : Spared lib property p ⟨s.id, s.kind listed⟩) :
    Spared lib property q ⟨s'.id, s'.kind listed⟩ := by
  by_cases hproperty : property = .explicitDiscard
  · subst hproperty
    have hknown := h.known
    rw [s.consults_discard] at hknown
    refine ⟨?_, fun r hr => ?_⟩
    · rw [s'.consults_discard]
      exact NodeId.CopyOf.below hdiscards
    · have hbefore := h.intact r (hq.trans hr)
      rw [s.breaks_discard, ← s.exposes_shape, ← hshape, s'.exposes_shape] at hbefore
      rwa [s'.breaks_discard, SymbolTable.any_producesValue_of_copies hdiscards hq.toGrows
        hr.toGrows hknown]
  · refine .of_blind ?_ fun r hr => ?_
    · cases property with
      | explicitDiscard => exact absurd rfl hproperty
      | _ => cases s' <;> rfl
    · have hbefore := h.intact r (hq.trans hr)
      rw [s.breaks_shape hproperty _ _ _ s.id] at hbefore
      rwa [s'.breaks_shape hproperty _ _ _ s.id, hshape]

theorem plain (p : Pass) (id : NodeId) : Spared lib property p ⟨id, .plain⟩ := by
  cases property <;> exact .of_blind rfl fun _ _ => rfl

theorem of_mem_plainEntries {entry : Entry} {ids : List NodeId} (h : entry ∈ plainEntries ids) :
    Spared lib property p entry := by
  rcases List.mem_map.mp h with ⟨id, _, rfl⟩
  exact plain p id

theorem spec_of_copy {isVar : Bool} {spec spec' : Spec} (hq : p.Evolves lib q)
    (hshape : spec'.shape = spec.shape)
    (h : ∀ entry ∈ spec.entries isVar, Spared lib property p entry) :
    ∀ entry ∈ spec'.entries isVar, Spared lib property q entry := by
  intro entry hentry
  cases spec' with
  | type spec' =>
    rw [List.mem_singleton.mp hentry]
    exact plain q _
  | value spec' =>
    cases spec with
    | type spec => cases hshape
    | value spec =>
      rcases List.mem_cons.mp hentry with rfl | hentry
      · have hbefore := h _ (.head _)
        cases isVar with
        | false => exact plain q _
        | true =>
          injection hshape with hshape
          injection hshape with _ hnames hty hvalues
          have hkind : spec'.kind = spec.kind := by
            have hlength := congrArg List.length hnames
            have hempty := congrArg List.isEmpty hvalues
            simp only [List.length_map, List.isEmpty_map] at hlength hempty
            rw [ValueSpec.kind, hlength, hty, hempty, ValueSpec.kind]
          simp only [if_true, hkind] at hbefore ⊢
          refine .of_blind ?_ fun r hr => ?_
          · cases property <;> rfl
          · have hbefore := hbefore.intact r (hq.trans hr)
            cases property <;> exact hbefore
      · exact of_mem_plainEntries hentry

theorem of_copyOf {n n' : Node} (hq : p.Evolves lib q) (hcopy : n.CopyOf p.ids.count q n')
    (h : ∀ entry ∈ n.entries, Spared lib property p entry) :
    ∀ entry ∈ n'.entries, Spared lib property q entry := by
  intro entry hentry
  cases n' with
  | expr e' =>
    cases n with
    | expr e =>
      rcases List.mem_cons.mp hentry with rfl | hentry
      · exact expr_of_copy hq hcopy.1 hcopy.2 (h _ (.head _))
      · exact of_mem_plainEntries hentry
    | _ => exact hcopy.elim
  | stmt s' =>
    cases n with
    | stmt s =>
      rcases List.mem_cons.mp hentry with rfl | hentry
      · exact stmt_of_copy hq hcopy.1 hcopy.2.2 (h _ (.head _))
      · exact of_mem_plainEntries hentry
    | _ => exact hcopy.elim
  | header s' =>
    cases n with
    | header s =>
      rcases List.mem_cons.mp hentry with rfl | hentry
      · exact stmt_of_copy hq hcopy.1 hcopy.2.2 (h _ (.head _))
      · exact of_mem_plainEntries hentry
    | _ => exact hcopy.elim
  | decl d' top' =>
    cases n with
    | decl d top =>
      rcases List.mem_cons.mp hentry with rfl | hentry
      · exact plain q _
      · have hshape := hcopy.1
        rcases List.mem_flatMap.mp hentry with ⟨spec', hspec', hentry⟩
        have hmem : spec'.shape ∈ d'.shape.specs := List.mem_map_of_mem hspec'
        rw [hshape] at hmem
        rcases List.mem_map.mp hmem with ⟨spec, hspec, heq⟩
        have hvar : d'.shape.isVar = d.shape.isVar := congrArg Decl.isVar hshape
        replace hvar : d'.isVar = d.isVar := hvar
        rw [hvar] at hentry
        refine spec_of_copy hq heq.symm ?_ entry hentry
        intro other hother
        exact h other (.tail _ (List.mem_flatMap.mpr ⟨spec, hspec, hother⟩))
    | _ => exact hcopy.elim
  | func fn' => cases n <;> exact hcopy.elim
  | block b' =>
    rw [List.mem_singleton.mp hentry]
    exact plain q _

theorem of_copies {nodes nodes' : List Node} (hq : p.Evolves lib q)
    (hcopies : Node.Copies p.ids.count q nodes nodes')
    (h : ∀ entry ∈ inventory nodes, Spared lib property p entry) :
    ∀ entry ∈ inventory nodes', Spared lib property q entry := by
  intro entry hentry
  rcases mem_inventory.mp hentry with ⟨n', hn', hentry⟩
  rcases hcopies n' hn' with ⟨n, hn, hcopy⟩
  exact of_copyOf hq hcopy (fun other hother => h other (mem_inventory.mpr ⟨n, hn, hother⟩))
    entry hentry

end Entry.Spared

theorem Node.label_of_copies {bound : Nat} {q : Pass} {nodes nodes' : List Node}
    (hcopies : Node.Copies bound q nodes nodes') {id : NodeId} {name : String}
    (h : ⟨id, .label name⟩ ∈ inventory nodes') :
    ∃ source, ⟨source, .label name⟩ ∈ inventory nodes := by
  have hlabeled : ∀ s s' : Stmt, (Stmt.labeled id name s').shape = s.shape →
      ∃ source inner, s = .labeled source name inner := by
    intro s s' hshape
    cases s with
    | labeled source name' inner =>
      injection hshape with _ hname
      exact ⟨source, inner, by rw [hname]⟩
    | _ => nomatch hshape
  rcases mem_inventory.mp h with ⟨n', hn', hentry⟩
  rcases hcopies n' hn' with ⟨n, hn, hcopy⟩
  have hsource : ∃ source, (⟨source, .label name⟩ : Entry) ∈ n.entries := by
    rcases Node.label_mem_entries_iff.mp hentry with ⟨s', rfl | rfl⟩
    · cases n with
      | stmt s =>
        rcases hlabeled s s' hcopy.1 with ⟨source, inner, rfl⟩
        exact ⟨source, Node.label_mem_entries_iff.mpr ⟨inner, .inl rfl⟩⟩
      | _ => exact hcopy.elim
    · cases n with
      | header s =>
        rcases hlabeled s s' hcopy.1 with ⟨source, inner, rfl⟩
        exact ⟨source, Node.label_mem_entries_iff.mpr ⟨inner, .inr rfl⟩⟩
      | _ => exact hcopy.elim
  exact hsource.imp fun source hmem => mem_inventory.mpr ⟨n, hn, hmem⟩

/-!
## Copies
-/

theorem SymbolTable.getElem?_copyEntry_of_ne {α : Type} {source node id : NodeId}
    {facts : NodeMap α} (hne : node ≠ id) :
    (SymbolTable.copyEntry source node facts)[id]? = facts[id]? := by
  unfold SymbolTable.copyEntry
  cases facts[source]? with
  | none => rfl
  | some fact => exact NodeMap.getElem?_insert_of_ne hne

theorem NodeId.refreshes (lib : Liberty) (sources : List NodeId) {p : Pass} {copies : List NodeId}
    {ids : NodeSupply} {table : SymbolTable}
    (h : sources.mapM NodeId.refresh (p.ids, p.table) = some (copies, ids, table)) :
    p.Evolves lib { p with ids := ids, table := table } ∧
      ∀ id, copies.count id ≤ id.timesDrawn p { p with ids := ids, table := table } := by
  induction sources generalizing p copies with
  | nil =>
    rw [List.mapM_nil] at h
    cases h
    exact ⟨.refl p, fun id => Nat.zero_le _⟩
  | cons source rest ih =>
    rw [List.mapM_cons] at h
    rcases Option.bind_eq_some_iff.mp h with ⟨⟨fresh, ids', table'⟩, hfirst, h⟩
    rcases Option.bind_eq_some_iff.mp h with ⟨⟨others, ids'', table''⟩, hrest, h⟩
    cases h
    rw [NodeId.refresh_run] at hfirst
    cases htake : p.ids.take? with
    | none =>
      rw [htake] at hfirst
      cases hfirst
    | some drawn =>
      rcases drawn with ⟨fresh', ids'⟩
      rw [htake] at hfirst
      cases hfirst
      have hfresh : p.ids.count ≤ fresh.val.toNat := by
        rw [(NodeSupply.take?_eq_some htake).1]
        exact Nat.le_refl _
      have hstep : p.Evolves lib { p with ids := ids', table := p.table.copyFacts source fresh } :=
        .of_take htake (SymbolTable.extends_copyFacts source hfresh)
          (fun _ => SymbolTable.recorded_copyFacts) rfl ⟨rfl, rfl, rfl⟩
          fun other hother => .inl (SymbolTable.getElem?_copyEntry_of_ne (hother.ne hfresh))
      rcases ih (p := { p with ids := ids', table := p.table.copyFacts source fresh }) hrest
        with ⟨hevolves, hcount⟩
      refine ⟨hstep.trans hevolves, fun id => ?_⟩
      rw [List.count_cons, Nat.add_comm, ← id.timesDrawn_add hstep.ids hevolves.ids]
      refine Nat.add_le_add ?_ (hcount id)
      split
      · rename_i heq
        rw [← LawfulBEq.eq_of_beq heq]
        exact Nat.le_of_eq
          (NodeId.timesDrawn_of_drawnIn ⟨hfresh, Pass.Grows.below_of_take htake⟩).symm
      · exact Nat.zero_le _

/-- What becomes of the entries of a part of a tree, next to entries that stay. -/
def RenewsBeside (lib : Liberty) (keeps : Property → Prop) (beside : Multiset Entry) (p q : Pass)
    (old new : Multiset Entry) : Prop :=
  Renews lib keeps p q (beside + old) (beside + new)

namespace RenewsBeside

variable {lib : Liberty} {keeps : Property → Prop} {beside : Multiset Entry} {p q r : Pass}
  {a b a' b' : Multiset Entry}

theorem of_renews (h : Renews lib keeps p q a b) : RenewsBeside lib keeps beside p q a b :=
  (Renews.refl p beside).add h

theorem refl (p : Pass) (a : Multiset Entry) : RenewsBeside lib keeps beside p p a a :=
  of_renews (.refl p a)

theorem add (hab : RenewsBeside lib keeps beside p q a a')
    (hbc : RenewsBeside lib keeps beside q r b b') :
    RenewsBeside lib keeps beside p r (a + b) (a' + b') := by
  have hfirst : Renews lib keeps p q (beside + a + b) (beside + a' + b) :=
    Renews.add hab (.refl q b)
  have hsecond : Renews lib keeps q r (a' + (beside + b)) (a' + (beside + b')) :=
    (Renews.refl q a').add hbc
  have hmiddle : beside + a' + b = a' + (beside + b) := by abel
  refine Renews.cast (hfirst.trans (hsecond.cast hmiddle rfl)) ?_ ?_
  · abel
  · abel

end RenewsBeside

namespace Loop

variable {lib : Liberty} {env : PassEnv} {p : Pass}

theorem leaves_copy (keeps : Property → Prop) (hdrawn : p.Drawn) (s : Stmt) :
    Leaves lib env p (copy s) (fun s' q => RenewsBeside lib keeps (s.inventoryAt true) p q 0
      (s'.inventoryAt true)) := by
  refine .look (PassM.exec_get env p) ?_
  cases hrun : s.refresh (p.ids, p.table) with
  | none => exact Leaves.of_exec_error (PassM.exec_throw .exhausted env p) (.refl p)
  | some result =>
    rcases result with ⟨s', ids, table⟩
    have hids : s.ids.mapM NodeId.refresh (p.ids, p.table) = some (s'.ids, ids, table) := by
      rw [← Stmt.ids_mapIds NodeId.refresh s]
      exact Option.bind_eq_some_iff.mpr ⟨(s', ids, table), hrun, rfl⟩
    rcases NodeId.refreshes lib s.ids hids with ⟨hevolves, hcount⟩
    rcases Stmt.refreshes s s' ids table hrun with ⟨_, hcopy⟩
    have hcopies := Stmts.copies_singleton hdrawn (hcopy _ (.refl _))
    refine .step (PassM.exec_set _ env p) hevolves (.pure ?_)
    rw [← Stmts.inventory_singleton_eq, ← Stmts.inventory_singleton_eq]
    refine ⟨hevolves, fun id => ?_, fun id => ?_, fun property _ hspared entry hentry => ?_,
      fun _ id name hname => ?_⟩
    · have hnil : Stmts.ids [s'] = s'.ids := List.append_nil _
      rw [identities_add, identities_add, Multiset.count_add, Multiset.count_add,
        Stmts.ids_inventory [s'], hnil, Multiset.coe_count, add_assoc]
      exact Nat.add_le_add_left (Nat.le_trans (hcount id) (Nat.le_add_left _ _)) _
    · rw [add_zero, Multiset.count_add]
      exact Nat.le_add_right _ _
    · rw [add_zero] at hspared
      rcases Multiset.mem_add.mp hentry with hentry | hentry
      · exact (hspared entry hentry).mono hevolves
      · exact Entry.Spared.of_copies hevolves hcopies hspared entry hentry
    · rw [add_zero]
      rcases Multiset.mem_add.mp hname with hname | hname
      · exact .inl ⟨id, hname⟩
      · exact .inl (Node.label_of_copies hcopies hname)

end Loop

/-!
## Replacing continues
-/

theorem Stmt.inventoryAt_branch (listed : Bool) (id : NodeId) (kind : BranchKind)
    (label : Option String) :
    (Stmt.branch id kind label).inventoryAt listed = {⟨id, .plain⟩} :=
  (Stmt.inventoryAt_of_clauseIds rfl listed).trans (add_zero _)

theorem Form.Keeps.refl (f : Form) (x : f.Tree) : f.Keeps x x := by
  cases f <;> simp [Form.Keeps]

theorem Parts.renewsBeside_of_chain {lib : Liberty} {keeps : Property → Prop}
    {beside : Multiset Entry} {fs : List Form} {old new : Parts fs} {p q : Pass}
    (h : Parts.Chain (Pass.Evolves lib) (fun f x x' p q => f.Keeps x x' ∧
      RenewsBeside lib keeps beside p q (inventory (f.nodes x)) (inventory (f.nodes x')))
      fs old new p q) :
    RenewsBeside lib keeps beside p q (inventory (Parts.nodes fs old))
      (inventory (Parts.nodes fs new)) := by
  induction fs generalizing p with
  | nil => exact .of_renews (.stay h _)
  | cons f fs ih =>
    rcases h with ⟨r, _, hfirst, hrest⟩
    have hparts := hfirst.2.add (ih hrest)
    rwa [← inventory_append, ← inventory_append] at hparts

theorem Block.leaves_replaceContinues {m : Type → Type} [Monad m] [LawfulMonad m]
    (logic : StepLogic m) {lib : Liberty} (hreach : logic.reach = Pass.Evolves lib)
    {keeps : Property → Prop} {beside : Multiset Entry} {labels : List String}
    {replace : NodeId → Option String → m Stmt} {origin : Pass}
    (h : ∀ p id label, origin.Evolves lib p → logic.ensures p (replace id label) (fun s q =>
      s.operands = [] ∧
        RenewsBeside lib keeps beside p q {⟨id, .plain⟩} (s.inventoryAt true)))
    (b : Block) {p : Pass} (hp : origin.Evolves lib p) :
    logic.ensures p (b.replaceContinues labels replace 0) (fun b' q =>
      b'.id = b.id ∧
        RenewsBeside lib keeps beside p q (inventory b.nodes) (inventory b'.nodes)) := by
  have hreplaces : logic.Replaces replace (fun _ _ p => origin.Evolves lib p)
      (fun f x x' p q => f.Keeps x x' ∧
        RenewsBeside lib keeps beside p q (inventory (f.nodes x)) (inventory (f.nodes x'))) := by
    refine ⟨?_, fun _ => ⟨.refl _ _, .refl _ _⟩, ?_, ?_, ?_⟩
    · rw [hreach]
      exact fun hpq hp => hp.trans hpq
    · exact fun {f x p} hp => (f.size_parts x).mono fun _ _ _ => hp
    · rw [hreach]
      intro f x p q new _ _ _ hchain
      have hkeeps : Parts.All₂ Form.Keeps _ _ new := hchain.all₂ fun _ _ _ _ _ hpost => hpost.1
      refine ⟨f.keeps_make x new hkeeps, ?_⟩
      have hold := inventory_perm (f.nodes_make x (f.makeup x).parts)
      have hnew := inventory_perm (f.nodes_make x new)
      rw [f.make_parts, inventory_append] at hold
      rw [inventory_append] at hnew
      rw [hold, hnew]
      exact (RenewsBeside.of_renews (f.own_make x new hkeeps lib keeps p)).add
        (Parts.renewsBeside_of_chain hchain)
    · intro p id label hp
      refine logic.mono (h p id label hp) fun s q hs => ⟨hs.1, ?_⟩
      have hplain := hs.2
      rw [← Stmt.inventoryAt_branch true id .continue label, ← inventory_stmt,
        ← inventory_stmt] at hplain
      exact hplain
  exact hreplaces.ensures .block b 0 hp

theorem Block.inventory_mk (id : NodeId) (stmts : List Stmt) :
    inventory (Block.nodes ⟨id, stmts⟩) = {⟨id, .plain⟩} + inventory (Stmts.nodes stmts) := by
  rw [Block.nodes, inventory_cons]
  rfl

namespace Loop

variable {lib : Liberty} {keeps : Property → Prop} {env : PassEnv} {start p : Pass}

theorem leaves_runPost (hdrawn : p.Drawn) (post : Stmt) (id : NodeId) (label : Option String) :
    Leaves lib env p (runPost post id label) (fun s q => s.operands = [] ∧
      RenewsBeside lib keeps (post.inventoryAt true) p q {⟨id, .plain⟩} (s.inventoryAt true)) := by
  refine (leaves_copy keeps hdrawn post).bind fun step q _ hstep => ?_
  refine (PassM.leaves_newStmt _).bind fun jump r hr hjump => ?_
  rcases hjump with ⟨jumpId, rfl, hjumpId⟩
  refine PassM.leaves_freshId.bind fun bodyId u hu hbodyId => .pure ⟨rfl, ?_⟩
  have hjump : Renews lib keeps q r 0 {⟨jumpId, .plain⟩} := .draw_harmless hr hjumpId .plain
  have hbody : Renews lib keeps r u 0 {⟨bodyId, .plain⟩} := .draw_harmless hu hbodyId .plain
  have hnew := (hstep.add (.of_renews hjump)).add (.of_renews hbody)
  refine Renews.cast ((RenewsBeside.refl p {⟨id, .plain⟩}).add hnew) ?_ ?_
  · rw [add_zero, add_zero, add_zero]
  · congr 1
    show (Stmt.block id _).inventoryAt true = _
    rw [← Stmts.inventory_singleton_eq, inventory_block, Stmts.inventory_cons,
      Stmts.inventory_singleton_eq, Stmts.inventory_singleton_eq, Stmt.inventoryAt_branch]
    abel

theorem renews_jumps (labels : List String) (target : String) (body : Block) (p : Pass) :
    Renews lib keeps p p (inventory body.nodes)
      (inventory ((body.replaceContinues labels (jumpTo target) 0).run 0).1.nodes) := by
  have hbody : RenewsBeside lib keeps 0 p p (inventory body.nodes)
      (inventory ((body.replaceContinues labels (jumpTo target) 0).run 0).1.nodes) :=
    (Block.leaves_replaceContinues (.ofCounter (Pass.Evolves lib) .refl) rfl (fun q id label _ _ =>
      ⟨rfl, (Stmt.inventoryAt_branch true id .goto (some target)) ▸ .refl q _⟩) body (.refl p) 0).2
  exact Renews.cast hbody (zero_add _).symm (zero_add _).symm

theorem leaves_follow (keeps : Property → Prop) (body : Block) (post : Stmt) :
    Leaves lib env p (do
        let inner ← PassM.newStmt (fun id => .block id body)
        return (⟨← PassM.freshId, [inner, post]⟩ : Block))
      (fun body' q => Renews lib keeps p q (post.inventoryAt true + inventory body.nodes)
        (inventory body'.nodes)) := by
  refine (PassM.leaves_newStmt _).bind fun inner q hq hinner => ?_
  rcases hinner with ⟨innerId, rfl, hinnerId⟩
  refine PassM.leaves_freshId.bind fun bodyId r hr hbodyId => .pure ?_
  have hinner : Renews lib keeps p q 0 {⟨innerId, .plain⟩} := .draw_harmless hq hinnerId .plain
  have houter : Renews lib keeps q r 0 {⟨bodyId, .plain⟩} := .draw_harmless hr hbodyId .plain
  refine ((hinner.add houter).beside _).cast rfl ?_
  rw [Block.inventory_mk, Stmts.inventory_cons, Stmts.inventory_singleton_eq,
    Stmts.inventory_singleton_eq, Stmt.inventoryAt_of_clauseIds rfl, Stmt.parts]
  show _ + (({⟨innerId, .plain⟩} : Multiset Entry) + _ + _) = _
  abel

theorem leaves_absorbPost (keeps : Property → Prop) (hdrawn : p.Drawn) (labels : List String)
    (post : Stmt) (body : Block) :
    Leaves lib env p (absorbPost labels post body) (fun body' q => Renews lib keeps p q
      (post.inventoryAt true + inventory body.nodes) (inventory body'.nodes)) := by
  refine .search trivial fun shadowed _ => ?_
  split
  · have hname : p.Evolves lib _ := .freshName "next"
    refine .step (PassM.exec_onTable _ env p) hname ?_
    have hjumps : ∀ q : Pass, Renews lib keeps q q _ _ :=
      renews_jumps labels (p.table.freshName "next").1 body
    generalize (body.replaceContinues labels (jumpTo (p.table.freshName "next").1) 0).run 0 =
      result at hjumps ⊢
    rcases result with ⟨inner, jumps⟩
    dsimp only
    split
    · refine (PassM.leaves_newStmt _).bind fun step q hq hstep => ?_
      rcases hstep with ⟨stepId, rfl, hstepId⟩
      apply (leaves_follow keeps _ _).mono
      intro body' r _ hbody
      have hstep : stepId.DrawnIn p q := hstepId
      have hlabel : Renews lib keeps p q 0 {⟨stepId, .label (p.table.freshName "next").1⟩} :=
        .draw_label (hname.trans hq) hstep fun hlib =>
          (Pass.CoinsLabel.freshName p "next").after hq hlib
      refine Renews.trans ?_ hbody
      refine ((hlabel.beside _).add (hjumps q)).cast rfl ?_
      rw [Stmt.inventoryAt_of_clauseIds rfl, Stmt.parts, inventory_stmt]
      show ({⟨stepId, .label _⟩} : Multiset Entry) + _ + _ = _
      abel
    · apply (leaves_follow keeps _ _).mono
      intro body' r _ hbody
      exact ((Renews.stay hname _).trans ((Renews.refl _ _).add (hjumps _))).trans hbody
  · have hreplaced : Leaves lib env p (body.replaceContinues labels (runPost post) 0)
        (fun body' q => body'.id = body.id ∧ RenewsBeside lib keeps (post.inventoryAt true) p q
          (inventory body.nodes) (inventory body'.nodes)) :=
      Block.leaves_replaceContinues (.ofPass (.leaves lib env)) rfl (fun q id label hq =>
        leaves_runPost (hdrawn.of_grows hq.toGrows) post id label) body (.refl p)
    refine hreplaced.bind fun body' q _ hbody => .pure ?_
    refine Renews.cast hbody.2 rfl ?_
    rcases body' with ⟨id, stmts⟩
    rw [Block.inventory_mk, Block.inventory_mk, Stmts.inventory_append,
      Stmts.inventory_singleton_eq]
    abel

/-!
## The loop
-/

theorem leaves_enclosed (keeps : Property → Prop) (labels : List Label) (init : Option Stmt)
    (loop : Stmt) :
    Leaves lib env p
      (match init with
        | some init => Initializer.enclose labels init loop
        | none => pure (loop.label labels))
      (fun s q => Renews lib keeps p q (labelEntries labels +
          (init.elim 0 (Stmt.inventoryAt true) + loop.inventoryAt true))
        (inventory (Stmts.nodes [s]))) := by
  cases init with
  | none =>
    refine .pure ((Renews.refl p _).cast (congrArg _ (zero_add _)) ?_)
    rw [loop.inventory_label, Stmts.inventory_singleton_eq]
  | some init => exact Initializer.leaves_enclose keeps labels init loop

theorem leaves_conditioned (keeps : Property → Prop) (hadds : lib.adds (.basic .bool))
    (labels : List Label) (id : NodeId) (init : Option Stmt) (cond : Option Expr) (body : Block) :
    Replaces lib keeps env p (do
        let cond ← match cond with
          | some cond => pure cond
          | none => PassM.newTrue
        let loop := Stmt.forLoop id none (some cond) none body
        match init with
        | some init => Initializer.enclose labels init loop
        | none => return loop.label labels)
      (labelEntries labels + (init.elim 0 (Stmt.inventoryAt true) +
        ({⟨id, .loop false []⟩} + inventory (OptExpr.nodes cond) + inventory body.nodes)))
      (fun s => inventory (Stmts.nodes [s])) := by
  have hloop : ∀ cond : Expr, (Stmt.forLoop id none (some cond) none body).inventoryAt true =
      {⟨id, .loop false []⟩} + inventory cond.nodes + inventory body.nodes := by
    intro cond
    rw [Stmt.inventoryAt_of_clauseIds rfl, Stmt.parts]
    simp only [inventory_append]
    show {⟨id, .loop false []⟩} + (0 + inventory cond.nodes + 0 + _) = _
    abel
  cases cond with
  | none =>
    refine (PassM.leaves_newTrue keeps hadds).bind fun cond q _ hcond => ?_
    apply (leaves_enclosed keeps labels init _).mono
    intro s r _ hs
    refine ((hcond.beside _).cast rfl ?_).trans hs
    rw [hloop]
    show _ = _ + (_ + (_ + 0 + _)) + _
    abel
  | some cond =>
    apply (leaves_enclosed keeps labels init _).mono
    intro s q _ hs
    rw [hloop] at hs
    exact hs

theorem leaves_canonical (hlifts : lib.lifts .noThreeClauseLoop = true)
    (hshort : ¬ keeps .noShortDecl) (hadds : lib.adds (.basic .bool)) (hdrawn : p.Drawn)
    (labels : List Label) (id : NodeId) (init : Option Stmt) (cond : Option Expr)
    (post : Option Stmt) (body : Block) :
    Replaces lib keeps env p (canonical labels id init cond post body)
      (labelEntries labels + (Stmt.forLoop id init cond post body).inventoryAt true)
      (fun s => inventory (Stmts.nodes [s])) := by
  let owner : Entry := ⟨id, (Stmt.forLoop id init cond post body).kind true⟩
  have hclause : ∀ clause : Option Stmt,
      (∀ operand ∈ OptStmt.operands clause,
        operand ∈ OptStmt.operands init ++ OptStmt.operands post) →
      Renews lib keeps p p ({owner} + inventory (OptStmt.headerNodes clause))
        ({owner} + clause.elim 0 (Stmt.inventoryAt true)) := by
    intro clause hmem
    cases clause with
    | none => exact .refl p _
    | some clause =>
      rw [OptStmt.inventory_headerNodes_some]
      refine .listed hshort (fun table hintact operand hoperand => ?_) p
      simp only [owner, Stmt.kind, Property.breaks, hlifts, Bool.true_and,
        List.any_eq_false] at hintact
      exact Bool.eq_false_iff.mpr (hintact operand (hmem operand hoperand))
  have hhead : Renews lib keeps p p {owner} {⟨id, .loop false []⟩} := by
    refine .change (by rintro ⟨⟩) (by rintro _ ⟨⟩) fun property _ _ => ?_
    cases property with
    | explicitDiscard => exact .of_blind rfl fun _ _ => Bool.and_false _
    | _ => exact .of_blind rfl fun _ _ => rfl
  -- The clauses move one by one, and the post step goes into the body.
  have hclauses : ∀ (body' : Block) (q : Pass), Renews lib keeps p q
      (post.elim 0 (Stmt.inventoryAt true) + inventory body.nodes) (inventory body'.nodes) →
      Renews lib keeps p q
        (labelEntries labels + (Stmt.forLoop id init cond post body).inventoryAt true)
        (labelEntries labels + (init.elim 0 (Stmt.inventoryAt true) +
          ({⟨id, .loop false []⟩} + inventory (OptExpr.nodes cond) + inventory body'.nodes))) := by
    intro body' q hbody
    have hinit := hclause init fun _ => List.mem_append_left _
    have hpost := hclause post fun _ => List.mem_append_right _
    have hboth : Renews lib keeps p p
        ({owner} + inventory (OptStmt.headerNodes init) + inventory (OptStmt.headerNodes post))
        ({⟨id, .loop false []⟩} + init.elim 0 (Stmt.inventoryAt true) +
          post.elim 0 (Stmt.inventoryAt true)) := by
      refine (hinit.add (.refl p _)).trans ?_
      refine ((hpost.trans (hhead.add (.refl p _))).add
        (.refl p (init.elim 0 (Stmt.inventoryAt true)))).cast ?_ ?_
      all_goals abel
    have hall := (Renews.refl p (labelEntries labels + inventory (OptExpr.nodes cond))).add
      ((hboth.add (.refl p (inventory body.nodes))).trans
        (((Renews.refl p ({⟨id, .loop false []⟩} + init.elim 0 (Stmt.inventoryAt true))).add
          hbody).cast (add_assoc _ _ _) rfl))
    refine hall.cast ?_ ?_
    · rw [Stmt.inventoryAt_of_clauseIds rfl, Stmt.parts]
      simp only [inventory_append]
      show _ + (({owner} : Multiset Entry) + _) = _
      abel
    · abel
  cases post with
  | none =>
    apply (leaves_conditioned keeps hadds labels id init cond body).mono
    intro s q _ hs
    exact (hclauses body p ((Renews.refl p _).cast (zero_add _) rfl)).trans hs
  | some post =>
    refine (leaves_absorbPost keeps hdrawn (labels.map Label.name) post body).bind
      fun body' q _ hbody => ?_
    apply (leaves_conditioned keeps hadds labels id init cond body').mono
    intro s r _ hs
    exact (hclauses body' q hbody).trans hs

theorem leaves_canonicalize (hlifts : lib.lifts .noThreeClauseLoop = true)
    (hshort : ¬ keeps .noShortDecl) (hadds : lib.adds (.basic .bool)) (hdrawn : p.Drawn)
    (s : Stmt) :
    Replaces lib keeps env p (canonicalize s)
      (inventory (Stmts.nodes [s])) (fun found => inventory (Stmts.nodes (found.getD [s]))) := by
  unfold canonicalize
  split
  · rename_i id init cond post body hs
    split
    · refine (leaves_canonical hlifts hshort hadds hdrawn s.labels id init cond post body).bind
        fun loop q _ hloop => .pure ?_
      rw [s.inventory_unlabeled, hs, Stmts.inventory_singleton_eq]
      exact hloop
    · exact .pure (.refl p _)
  · exact .pure (.refl p _)

theorem renewing (hlifts : lib.lifts .noThreeClauseLoop = true)
    (hshort : ¬ keeps .noShortDecl) (hadds : lib.adds (.basic .bool))
    (hdrawn : start.Drawn) : transformer.Renewing lib keeps env start where
  expr _ _ := .pure ⟨rfl, .refl _ _⟩
  stmt _ _ := .pure ⟨rfl, fun _ => .refl _ _⟩
  decl _ _ := .pure (.refl _ _)
  list _ stmts hp := Transformer.leaves_splice stmts fun s _ _ hq =>
    leaves_canonicalize hlifts hshort hadds (hdrawn.of_grows (hp.trans hq).toGrows) s
  tag _ := .pure (.refl _ _)

end Loop
theorem Loop.fresh_next (p : Pass) :
    (p.table.freshName "next").1 ∉ p.table.reserved ∧
      (p.table.freshName "next").1 ∈ (p.table.freshName "next").2.reserved := by
  constructor
  · exact fun hmem => p.table.freshName_not_taken "next" (List.mem_append_left _ hmem)
  · exact .head _

end Desugar
