import Desugar.Proofs.Evolution
import Desugar.Proofs.Inventory
import Desugar.Syntax.Labels
import Mathlib.Algebra.BigOperators.Group.List.Basic

/-!
# Renewal of inventories

When a pass changes a part of a tree, the part keeps its calls, function literals
and receives, uses no identity more often than before except for those drawn
meanwhile, and breaks none of the properties that the pass keeps unless it broke
them before.  Such renewals follow one after the other and stand side by side.
-/

namespace Desugar

def NodeId.DrawnIn (p q : Pass) (id : NodeId) : Prop :=
  p.ids.count ≤ id.val.toNat ∧ id.Below q.ids.count

def NodeId.timesDrawn (p q : Pass) (id : NodeId) : Nat :=
  if p.ids.count ≤ id.val.toNat ∧ id.val.toNat < q.ids.count then 1 else 0

theorem NodeId.timesDrawn_of_drawnIn {p q : Pass} {id : NodeId} (h : id.DrawnIn p q) :
    id.timesDrawn p q = 1 :=
  if_pos h

theorem NodeId.timesDrawn_add {p q r : Pass} (hpq : p.ids.count ≤ q.ids.count)
    (hqr : q.ids.count ≤ r.ids.count) (id : NodeId) :
    id.timesDrawn p q + id.timesDrawn q r = id.timesDrawn p r := by
  unfold timesDrawn
  split <;> split <;> split <;> omega

structure Entry.Spared (lib : Liberty) (property : Property) (p : Pass) (entry : Entry) : Prop where
  known : ∀ id ∈ property.consults entry, id.Below p.ids.count
  intact : ∀ q, p.Evolves lib q → property.breaks lib.lifts q.table entry = false

theorem Entry.Spared.mono {lib : Liberty} {property : Property} {p q : Pass} {entry : Entry}
    (h : entry.Spared lib property p) (hq : p.Evolves lib q) : entry.Spared lib property q where
  known id hid := Nat.lt_of_lt_of_le (h.known id hid) hq.ids
  intact r hr := h.intact r (hq.trans hr)

theorem Entry.Spared.of_blind {lib : Liberty} {property : Property} {p : Pass} {entry : Entry}
    (hblind : property.consults entry = [])
    (h : ∀ q, p.Evolves lib q → property.breaks lib.lifts q.table entry = false) :
    entry.Spared lib property p where
  known id hid := by
    rw [hblind] at hid
    cases hid
  intact := h

/-- A kind of entry that breaks none of the properties to keep, whatever is known,
and attaches no label. -/
structure Kind.Harmless (keeps : Property → Prop) (kind : Kind) : Prop where
  unlabeled : ∀ name, kind ≠ .label name
  intact : ∀ property, keeps property → ∀ id : NodeId, property.consults ⟨id, kind⟩ = [] ∧
    ∀ (lifts : Lifting) (table : SymbolTable), property.breaks lifts table ⟨id, kind⟩ = false

namespace Kind.Harmless

variable {keeps : Property → Prop}

theorem plain : Harmless keeps .plain := by
  refine ⟨nofun, fun property _ id => ?_⟩
  cases property <;> exact ⟨rfl, fun _ _ => rfl⟩

theorem assign : Harmless keeps (.assign true false false) := by
  refine ⟨nofun, fun property _ id => ?_⟩
  cases property <;> exact ⟨rfl, fun _ _ => rfl⟩

theorem spec {typed initialized : Bool} (htyped : keeps .typedDecl → typed = true)
    (hinitialized : keeps .initializedDecl → initialized = true) :
    Harmless keeps (.spec true typed initialized) := by
  refine ⟨nofun, fun property hkeeps id => ?_⟩
  cases property with
  | typedDecl => exact ⟨rfl, fun _ _ => by simp [Property.breaks, htyped hkeeps]⟩
  | initializedDecl => exact ⟨rfl, fun _ _ => by simp [Property.breaks, hinitialized hkeeps]⟩
  | _ => exact ⟨rfl, fun _ _ => rfl⟩

theorem spared {kind : Kind} (h : Harmless keeps kind) {lib : Liberty} {property : Property}
    (hkeeps : keeps property) (p : Pass) (id : NodeId) :
    Entry.Spared lib property p ⟨id, kind⟩ :=
  .of_blind (h.intact property hkeeps id).1 fun q _ => (h.intact property hkeeps id).2 _ q.table

end Kind.Harmless

structure Pass.CoinsLabel (p q : Pass) (name : String) : Prop where
  reserved : name ∈ q.table.reserved
  fresh : name ∉ p.table.takenNames
  free : ∀ binding ∈ q.table.bindings, binding.name ≠ name

namespace Pass.CoinsLabel

variable {lib : Liberty} {p q r : Pass} {name : String}

theorem before (h : q.CoinsLabel r name) (hpq : p.Evolves lib q) (hlib : ¬ lib.reserves) :
    p.CoinsLabel r name where
  reserved := h.reserved
  fresh htaken := by
    rcases hpq.coined hlib with ⟨made, labels, hcoins⟩
    exact h.fresh (hcoins.mem_takenNames_iff.mpr (.inr htaken))
  free := h.free

theorem after (h : p.CoinsLabel q name) (hqr : q.Evolves lib r) (hlib : ¬ lib.reserves) :
    p.CoinsLabel r name where
  reserved := hqr.table.reserved h.reserved
  fresh := h.fresh
  free binding hbinding heq := by
    rcases hqr.coined hlib with ⟨made, labels, hcoins⟩
    have hmem : binding ∈ q.table.bindings.toList ++ made := by
      rw [← hcoins.bindings]
      exact Array.mem_toList_iff.mpr hbinding
    rcases List.mem_append.mp hmem with hold | hmade
    · exact h.free binding (Array.mem_toList_iff.mp hold) heq
    · apply hcoins.fresh name
      · exact List.mem_append_left _ (List.mem_map.mpr ⟨binding, hmade, heq⟩)
      · exact List.mem_append_left _ h.reserved

theorem freshName (p : Pass) (stem : String) :
    p.CoinsLabel { p with table := (p.table.freshName stem).2 } (p.table.freshName stem).1 where
  reserved := .head _
  fresh := p.table.freshName_not_taken stem
  free binding hbinding heq := by
    apply p.table.freshName_not_taken stem
    apply List.mem_append_right
    exact List.mem_map.mpr ⟨binding, Array.mem_toList_iff.mpr hbinding, heq⟩

end Pass.CoinsLabel

structure Renews (lib : Liberty) (keeps : Property → Prop) (p q : Pass)
    (old new : Multiset Entry) : Prop where
  evolves : p.Evolves lib q
  few : ∀ id, (identities new).count id ≤ (identities old).count id + id.timesDrawn p q
  lasting : ∀ id, old.count ⟨id, .lasting⟩ ≤ new.count ⟨id, .lasting⟩
  spared : ∀ property, keeps property → (∀ entry ∈ old, entry.Spared lib property p) →
    ∀ entry ∈ new, entry.Spared lib property q
  labels : ¬ lib.reserves → ∀ (id : NodeId) (name : String), ⟨id, .label name⟩ ∈ new →
    (∃ source, ⟨source, .label name⟩ ∈ old) ∨ p.CoinsLabel q name

namespace Renews

variable {lib : Liberty} {keeps : Property → Prop} {p q r : Pass} {a b c a' b' : Multiset Entry}

theorem stay (h : p.Evolves lib q) (a : Multiset Entry) : Renews lib keeps p q a a where
  evolves := h
  few _ := Nat.le_add_right _ _
  lasting _ := Nat.le_refl _
  spared _ _ ha entry hentry := (ha entry hentry).mono h
  labels _ id _ hname := .inl ⟨id, hname⟩

theorem refl (p : Pass) (a : Multiset Entry) : Renews lib keeps p p a a :=
  stay (.refl p) a

theorem trans (hab : Renews lib keeps p q a b) (hbc : Renews lib keeps q r b c) :
    Renews lib keeps p r a c where
  evolves := hab.evolves.trans hbc.evolves
  few id := by
    have hsum := id.timesDrawn_add hab.evolves.ids hbc.evolves.ids
    have hfirst := hab.few id
    have hsecond := hbc.few id
    omega
  lasting id := Nat.le_trans (hab.lasting id) (hbc.lasting id)
  spared property hkeeps ha := hbc.spared property hkeeps (hab.spared property hkeeps ha)
  labels hlib id name hname := by
    rcases hbc.labels hlib id name hname with ⟨source, hsource⟩ | hcoined
    · rcases hab.labels hlib source name hsource with hold | hcoined
      · exact .inl hold
      · exact .inr (hcoined.after hbc.evolves hlib)
    · exact .inr (hcoined.before hab.evolves hlib)

theorem add (hab : Renews lib keeps p q a a') (hbc : Renews lib keeps q r b b') :
    Renews lib keeps p r (a + b) (a' + b') where
  evolves := hab.evolves.trans hbc.evolves
  few id := by
    have hsum := id.timesDrawn_add hab.evolves.ids hbc.evolves.ids
    have hfirst := hab.few id
    have hsecond := hbc.few id
    simp only [identities_add, Multiset.count_add]
    omega
  lasting id := by
    simp only [Multiset.count_add]
    exact Nat.add_le_add (hab.lasting id) (hbc.lasting id)
  spared property hkeeps hold entry hentry := by
    have hfirst : ∀ entry ∈ a, entry.Spared lib property p :=
      fun entry hentry => hold entry (Multiset.mem_add.mpr (.inl hentry))
    have hsecond : ∀ entry ∈ b, entry.Spared lib property q := fun entry hentry =>
      (hold entry (Multiset.mem_add.mpr (.inr hentry))).mono hab.evolves
    rcases Multiset.mem_add.mp hentry with hentry | hentry
    · exact (hab.spared property hkeeps hfirst entry hentry).mono hbc.evolves
    · exact hbc.spared property hkeeps hsecond entry hentry
  labels hlib id name hname := by
    rcases Multiset.mem_add.mp hname with hname | hname
    · rcases hab.labels hlib id name hname with ⟨source, hsource⟩ | hcoined
      · exact .inl ⟨source, Multiset.mem_add.mpr (.inl hsource)⟩
      · exact .inr (hcoined.after hbc.evolves hlib)
    · rcases hbc.labels hlib id name hname with ⟨source, hsource⟩ | hcoined
      · exact .inl ⟨source, Multiset.mem_add.mpr (.inr hsource)⟩
      · exact .inr (hcoined.before hab.evolves hlib)

theorem cast (h : Renews lib keeps p q a b) (ha : a' = a) (hb : b' = b) :
    Renews lib keeps p q a' b' := by
  rw [ha, hb]
  exact h

theorem beside (h : Renews lib keeps p q 0 b) (a : Multiset Entry) :
    Renews lib keeps p q a (a + b) :=
  ((refl p a).add h).cast (add_zero a).symm rfl

theorem drop (h : ∀ entry ∈ a, entry.kind ≠ .lasting) : Renews lib keeps p p a 0 where
  evolves := .refl p
  few _ := Nat.zero_le _
  lasting id := by
    have hnone : a.count ⟨id, .lasting⟩ = 0 :=
      Multiset.count_eq_zero.mpr fun hmem => h _ hmem rfl
    rw [hnone]
    exact Nat.zero_le _
  spared _ _ _ entry hentry := absurd hentry (Multiset.notMem_zero entry)
  labels _ _ _ hname := absurd hname (Multiset.notMem_zero _)

theorem change {id : NodeId} {kind kind' : Kind} (hkind : kind = .lasting → kind' = .lasting)
    (hlabel : ∀ name, kind' ≠ .label name)
    (h : ∀ property, keeps property → Entry.Spared lib property p ⟨id, kind⟩ →
      Entry.Spared lib property p ⟨id, kind'⟩) :
    Renews lib keeps p p {⟨id, kind⟩} {⟨id, kind'⟩} where
  evolves := .refl p
  few _ := Nat.le_add_right _ _
  lasting other := by
    by_cases hlasting : kind = .lasting
    · rw [hlasting, hkind hlasting]
    · have hnone : Multiset.count (⟨other, .lasting⟩ : Entry) {⟨id, kind⟩} = 0 := by
        apply Multiset.count_eq_zero.mpr
        intro hmem
        have heq := Multiset.mem_singleton.mp hmem
        injection heq with _ heq
        exact hlasting heq.symm
      rw [hnone]
      exact Nat.zero_le _
  spared property hkeeps hold entry hentry := by
    cases Multiset.mem_singleton.mp hentry
    exact h property hkeeps (hold _ (Multiset.mem_singleton_self _))
  labels _ other name hname := by
    injection Multiset.mem_singleton.mp hname with _ hkind
    exact absurd hkind.symm (hlabel name)
theorem change_beside {owner : Entry} {id : NodeId} {kind kind' : Kind}
    (hkind : kind = .lasting → kind' = .lasting) (hlabel : ∀ name, kind' ≠ .label name)
    (h : ∀ property, keeps property → owner.Spared lib property p →
      Entry.Spared lib property p ⟨id, kind⟩ → Entry.Spared lib property p ⟨id, kind'⟩) :
    Renews lib keeps p p ({owner} + {⟨id, kind⟩}) ({owner} + {⟨id, kind'⟩}) := by
  have hfree : Renews lib (fun _ => False) p p ({owner} + {⟨id, kind⟩})
      ({owner} + {⟨id, kind'⟩}) :=
    (refl p _).add (.change hkind hlabel fun _ hkeeps => hkeeps.elim)
  refine ⟨hfree.evolves, hfree.few, hfree.lasting, ?_, hfree.labels⟩
  intro property hkeeps hold entry hentry
  have howner := hold owner (by simp)
  rcases Multiset.mem_add.mp hentry with hentry | hentry
  · rwa [Multiset.mem_singleton.mp hentry]
  · rw [Multiset.mem_singleton.mp hentry]
    exact h property hkeeps howner (hold _ (by simp))


theorem draw {id : NodeId} {kind : Kind} (h : p.Evolves lib q) (hid : id.DrawnIn p q)
    (hlabel : ∀ name, kind = .label name → ¬ lib.reserves → p.CoinsLabel q name)
    (hkind : ∀ property, keeps property → Entry.Spared lib property q ⟨id, kind⟩) :
    Renews lib keeps p q 0 {⟨id, kind⟩} where
  evolves := h
  few other := by
    show Multiset.count other {id} ≤ 0 + other.timesDrawn p q
    rw [Multiset.count_singleton]
    split
    · rename_i heq
      subst heq
      rw [NodeId.timesDrawn_of_drawnIn hid]
    · exact Nat.zero_le _
  lasting _ := Nat.zero_le _
  spared property hkeeps _ entry hentry := by
    cases Multiset.mem_singleton.mp hentry
    exact hkind property hkeeps
  labels hlib other name hname := by
    injection Multiset.mem_singleton.mp hname with _ hkind
    exact .inr (hlabel name hkind.symm hlib)

theorem draw_harmless {id : NodeId} {kind : Kind} (h : p.Evolves lib q) (hid : id.DrawnIn p q)
    (hkind : kind.Harmless keeps) : Renews lib keeps p q 0 {⟨id, kind⟩} :=
  draw h hid (fun name heq => absurd heq (hkind.unlabeled name))
    fun _ hkeeps => hkind.spared hkeeps q id

theorem draw_label {id : NodeId} {name : String} (h : p.Evolves lib q) (hid : id.DrawnIn p q)
    (hcoined : ¬ lib.reserves → p.CoinsLabel q name) :
    Renews lib keeps p q 0 {⟨id, .label name⟩} := by
  refine draw h hid (fun other heq => ?_) fun property _ => ?_
  · cases heq
    exact hcoined
  · cases property <;> exact .of_blind rfl fun _ _ => rfl

end Renews

/-!
## Inventories of lists and labels
-/

theorem inventory_expr {e : Expr} (h : e.boundIds = []) (nodes : List Node) :
    inventory (.expr e :: nodes) = {⟨e.id, e.kind⟩} + inventory nodes := by
  rw [inventory_cons, Node.entries, h]
  rfl

theorem Exprs.inventory_eq_sum (es : List Expr) :
    inventory (Exprs.nodes es) = (es.map fun e => inventory e.nodes).sum := by
  induction es with
  | nil => rfl
  | cons e rest ih =>
    rw [Exprs.nodes, inventory_append, ih]
    rfl

theorem Stmts.inventory_append (first second : List Stmt) :
    inventory (Stmts.nodes (first ++ second)) =
      inventory (Stmts.nodes first) + inventory (Stmts.nodes second) := by
  induction first with
  | nil => exact (zero_add _).symm
  | cons s rest ih =>
    simp only [List.cons_append, Stmts.nodes, inventory_cons, Desugar.inventory_append, ih]
    abel

theorem Stmts.inventory_cons (s : Stmt) (rest : List Stmt) :
    inventory (Stmts.nodes (s :: rest)) =
      inventory (Stmts.nodes [s]) + inventory (Stmts.nodes rest) :=
  Stmts.inventory_append [s] rest

theorem Stmts.inventory_eq_sum (stmts : List Stmt) :
    inventory (Stmts.nodes stmts) = (stmts.map fun s => inventory (Stmts.nodes [s])).sum := by
  induction stmts with
  | nil => rfl
  | cons s rest ih =>
    rw [Stmts.inventory_cons, ih]
    rfl

theorem Stmts.inventory_flatten (lists : List (List Stmt)) :
    inventory (Stmts.nodes lists.flatten) =
      (lists.map fun stmts => inventory (Stmts.nodes stmts)).sum := by
  induction lists with
  | nil => rfl
  | cons stmts rest ih =>
    rw [List.flatten_cons, Stmts.inventory_append, ih]
    rfl

theorem Stmts.inventory_flatMap {α : Type} (f : α → List Stmt) (xs : List α) :
    inventory (Stmts.nodes (xs.flatMap f)) =
      (xs.map fun x => inventory (Stmts.nodes (f x))).sum := by
  rw [List.flatMap_def, Stmts.inventory_flatten, List.map_map]
  rfl

theorem Stmts.inventory_singleton (s : Stmt) :
    inventory (Stmts.nodes [s]) = ((Node.stmt s).entries : Multiset Entry) + inventory s.parts := by
  simp [Stmts.nodes]

def labelEntries (labels : List Label) : Multiset Entry :=
  (labels.map fun label => ⟨label.id, .label label.name⟩ : List Entry)

theorem mem_plainEntries {entry : Entry} {ids : List NodeId} (h : entry ∈ plainEntries ids) :
    entry.kind = .plain := by
  rcases List.mem_map.mp h with ⟨id, _, rfl⟩
  rfl

theorem Stmt.inventory_label (s : Stmt) (labels : List Label) :
    inventory (Stmts.nodes [s.label labels]) =
      labelEntries labels + inventory (Stmts.nodes [s]) := by
  induction labels with
  | nil => exact (zero_add _).symm
  | cons label rest ih =>
    have hrest : inventory (.stmt (s.label rest) :: (s.label rest).parts) =
        inventory (Stmts.nodes [s.label rest]) := by
      rw [Stmts.inventory_singleton, Desugar.inventory_cons]
    rw [Stmt.label, Stmts.inventory_singleton, Stmt.parts, hrest, ih, ← add_assoc]
    rfl

theorem Stmt.inventory_unlabeled (s : Stmt) :
    inventory (Stmts.nodes [s]) =
      labelEntries s.labels + inventory (Stmts.nodes [s.unlabeled]) := by
  conv_lhs => rw [← s.label_labels_unlabeled]
  exact s.unlabeled.inventory_label s.labels

namespace Renews

variable {lib : Liberty} {keeps : Property → Prop} {p q r : Pass}

theorem drop_plain (p : Pass) (ids : List NodeId) :
    Renews lib keeps p p (plainEntries ids : List Entry) 0 := by
  apply drop
  intro entry hentry hkind
  rw [mem_plainEntries (Multiset.mem_coe.mp hentry)] at hkind
  cases hkind

theorem drop_labels (p : Pass) (labels : List Label) :
    Renews lib keeps p p (labelEntries labels) 0 := by
  apply drop
  intro entry hentry hkind
  rcases List.mem_map.mp (Multiset.mem_coe.mp hentry) with ⟨label, _, rfl⟩
  cases hkind

theorem labelFirst (p : Pass) (labels : List Label) (stmts : List Stmt) :
    Renews lib keeps p p (labelEntries labels + inventory (Stmts.nodes stmts))
      (inventory (Stmts.nodes (Stmts.labelFirst labels stmts))) := by
  cases stmts with
  | nil => exact (drop_labels p _).add (refl p 0)
  | cons s rest =>
    refine (refl p _).cast rfl ?_
    rw [Stmts.labelFirst, Stmts.inventory_cons, s.inventory_label, Stmts.inventory_cons s rest,
      add_assoc]

end Renews

/-!
## Actions that renew
-/

/-- However an action ends, the state has evolved, and the entries of a result are what became
of the old ones. -/
abbrev PassM.Replaces {α : Type} (lib : Liberty) (keeps : Property → Prop) (env : PassEnv)
    (p : Pass) (m : PassM α) (old : Multiset Entry) (new : α → Multiset Entry) : Prop :=
  Leaves lib env p m (fun a q => Renews lib keeps p q old (new a))

namespace PassM.Leaves

variable {α β : Type} {lib : Liberty} {keeps : Property → Prop} {env : PassEnv} {p : Pass}

section

variable (keeps : Property → Prop) (old : α → Multiset Entry) (new : β → Multiset Entry)
  (xs : List α)

theorem mapM {f : α → PassM β}
    (h : ∀ a ∈ xs, ∀ q, p.Evolves lib q → Replaces lib keeps env q (f a) (old a) (fun b => new b)) :
    Replaces lib keeps env p (xs.mapM f) (xs.map old).sum (fun ys => (ys.map new).sum) := by
  induction xs generalizing p with
  | nil => exact .pure (.refl p 0)
  | cons x rest ih =>
    rw [List.mapM_cons]
    apply (h x (.head _) p (.refl p)).bind
    intro y q hq hrenews
    have hrest := ih (p := q) fun a ha r hr => h a (.tail _ ha) r (hq.trans hr)
    apply hrest.bind
    intro ys r _ hrenews'
    exact .pure (hrenews.add hrenews')

theorem stmts {f : α → PassM Stmt}
    (h : ∀ a ∈ xs, ∀ q, p.Evolves lib q → Replaces lib keeps env q (f a)
      (old a) (fun s => inventory (Stmts.nodes [s]))) :
    Replaces lib keeps env p (xs.mapM f) (xs.map old).sum (fun ys => inventory (Stmts.nodes ys)) :=
  (mapM keeps old _ xs h).mono fun ys _ _ hys => hys.cast rfl (Stmts.inventory_eq_sum ys)

theorem exprs {f : α → PassM Expr}
    (h : ∀ a ∈ xs, ∀ q, p.Evolves lib q → Replaces lib keeps env q (f a)
      (old a) (fun e => inventory e.nodes)) :
    Replaces lib keeps env p (xs.mapM f) (xs.map old).sum (fun ys => inventory (Exprs.nodes ys)) :=
  (mapM keeps old _ xs h).mono fun ys _ _ hys => hys.cast rfl (Exprs.inventory_eq_sum ys)

theorem mapM_new {f : α → PassM β}
    (h : ∀ a ∈ xs, ∀ q, p.Evolves lib q →
      Replaces lib keeps env q (f a) 0 (fun b => new b)) :
    Replaces lib keeps env p (xs.mapM f) 0 (fun ys => (ys.map new).sum) :=
  (mapM keeps (fun _ => 0) new xs h).mono fun _ _ _ hys => hys.cast List.sum_map_zero.symm rfl

theorem newExprs {f : α → PassM Expr}
    (h : ∀ a ∈ xs, ∀ q, p.Evolves lib q →
      Replaces lib keeps env q (f a) 0 (fun e => inventory e.nodes)) :
    Replaces lib keeps env p (xs.mapM f) 0 (fun ys => inventory (Exprs.nodes ys)) :=
  (mapM_new keeps _ xs h).mono fun ys _ _ hys => hys.cast rfl (Exprs.inventory_eq_sum ys)

end

theorem filterMapM {f : α → PassM (Option β)} {old : α → Multiset Entry}
    {new : β → Multiset Entry} (xs : List α)
    (h : ∀ a ∈ xs, ∀ q, p.Evolves lib q → Replaces lib keeps env q (f a)
      (old a) (fun found => found.elim 0 new)) :
    Replaces lib keeps env p (xs.filterMapM f) (xs.map old).sum (fun ys => (ys.map new).sum) := by
  induction xs generalizing p with
  | nil => exact .pure (.refl p 0)
  | cons x rest ih =>
    rw [List.filterMapM_cons]
    apply (h x (.head _) p (.refl p)).bind
    intro found q hq hrenews
    have hrest := ih (p := q) fun a ha r hr => h a (.tail _ ha) r (hq.trans hr)
    cases found with
    | none =>
      apply hrest.mono
      intro ys r _ hrenews'
      exact (hrenews.add hrenews').cast rfl (zero_add _).symm
    | some y =>
      apply hrest.bind
      intro ys r _ hrenews'
      exact .pure (hrenews.add hrenews')

end PassM.Leaves

/-!
## New nodes
-/

namespace PassM

variable {lib : Liberty} {keeps : Property → Prop} {env : PassEnv} {p : Pass}

theorem leaves_freshId : Leaves lib env p freshId (fun id q => id.DrawnIn p q) := by
  apply Leaves.of_drawsOne (freshId_drawsOne env p)
  · exact fun _ _ => .refl _ _
  · exact fun _ _ hother => .inl hother
  · exact fun _ => rfl
  · exact fun _ => ⟨rfl, rfl, rfl⟩
  · exact fun _ => rfl
  · exact fun id ids hfresh hbelow _ => ⟨hfresh, hbelow⟩

theorem leaves_newStmt (f : NodeId → Stmt) :
    Leaves lib env p (newStmt f) (fun s q => ∃ id, s = f id ∧ id.DrawnIn p q) := by
  apply Leaves.of_drawsOne (newStmt_drawsOne f env p)
  · exact fun _ _ => .refl _ _
  · exact fun _ _ hother => .inl hother
  · exact fun _ => rfl
  · exact fun _ => ⟨rfl, rfl, rfl⟩
  · exact fun _ => rfl
  · exact fun id ids hfresh hbelow _ => ⟨id, rfl, hfresh, hbelow⟩

theorem withType_rest (table : SymbolTable) (ty : Option TypeId) (id : NodeId) :
    (withType table ty id).types = table.types ∧ table.SameScopes (withType table ty id) ∧
      (withType table ty id).scopeOf = table.scopeOf := by
  cases ty with
  | none | some ty => exact ⟨rfl, ⟨rfl, rfl, rfl⟩, rfl⟩

theorem leaves_newExpr (f : NodeId → Expr) (ty : Option TypeId) :
    Leaves lib env p (newExpr f ty) (fun e q => ∃ id, e = f id ∧ id.DrawnIn p q ∧
      ∀ known, ty = some known → q.table.exprTypes[id]? = some known) := by
  apply Leaves.of_drawsOne (newExpr_drawsOne f ty env p)
  · exact fun _ hid => extends_withType ty hid
  · exact fun _ _ hother => recorded_withType hother
  · exact fun id => (withType_rest p.table ty id).1
  · exact fun id => (withType_rest p.table ty id).2.1
  · exact fun id => (withType_rest p.table ty id).2.2
  · intro id ids hfresh hbelow _
    refine ⟨id, rfl, ⟨hfresh, hbelow⟩, ?_⟩
    intro known hknown
    subst hknown
    exact getElem?_withType p.table known id

theorem leaves_newBlank :
    Leaves lib env p newBlank (fun e q => ∃ id, e = .ident id blank ∧ id.DrawnIn p q) := by
  apply (leaves_newExpr _ none).mono
  rintro e q _ ⟨id, rfl, hid, _⟩
  exact ⟨id, rfl, hid⟩

theorem leaves_newTrue (keeps : Property → Prop) (hadds : lib.adds (.basic .bool)) :
    Replaces lib keeps env p newTrue 0 (fun e => inventory e.nodes) := by
  refine .step (exec_onTable _ env p) (.intern hadds) ?_
  apply (leaves_newExpr _ _).mono
  rintro e q hq ⟨id, rfl, hid, _⟩
  have hevolves : p.Evolves lib _ := .intern hadds
  exact ((Renews.stay hevolves 0).trans (.draw_harmless hq hid .plain)).cast rfl rfl

theorem leaves_newUse (keeps : Property → Prop) (binding : BindingId) :
    Leaves lib env p (newUse binding) (fun e q => Renews lib keeps p q 0 (inventory e.nodes) ∧
      ∃ id name, e = .ident id name ∧ id.Below q.ids.count ∧
        ∀ ty, bindingTy p.table binding = some ty → q.table.exprTypes[id]? = some ty) := by
  apply Leaves.of_drawsOne (newUse_drawsOne binding env p)
  · exact fun _ hid => extends_use binding hid
  · exact fun _ _ hother => recorded_use hother
  · exact fun id => (withType_rest p.table _ id).1
  · intro id
    have hsame := (withType_rest p.table (bindingTy p.table binding) id).2.1
    exact ⟨hsame.scopes, hsame.bindings, hsame.reserved⟩
  · exact fun id => (withType_rest p.table _ id).2.2
  · intro id ids hfresh hbelow hevolves
    refine ⟨.draw_harmless hevolves ⟨hfresh, hbelow⟩ .plain, id, _, rfl, hbelow, ?_⟩
    intro ty hty
    show (withType p.table (bindingTy p.table binding) id).exprTypes[id]? = some ty
    rw [hty]
    exact getElem?_withType p.table ty id

theorem leaves_newTemp (scope : ScopeId) (ty : TypeId) :
    Leaves lib env p (newTemp scope ty) (fun temp q => bindingTy q.table temp = some ty) := by
  refine .look (exec_read env p) ?_
  refine .of_exec (exec_bind_ok (exec_onTable _ env p)) ?_ (bindingTy_pushBinding _ _)
  exact .declareSynthetic (p.table.freshName_not_taken env.tempStem)

theorem leaves_newBinder (binding : BindingId) :
    Leaves lib env p (newBinder binding) (fun name q => name.id.DrawnIn p q) := by
  apply Leaves.of_drawsOne (newBinder_drawsOne binding env p)
  · exact fun _ hid => SymbolTable.extends_recordDef binding hid
  · exact fun _ _ hother => SymbolTable.recorded_recordDef hother
  · exact fun _ => rfl
  · exact fun _ => ⟨rfl, rfl, rfl⟩
  · exact fun _ => rfl
  · exact fun id ids hfresh hbelow _ => ⟨hfresh, hbelow⟩

theorem leaves_scopeAt {α : Type} {node : NodeId} {f : ScopeId → PassM α}
    {post : α → Pass → Prop} (h : ∀ scope, Leaves lib env p (f scope) post) :
    Leaves lib env p (scopeAt node >>= f) post := by
  unfold scopeAt
  rw [bind_assoc]
  refine .look (exec_scope? env p) ?_
  exact Leaves.require fun scope _ => h scope

theorem leaves_ownScope {α : Type} {scope : ScopeId} {f : NodeId → PassM α}
    {post : α → Pass → Prop}
    (h : ∀ id q, p.Evolves lib q → id.DrawnIn p q → Leaves lib env q (f id) post) :
    Leaves lib env p (do
      let id ← freshId
      modifyTable (fun table => table.attachScope id scope)
      f id) post := by
  cases htake : p.ids.take? with
  | none =>
    have hfresh : freshId.exec env p = (.error .exhausted, p) := by rw [exec_freshId, htake]
    exact Leaves.of_exec_error (exec_bind_error hfresh) (.refl p)
  | some drawn =>
    rcases drawn with ⟨id, ids⟩
    have hfresh : freshId.exec env p = (.ok id, { p with ids := ids }) := by
      rw [exec_freshId, htake]
    have hattach : p.Evolves lib _ := .take_attachScope htake scope
    refine .via ?_ hattach (h id _ hattach ⟨?_, Pass.Grows.below_of_take htake⟩)
    · rw [exec_bind_ok hfresh, exec_bind_ok (exec_modifyTable _ env _)]
    · rw [(NodeSupply.take?_eq_some htake).1]
      exact Nat.le_refl _

theorem leaves_newAssign (keeps : Property → Prop) (lhs rhs : List Expr)
    (h : lhs.length ≤ 1 ∨ rhs.length = 1) :
    Replaces lib keeps env p (newAssign lhs rhs)
      (inventory (Exprs.nodes lhs) + inventory (Exprs.nodes rhs))
      (fun s => inventory (Stmts.nodes [s])) := by
  apply (leaves_newStmt _).mono
  rintro s q hq ⟨id, rfl, hid⟩
  have hparallel : (decide (lhs.length > 1) && rhs.length != 1) = false := by
    rcases h with h | h
    · simp [Nat.not_lt.mpr h]
    · simp [h]
  have hkind : (Stmt.assign id lhs .assign rhs).kind true = .assign true false false := by
    simp only [Stmt.kind, hparallel]
    rfl
  have hdrawn : Renews lib keeps p q 0 {⟨id, .assign true false false⟩} :=
    .draw_harmless hq hid .assign
  refine (hdrawn.beside _).cast rfl ?_
  beta_reduce
  rw [Stmts.inventory_singleton, Stmt.parts, inventory_append, Node.entries, hkind, add_comm]
  rfl

theorem inventory_varDecl (stmtId declId : NodeId) (spec : Spec) :
    inventory (Stmts.nodes [.decl stmtId ⟨declId, .var, [spec]⟩]) =
      {⟨stmtId, .plain⟩} + {⟨declId, .plain⟩} + (spec.entries true : Multiset Entry) +
        inventory (Specs.nodes [spec]) := by
  rw [Stmts.inventory_singleton, Stmt.parts, Decl.nodes, inventory_cons, ← add_assoc]
  congr 1
  simp only [Node.entries, List.flatMap_cons, List.flatMap_nil, List.append_nil]
  rfl

theorem leaves_newDecl (keeps : Property → Prop) (spec : Spec) :
    Replaces lib keeps env p (newDecl spec)
      ((spec.entries true : Multiset Entry) + inventory (Specs.nodes [spec]))
      (fun s => inventory (Stmts.nodes [s])) := by
  apply leaves_freshId.bind
  intro declId q hq hdecl
  apply (leaves_newStmt _).mono
  rintro s r hr ⟨stmtId, rfl, hstmt⟩
  have hdecl : Renews lib keeps p q 0 {⟨declId, .plain⟩} := .draw_harmless hq hdecl .plain
  have hstmt : Renews lib keeps q r 0 {⟨stmtId, .plain⟩} := .draw_harmless hr hstmt .plain
  refine ((hdecl.beside _).trans (hstmt.beside _)).cast rfl ?_
  beta_reduce
  rw [inventory_varDecl]
  abel

theorem leaves_newVar (name : Ident) (ty : Option TypeExpr) (values : List Expr)
    (htyped : keeps .typedDecl → ty.isSome = true)
    (hinitialized : keeps .initializedDecl → values ≠ []) :
    Replaces lib keeps env p (newVar name ty values)
      ({⟨name.id, .plain⟩} + inventory (Exprs.nodes values))
      (fun s => inventory (Stmts.nodes [s])) := by
  apply leaves_freshId.bind
  intro specId q hq hspec
  apply (leaves_newDecl keeps _).mono
  intro s r _ hs
  have hkind : Kind.Harmless keeps (.spec true ty.isSome (!values.isEmpty)) :=
    .spec htyped fun hkeeps => by simp [hinitialized hkeeps]
  have hspec : Renews lib keeps p q 0 {⟨specId, .spec true ty.isSome (!values.isEmpty)⟩} :=
    .draw_harmless hq hspec hkind
  refine ((hspec.beside _).cast rfl ?_).trans hs
  simp only [Specs.nodes, inventory_append, inventory_nil, add_zero]
  rw [add_right_comm, add_comm {_}]
  rfl

theorem leaves_newVarOf (binding : BindingId) (ty : Option TypeExpr) (values : List Expr)
    (htyped : keeps .typedDecl → ty.isSome = true)
    (hinitialized : keeps .initializedDecl → values ≠ []) :
    Replaces lib keeps env p (newVarOf binding ty values)
      (inventory (Exprs.nodes values)) (fun s => inventory (Stmts.nodes [s])) := by
  apply (leaves_newBinder binding).bind
  intro name q hq hname
  apply (leaves_newVar name ty values htyped hinitialized).mono
  intro s r _ hs
  have hname : Renews lib keeps p q 0 {⟨name.id, .plain⟩} := .draw_harmless hq hname .plain
  exact ((hname.add (.refl q _)).cast (zero_add _).symm rfl).trans hs

/-!
## Types and zero values
-/

theorem leaves_defaultType (hadds : lib.AddsBasics) (ty : TypeId) :
    Leaves lib env p (defaultType ty) (fun _ _ => True) :=
  .of_exec (exec_onTable _ env p) (.defaultType hadds ty) trivial

theorem leaves_spell (ty : TypeId) (node : NodeId) :
    Leaves lib env p (spell ty node) (fun _ q => q = p) := by
  refine .look (exec_getTable env p) ?_
  refine .look (exec_read env p) ?_
  cases p.table.spell env.view ty with
  | ok expr => exact .pure rfl
  | error failed => exact Leaves.raise

theorem leaves_zeroValue (keeps : Property → Prop) (hadds : lib.AddsBasics)
    (ty : TypeId) (name : String) (node : NodeId) :
    Replaces lib keeps env p (zeroValue ty name node) 0 (fun e => inventory e.nodes) := by
  have hdefault : p.Evolves lib _ := .defaultType hadds ty
  refine .step (exec_onTable _ env p) hdefault ?_
  refine .look (exec_getTable env _) ?_
  have hliteral : ∀ (value : Literal) (known : TypeId) (q : Pass), p.Evolves lib q →
      Leaves lib env q (newExpr (fun id => .lit id value) (some known)) (fun e r =>
        Renews lib keeps p r 0 (inventory e.nodes)) := by
    intro value known q hq
    apply (leaves_newExpr _ _).mono
    rintro e r hr ⟨id, rfl, hid, _⟩
    exact (Renews.stay hq 0).trans (.draw_harmless hr hid .plain)
  split
  · exact hliteral _ _ _ hdefault
  · exact hliteral _ _ _ hdefault
  · exact hliteral _ _ _ hdefault
  · exact hliteral _ _ _ hdefault
  · apply (leaves_spell _ _).bind
    rintro spelled q hq rfl
    apply (leaves_newExpr _ _).mono
    rintro e r hr ⟨id, rfl, hid, _⟩
    exact (Renews.stay hdefault 0).trans (.draw_harmless hr hid .plain)
  · exact Leaves.raise

end PassM
end Desugar
