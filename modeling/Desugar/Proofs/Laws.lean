import Desugar.Proofs.Climbing
import Desugar.Proofs.Copies
import Desugar.Proofs.Results
import Desugar.Proofs.SpelledTypes

/-!
# Laws of a pass

The rules reach the state through a few primitive acts: they draw identities, record
facts, add types, scopes and synthetic bindings, and move scopes.  What they hand to an
act, such as the scope of a new variable or the type of a new expression, they have read
from the state or got from an act before.

A law is an invariant together with what counts as valid under it, kept by every act on
valid arguments.  The actions of the rules keep every law, however they end, and give
valid results.
-/

namespace Desugar

-- There are as many instances to find for an action as it has steps.
set_option synthInstance.maxSize 20000
set_option synthInstance.maxHeartbeats 200000

namespace NodeMap

variable {α : Type} {facts : NodeMap α} {key node : NodeId} {fact found : α}

theorem cases_insert (h : (facts.insert key fact)[node]? = some found) :
    found = fact ∨ facts[node]? = some found := by
  by_cases hkey : key = node
  · rw [hkey, Std.ExtTreeMap.getElem?_insert_self] at h
    exact .inl (Option.some.inj h).symm
  · rw [getElem?_insert_of_ne hkey] at h
    exact .inr h

theorem exists_of_copyEntry {target : NodeId}
    (h : (SymbolTable.copyEntry key target facts)[node]? = some found) :
    ∃ other : NodeId, facts[other]? = some found := by
  unfold SymbolTable.copyEntry at h
  split at h
  · exact ⟨_, h⟩
  · rename_i hfact
    rcases cases_insert h with rfl | h
    · exact ⟨_, hfact⟩
    · exact ⟨_, h⟩

end NodeMap

/-!
## Acts and laws
-/

/-- What an action may hand on: a type, a scope, a node, or the table as it has been. -/
inductive Token where
  | type (id : TypeId)
  | scope (id : ScopeId)
  | node (id : NodeId)
  | table (table : SymbolTable)

inductive Pass.Act (valid : Token → Prop) (p : Pass) : Pass → List Token → Prop where
  | report (diagnostics : List Diagnostic) : Act valid p { p with diagnostics := diagnostics } []
  | count : Act valid p { p with changes := p.changes + 1 } []
  | draw {id : NodeId} {ids : NodeSupply} (h : p.ids.take? = some (id, ids)) :
    Act valid p { p with ids := ids } [.node id]
  | note (defs uses : NodeMap BindingId) (selections : NodeMap Selection) (reserved : List String) :
    Act valid p { p with table := { p.table with
      defs := defs, uses := uses, selections := selections, reserved := reserved } } []
  | recordType (node : NodeId) {ty : TypeId} (h : valid (.type ty)) :
    Act valid p { p with table := p.table.recordType node ty } []
  | intern {type : Ty} (hnamed : type.isNamed = false)
    (h : ∀ part ∈ type.components, valid (.type part)) :
    Act valid p { p with table := (p.table.intern type).2 } [.type (p.table.intern type).1]
  | newScope {parent : ScopeId} (h : valid (.scope parent)) :
    Act valid p { p with table := (p.table.newScope parent).2 } [.scope (p.table.newScope parent).1]
  | attachScope {node : NodeId} {scope : ScopeId} (hnode : valid (.node node))
    (hscope : valid (.scope scope)) :
    Act valid p { p with table := p.table.attachScope node scope } []
  | moveScope {source target : NodeId} (hsource : valid (.node source))
    (htarget : valid (.node target)) :
    Act valid p { p with table := (p.table.moveScope source target).2 }
      ((p.table.moveScope source target).1.toList.map .scope)
  | copyFacts (source : NodeId) {target : NodeId} (h : valid (.node target)) :
    Act valid p { p with table := p.table.copyFacts source target } []
  | declare {scope : ScopeId} (name : String) {ty : TypeId} (hscope : valid (.scope scope))
    (hty : valid (.type ty)) :
    Act valid p { p with table := (p.table.declareSynthetic scope name ty).2 } []

theorem Pass.Act.scopes_eq {valid : Token → Prop} {p q : Pass} {made : List Token}
    (h : p.Act valid q made) : q.scopes = p.scopes := by
  cases h <;> rfl

/-- An invariant, and what is valid under it.  The scope in force is valid, and so are the
types that a valid table records and the components of its types. -/
structure Law where
  holds : Pass → Prop
  valid : Pass → Token → Prop
  act : ∀ {p q made}, holds p → p.Act (valid p) q made →
    holds q ∧ (∀ k, valid p k → valid q k) ∧ ∀ k ∈ made, valid q k
  current : ∀ {p scope}, holds p → p.scopes.current = some scope → valid p (.scope scope)
  table : ∀ {p}, holds p → valid p (.table p.table)
  recorded : ∀ {p table} {node : NodeId} {ty}, valid p (.table table) →
    table.exprTypes[node]? = some ty →
    valid p (.type ty)
  bound : ∀ {p table binding ty}, valid p (.table table) → binding ∈ table.bindings →
    binding.ty = some ty → valid p (.type ty)
  part : ∀ {p table part} (id), valid p (.table table) → part ∈ (table.ty id).components →
    valid p (.type part)

class Bears (α : Type) where
  bears : α → Token → Prop

section

variable {α β : Type}

def Token.also [Bears α] (a : α) (known : Token → Prop) : Token → Prop :=
  fun k => Bears.bears a k ∨ known k

instance (priority := low) bearsNothing : Bears α := ⟨fun _ _ => False⟩
instance : Bears TypeId := ⟨fun id k => k = .type id⟩
instance : Bears ScopeId := ⟨fun id k => k = .scope id⟩
instance : Bears NodeId := ⟨fun id k => k = .node id⟩
instance : Bears SymbolTable := ⟨fun table k => k = .table table⟩
instance : Bears StructField := ⟨fun field k => k = .type field.ty⟩
instance [Bears α] : Bears (Option α) := ⟨fun value k => ∃ a, value = some a ∧ Bears.bears a k⟩
instance [Bears α] : Bears (List α) := ⟨fun values k => ∃ a ∈ values, Bears.bears a k⟩
instance [Bears α] [Bears β] : Bears (α × β) :=
  ⟨fun pair k => Bears.bears pair.1 k ∨ Bears.bears pair.2 k⟩

class Plain (α : Type) [Bears α] : Prop where
  nothing : ∀ (a : α) (k : Token), ¬ Bears.bears a k

instance (priority := low) : @Plain α bearsNothing :=
  @Plain.mk _ bearsNothing fun _ _ => id

instance [Bears α] [Plain α] : Plain (Option α) :=
  ⟨fun _ k ⟨a, _, hk⟩ => Plain.nothing a k hk⟩

instance [Bears α] [Plain α] : Plain (List α) :=
  ⟨fun _ k ⟨a, _, hk⟩ => Plain.nothing a k hk⟩

instance [Bears α] [Bears β] [Plain α] [Plain β] : Plain (α × β) :=
  ⟨fun pair k hk => hk.elim (Plain.nothing pair.1 k) (Plain.nothing pair.2 k)⟩

end

/-!
## What is known
-/

theorem SymbolTable.Promotes.held {table : SymbolTable} {id last : TypeId}
    {path : List StructField} {field : StructField} (h : table.Promotes id path last)
    (hfield : field ∈ path) :
    ∃ holder fields, table.fieldsOf holder = some fields ∧ field ∈ fields := by
  induction h with
  | nil => cases hfield
  | cons hfields hfirst _ _ ih =>
    rcases List.mem_cons.mp hfield with rfl | hfield
    · exact ⟨_, _, hfields, hfirst⟩
    · exact ih hfield

/-- A value whose tokens are valid whenever the known ones are. -/
class Knows (L : Law) (K : Token → Prop) {α : Type} [Bears α] (a : α) : Prop where
  valid : ∀ p, (∀ k, K k → L.valid p k) → ∀ k, Bears.bears a k → L.valid p k

namespace Knows

variable {L : Law} {K : Token → Prop} {α β : Type} [Bears α] [Bears β] {a : α} {b : β}

instance (priority := low) plain [Plain α] (a : α) : Knows L K a :=
  ⟨fun _ _ k hk => absurd hk (Plain.nothing a k)⟩

instance (priority := 1100) newest (a : α) : Knows L (Token.also a K) a :=
  ⟨fun _ h k hk => h k (.inl hk)⟩

instance older [h : Knows L K a] : Knows L (Token.also b K) a :=
  ⟨fun p hK => h.valid p fun k hk => hK k (.inr hk)⟩

theorem mono {c : β} (h : Knows L K a) (hsub : ∀ k, Bears.bears c k → Bears.bears a k) :
    Knows L K c :=
  ⟨fun p hK k hk => h.valid p hK k (hsub k hk)⟩

instance some [h : Knows L K a] : Knows L K (some a) := by
  refine h.mono ?_
  rintro k ⟨_, ⟨⟩, hk⟩
  exact hk

instance none : Knows L K (none : Option α) :=
  ⟨fun _ _ _ ⟨_, h, _⟩ => by cases h⟩

theorem of_some {value : Option α} (h : Knows L K value) (hvalue : value = Option.some a) :
    Knows L K a :=
  h.mono fun _ hk => ⟨a, hvalue, hk⟩

instance of_newest : Knows L (Token.also (Option.some a) K) a :=
  of_some (newest (Option.some a)) rfl

instance orElse {x y : Option α} [hx : Knows L K x] [hy : Knows L K y] : Knows L K (x <|> y) := by
  cases x with
  | none => exact hy
  | some a => exact hx

instance pair [ha : Knows L K a] [hb : Knows L K b] : Knows L K (a, b) :=
  ⟨fun p hK k hk => hk.elim (ha.valid p hK k) (hb.valid p hK k)⟩

instance fst {x : α × β} [h : Knows L K x] : Knows L K x.1 :=
  h.mono fun _ => .inl

instance snd {x : α × β} [h : Knows L K x] : Knows L K x.2 :=
  h.mono fun _ => .inr

instance nil : Knows L K ([] : List α) :=
  ⟨fun _ _ _ ⟨_, h, _⟩ => absurd h List.not_mem_nil⟩

instance cons {as : List α} [ha : Knows L K a] [has : Knows L K as] : Knows L K (a :: as) := by
  refine ⟨fun p hK k => ?_⟩
  rintro ⟨x, hx, hk⟩
  rcases List.mem_cons.mp hx with rfl | hx
  · exact ha.valid p hK k hk
  · exact has.valid p hK k ⟨x, hx, hk⟩

theorem of_mem {as : List α} (h : Knows L K as) (ha : a ∈ as) : Knows L K a :=
  h.mono fun _ hk => ⟨a, ha, hk⟩

theorem list {as : List α} (h : ∀ a ∈ as, Knows L K a) : Knows L K as :=
  ⟨fun p hK k ⟨a, ha, hk⟩ => (h a ha).valid p hK k hk⟩

instance getElem? {as : List α} [h : Knows L K as] (i : Nat) : Knows L K as[i]? :=
  ⟨fun p hK k ⟨_, ha, hk⟩ => (h.of_mem (List.mem_of_getElem? ha)).valid p hK k hk⟩

instance findSome {as : List (Option α)} [h : Knows L K as] : Knows L K (as.findSome? id) := by
  refine h.mono ?_
  rintro k ⟨a, ha, hk⟩
  rcases List.exists_of_findSome?_eq_some ha with ⟨x, hx, rfl⟩
  exact ⟨_, hx, a, rfl, hk⟩

instance zip {as : List α} {bs : List β} [ha : Knows L K as] [hb : Knows L K bs] :
    Knows L K (as.zip bs) := by
  refine list fun x hx => ?_
  have hfst := ha.of_mem (List.of_mem_zip hx).1
  have hsnd := hb.of_mem (List.of_mem_zip hx).2
  exact pair

instance map_snd {as : List (α × β)} [h : Knows L K as] : Knows L K (as.map Prod.snd) := by
  refine list fun b hb => ?_
  rcases List.mem_map.mp hb with ⟨x, hx, rfl⟩
  have := h.of_mem hx
  exact snd

instance zipIdx {as : List α} [h : Knows L K as] : Knows L K as.zipIdx := by
  refine list fun x hx => ?_
  have hfst : Knows L K x.1 := h.of_mem (List.fst_mem_of_mem_zipIdx hx)
  exact pair

/-!
### What a table tells
-/

theorem recorded (table : SymbolTable) [h : Knows L K table] {value : Option TypeId}
    (hvalue : ∀ ty p, value = Option.some ty → L.valid p (.table table) → L.valid p (.type ty)) :
    Knows L K value := by
  refine ⟨fun p hK k => ?_⟩
  rintro ⟨ty, hty, rfl⟩
  exact hvalue ty p hty (h.valid p hK _ rfl)

variable {table : SymbolTable} [h : Knows L K table]

instance exprType (node : NodeId) : Knows L K table.exprTypes[node]? :=
  recorded table fun _ _ hty htable => L.recorded htable hty

instance bindingType (id : BindingId) : Knows L K ((table.binding? id).bind Binding.ty) := by
  refine recorded table fun ty p hty htable => ?_
  rcases Option.bind_eq_some_iff.mp hty with ⟨binding, hbinding, hty⟩
  exact L.bound htable (Array.mem_of_getElem? hbinding) hty

instance declaredType (id : Option BindingId) :
    Knows L K ((id.bind table.binding?).bind Binding.ty) := by
  cases id with
  | none => exact none
  | some id => exact bindingType id

instance pointerElem (id : TypeId) : Knows L K (table.pointerElem id) := by
  refine recorded table fun elem p helem htable => ?_
  unfold SymbolTable.pointerElem at helem
  split at helem
  · rename_i target hstructure
    cases helem
    apply L.part (table.underlying id) htable
    show elem ∈ (table.structureOf id).components
    rw [hstructure]
    exact .head _
  · cases helem

instance pointerElem_bind (value : Option TypeId) : Knows L K (value.bind table.pointerElem) := by
  cases value with
  | none => exact none
  | some id => exact pointerElem id

instance mapKey (x : Expr) : Knows L K (Parallel.mapKey table x) := by
  refine recorded table fun key p hkey htable => ?_
  unfold Parallel.mapKey at hkey
  split at hkey
  · rename_i found value hfound
    cases hkey
    rcases Option.map_eq_some_iff.mp hfound with ⟨id, _, hstructure⟩
    apply L.part (table.underlying id) htable
    show key ∈ (table.structureOf id).components
    rw [hstructure]
    exact .head _
  · cases hkey

instance results (id : TypeId) [hid : Knows L K id] : Knows L K (table.results id) := by
  unfold SymbolTable.results
  split
  · rename_i members hmembers
    refine ⟨fun p hK k => ?_⟩
    rintro ⟨member, hmember, rfl⟩
    apply L.part id (h.valid p hK _ rfl)
    rw [hmembers]
    exact hmember
  · exact cons

instance valueType (spec : ValueSpec) (position : Nat) :
    Knows L K (Annotations.valueType table spec position) := by
  unfold Annotations.valueType
  split
  · cases hty : table.exprTypes[(_ : Expr).id]? with
    | none => exact none
    | some id =>
      have : Knows L K id := (exprType _).of_some hty
      exact getElem? position
  · cases (_ : List Expr)[position]? with
    | none => exact none
    | some value => exact exprType _

instance promotion (operand : Option TypeId) (name : String) :
    Knows L K (Dereference.promotion table operand name) := by
  refine list fun field hfield => ⟨fun p hK k => ?_⟩
  rintro rfl
  unfold Dereference.promotion at hfield
  cases hpath : operand.bind
      (fun ty => table.fieldPath ((table.pointerElem ty).getD ty) name) with
  | none =>
    rw [hpath] at hfield
    cases hfield
  | some path =>
    rw [hpath] at hfield
    rcases Option.bind_eq_some_iff.mp hpath with ⟨ty, _, hpath⟩
    rcases SymbolTable.promotes_of_fieldPath hpath with ⟨_, hpromotes, _⟩
    rcases hpromotes.held hfield with ⟨holder, fields, hfields, hmem⟩
    apply L.part (table.underlying holder) (h.valid p hK _ rfl)
    show field.ty ∈ (table.structureOf holder).components
    unfold SymbolTable.fieldsOf at hfields
    split at hfields
    · rename_i hstructure
      cases hfields
      rw [hstructure]
      exact List.mem_map_of_mem hmem
    · cases hfields

end Knows

/-!
## Sound actions
-/

theorem PassM.ends_bind {α β : Type} {m : PassM α} {f : α → PassM β} {env : PassEnv} {p : Pass}
    (hm : (m.exec env p).1 = .error .endless → (m.exec env p).2.table.Endless)
    (hf : ∀ a q, ((f a).exec env q).1 = .error .endless → ((f a).exec env q).2.table.Endless)
    (h : ((m >>= f).exec env p).1 = .error .endless) :
    ((m >>= f).exec env p).2.table.Endless := by
  cases hexec : m.exec env p with
  | mk result q =>
    rw [hexec] at hm
    cases result with
    | ok a =>
      rw [exec_bind_ok hexec] at h ⊢
      exact hf a q h
    | error fault =>
      rw [exec_bind_error hexec] at h ⊢
      cases h
      exact hm rfl

/-- An action that keeps a law however it ends, once some tokens are known, and gives a
valid result.  It searches without an end only where parents go on for ever. -/
class Sound (L : Law) (env : PassEnv) (K : Token → Prop) {α : Type} [Bears α] (m : PassM α) :
    Prop where
  keeps : ∀ p, L.holds p → (∀ k, K k → L.valid p k) →
    L.holds (m.exec env p).2 ∧ (∀ k, L.valid p k → L.valid (m.exec env p).2 k) ∧
      ∀ a, (m.exec env p).1 = .ok a → ∀ k, Bears.bears a k → L.valid (m.exec env p).2 k
  ends : ∀ p, (m.exec env p).1 = .error .endless → (m.exec env p).2.table.Endless

namespace Sound

open PassM

variable {L : Law} {env : PassEnv} {K : Token → Prop} {α β : Type} [Bears α] [Bears β]
  {m n : PassM α} {f : α → PassM β}

theorem look (result : Pass → Except Fault α) (h : ∀ p, m.exec env p = (result p, p))
    (hresult : ∀ p a, result p = .ok a → L.holds p → (∀ k, K k → L.valid p k) →
      ∀ k, Bears.bears a k → L.valid p k)
    (hends : ∀ p, result p = .error .endless → p.table.Endless) : Sound L env K m := by
  refine ⟨fun p hp hK => ?_, fun p => ?_⟩
  · rw [h]
    exact ⟨hp, fun _ hk => hk, fun a ha => hresult p a ha hp hK⟩
  · rw [h]
    exact hends p

theorem of_act (next : Pass → Pass) (result : Pass → α) (made : Pass → List Token)
    (h : ∀ p, m.exec env p = (.ok (result p), next p))
    (hact : ∀ p, L.holds p → (∀ k, K k → L.valid p k) → p.Act (L.valid p) (next p) (made p))
    (hmade : ∀ p k, Bears.bears (result p) k → k ∈ made p) : Sound L env K m := by
  refine ⟨fun p hp hK => ?_, fun p => ?_⟩
  · rw [h]
    rcases L.act hp (hact p hp hK) with ⟨hq, hkeeps, hnew⟩
    refine ⟨hq, hkeeps, fun a ha k hk => hnew k (hmade p k ?_)⟩
    cases ha
    exact hk
  · rw [h]
    exact fun hfault => by cases hfault

instance (a : α) [ha : Knows L K a] : Sound L env K (pure a) :=
  look _ (fun _ => rfl)
    (fun p _ h _ hK => by
      cases h
      exact ha.valid p hK)
    fun _ h => by cases h

instance (problem : Problem) : Sound L env K (raise problem : PassM α) :=
  look _ (fun _ => rfl) (fun _ _ h => by cases h) fun _ h => by cases h

instance : Sound L env K getTable :=
  look _ (fun _ => rfl)
    (fun p _ h hp _ k hk => by
      cases h
      cases hk
      exact L.table hp)
    fun _ h => by cases h

instance : Sound L env K (read : PassM PassEnv) :=
  look _ (fun _ => rfl) (fun _ _ _ _ _ _ hk => hk.elim) fun _ h => by cases h

instance : Sound L env K scope? :=
  look _ (fun _ => rfl)
    (fun p _ h hp _ k => by
      cases h
      rintro ⟨scope, hscope, rfl⟩
      exact L.current hp hscope)
    fun _ h => by cases h

instance (find : SymbolTable → Option Bool) [hfind : Search find] :
    Sound L env K (search find) := by
  have hexec : ∀ p, (search find).exec env p =
      ((find p.table).elim (.error .endless) .ok, p) := by
    intro p
    cases hfound : find p.table with
    | none => exact exec_search_none hfound env
    | some found => exact exec_search hfound env
  refine look _ hexec (fun _ _ _ _ _ _ hk => hk.elim) fun p h => hfind.endless ?_
  cases hfound : find p.table with
  | none => rfl
  | some found =>
    rw [hfound] at h
    cases h

instance freshId : Sound L env K freshId := by
  refine ⟨fun p hp hK => ?_, fun p h => ?_⟩
  · rw [exec_freshId]
    cases htake : p.ids.take? with
    | none => exact ⟨hp, fun _ hk => hk, fun a ha => by cases ha⟩
    | some drawn =>
      rcases L.act hp (.draw htake) with ⟨hq, hkeeps, hnew⟩
      refine ⟨hq, hkeeps, fun a ha k hk => hnew k ?_⟩
      cases ha
      cases hk
      exact .head _
  · rw [exec_freshId] at h
    split at h <;> cases h

instance : Sound L env K countChange :=
  of_act _ _ _ (fun _ => rfl) (fun _ _ _ => .count) fun _ _ hk => hk.elim

instance bind [hm : Sound L env K m] [hf : ∀ a, Sound L env (Token.also a K) (f a)] :
    Sound L env K (m >>= f) := by
  refine ⟨fun p hp hK => ?_, fun p => PassM.ends_bind (hm.ends p) fun a => (hf a).ends⟩
  rcases hm.keeps p hp hK with ⟨hq, hkeeps, hresult⟩
  cases hexec : m.exec env p with
  | mk result q =>
    rw [hexec] at hq hkeeps hresult
    cases result with
    | ok a =>
      rw [exec_bind_ok hexec]
      have hknown : ∀ k, Token.also a K k → L.valid q k :=
        fun k hk => hk.elim (hresult a rfl k) fun hk => hkeeps k (hK k hk)
      rcases (hf a).keeps q hq hknown with ⟨hr, hkeeps', hresult'⟩
      exact ⟨hr, fun k hk => hkeeps' k (hkeeps k hk), hresult'⟩
    | error fault =>
      rw [exec_bind_error hexec]
      exact ⟨hq, hkeeps, fun a ha => by cases ha⟩

instance map (g : α → β) [Sound L env K m] [∀ a, Knows L (Token.also a K) (g a)] :
    Sound L env K (g <$> m) := by
  rw [map_eq_pure_bind]
  infer_instance

theorem weaken {K' : Token → Prop} (h : Sound L env K' m) (hsub : ∀ p, (∀ k, K k → L.valid p k) →
    ∀ k, K' k → L.valid p k) : Sound L env K m :=
  ⟨fun p hp hK => h.keeps p hp (hsub p hK), h.ends⟩

theorem known {a : α} {m : PassM β} (h : Sound L env (Token.also a K) m) (ha : Knows L K a) :
    Sound L env K m :=
  h.weaken fun p hK k hk => hk.elim (ha.valid p hK k) (hK k)

theorem beside {a : α} {b : β} {m : PassM β} (h : Sound L env (Token.also a K) m) :
    Sound L env (Token.also a (Token.also b K)) m :=
  h.weaken fun _ hK k hk => hK k (hk.imp id .inr)

theorem older {b : β} (h : Sound L env K m) : Sound L env (Token.also b K) m :=
  h.weaken fun _ hK k hk => hK k (.inr hk)

instance mapM (xs : List α) [hxs : Knows L K xs] [hf : ∀ a, Sound L env (Token.also a K) (f a)] :
    Sound L env K (xs.mapM f) := by
  induction xs generalizing K with
  | nil => exact inferInstanceAs (Sound L env K (pure [] : PassM (List β)))
  | cons x rest ih =>
    rw [List.mapM_cons]
    have hrest : Knows L K rest := .list fun a ha => hxs.of_mem (.tail _ ha)
    have hfirst : Sound L env K (f x) := (hf x).known (hxs.of_mem (.head _))
    have hothers (y : β) : Sound L env (Token.also y K) (rest.mapM f) :=
      @ih _ Knows.older fun a => (hf a).beside
    infer_instance

instance filterMapM {f : α → PassM (Option β)} (xs : List α) [hxs : Knows L K xs]
    [hf : ∀ a, Sound L env (Token.also a K) (f a)] : Sound L env K (xs.filterMapM f) := by
  induction xs generalizing K with
  | nil => exact inferInstanceAs (Sound L env K (pure [] : PassM (List β)))
  | cons x rest ih =>
    rw [List.filterMapM_cons]
    have hrest : Knows L K rest := .list fun a ha => hxs.of_mem (.tail _ ha)
    have hfirst : Sound L env K (f x) := (hf x).known (hxs.of_mem (.head _))
    have hothers (y : Option β) : Sound L env (Token.also y K) (rest.filterMapM f) :=
      @ih _ Knows.older fun a => (hf a).beside
    refine @bind _ _ _ _ _ _ _ _ _ hfirst fun found => ?_
    cases found with
    | none => exact hothers none
    | some y => infer_instance

instance {c : Prop} [Decidable c] [hm : Sound L env K m] [hn : Sound L env K n] :
    Sound L env K (if c then m else n) := by
  split
  · exact hm
  · exact hn

instance (value : Option α) (problem : Problem) [h : Knows L K value] :
    Sound L env K (require value problem) := by
  cases value with
  | none => exact inferInstanceAs (Sound L env K (raise problem : PassM α))
  | some a =>
    have := h.of_some rfl
    exact inferInstanceAs (Sound L env K (pure a))

instance report (problem : Problem) (snippet : Option String) :
    Sound L env K (report problem snippet) :=
  of_act _ _ _ (fun _ => rfl) (fun _ _ _ => .report _) fun _ _ hk => hk.elim

instance (problem : Problem) (snippet : Option String) :
    Sound L env K (tolerate problem snippet) := by
  unfold tolerate
  infer_instance

instance (snippet : String) [hm : Sound L env K m] [hn : Sound L env K n] :
    Sound L env K (orElseKeep m snippet n) := by
  constructor
  · intro p hp hK
    rcases hm.keeps p hp hK with ⟨hq, hkeeps, hresult⟩
    rw [exec_orElseKeep]
    cases hexec : m.exec env p with
    | mk result q =>
      rw [hexec] at hq hkeeps hresult
      cases result with
      | ok a => exact ⟨hq, hkeeps, hresult⟩
      | error fault =>
        cases fault with
        | exhausted | endless => exact ⟨hq, hkeeps, hresult⟩
        | problem problem =>
          dsimp only
          split
          · rcases L.act hq (.report _) with ⟨hr, hkeeps', -⟩
            have hknown := fun k hk => hkeeps' k (hkeeps k (hK k hk))
            rcases hn.keeps _ hr hknown with ⟨hs, hkeeps'', hlast⟩
            exact ⟨hs, fun k hk => hkeeps'' k (hkeeps' k (hkeeps k hk)), hlast⟩
          · exact ⟨hq, hkeeps, fun a ha => by cases ha⟩
  · intro p h
    have hfirst := hm.ends p
    rw [exec_orElseKeep] at h ⊢
    cases hexec : m.exec env p with
    | mk result q =>
      rw [hexec] at h hfirst
      cases result with
      | ok a => cases h
      | error fault =>
        cases fault with
        | exhausted => cases h
        | endless => exact hfirst rfl
        | problem problem =>
          revert h
          dsimp only
          split
          · exact hn.ends _
          · exact fun h => by cases h

/-!
### The table
-/

instance (node : NodeId) (binding : BindingId) :
    Sound L env K (modifyTable fun table => table.recordDef node binding) :=
  of_act _ _ _ (fun _ => rfl) (fun _ _ _ => .note _ _ _ _) fun _ _ hk => hk.elim

instance (node : NodeId) (binding : BindingId) :
    Sound L env K (modifyTable fun table => table.recordUse node binding) :=
  of_act _ _ _ (fun _ => rfl) (fun _ _ _ => .note _ _ _ _) fun _ _ hk => hk.elim

instance (node : NodeId) (selection : Selection) :
    Sound L env K (modifyTable fun table => table.recordSelection node selection) :=
  of_act _ _ _ (fun _ => rfl) (fun _ _ _ => .note _ _ _ _) fun _ _ hk => hk.elim

instance (stem : String) : Sound L env K (onTable fun table => table.freshName stem) :=
  of_act _ _ _ (fun _ => rfl) (fun _ _ _ => .note _ _ _ _) fun _ _ hk => hk.elim

instance (node : NodeId) (ty : TypeId) [hty : Knows L K ty] :
    Sound L env K (modifyTable fun table => table.recordType node ty) :=
  of_act _ _ _ (fun _ => rfl) (fun p _ hK => .recordType node (hty.valid p hK _ rfl))
    fun _ _ hk => hk.elim

instance (node : NodeId) (scope : ScopeId) [hnode : Knows L K node] [hscope : Knows L K scope] :
    Sound L env K (modifyTable fun table => table.attachScope node scope) :=
  of_act _ _ _ (fun _ => rfl)
    (fun p _ hK => .attachScope (hnode.valid p hK _ rfl) (hscope.valid p hK _ rfl))
    fun _ _ hk => hk.elim

instance (parent : ScopeId) [hparent : Knows L K parent] :
    Sound L env K (onTable fun table => table.newScope parent) :=
  of_act _ _ _ (fun _ => rfl) (fun p _ hK => .newScope (hparent.valid p hK _ rfl))
    fun _ _ hk => hk ▸ .head _

instance (source target : NodeId) [hsource : Knows L K source] [htarget : Knows L K target] :
    Sound L env K (onTable fun table => table.moveScope source target) := by
  refine of_act _ _ _ (fun _ => rfl)
    (fun p _ hK => .moveScope (hsource.valid p hK _ rfl) (htarget.valid p hK _ rfl)) ?_
  rintro p k ⟨scope, hscope, rfl⟩
  exact List.mem_map_of_mem (Option.mem_toList.mpr hscope)

instance (scope : ScopeId) (name : String) (ty : TypeId) [hscope : Knows L K scope]
    [hty : Knows L K ty] :
    Sound L env K (onTable fun table => table.declareSynthetic scope name ty) :=
  of_act _ _ _ (fun _ => rfl)
    (fun p _ hK => .declare name (hscope.valid p hK _ rfl) (hty.valid p hK _ rfl))
    fun _ _ hk => hk.elim

theorem intern {type : Ty} (hnamed : type.isNamed = false)
    (h : ∀ part ∈ type.components, Knows L K part) :
    Sound L env K (onTable fun table => table.intern type) :=
  of_act (fun p => { p with table := (p.table.intern type).2 }) (fun p => (p.table.intern type).1)
    _ (fun _ => rfl)
    (fun p _ hK => .intern hnamed fun part hpart => (h part hpart).valid p hK _ rfl)
    fun _ _ hk => List.mem_singleton.mpr hk

instance basic (kind : BasicKind) : Sound L env K (onTable fun table => table.basic kind) :=
  intern rfl fun _ h => absurd h List.not_mem_nil

instance (ty : TypeId) [hty : Knows L K ty] :
    Sound L env K (onTable fun table => table.intern (.pointer ty)) := by
  refine intern rfl fun part hpart => ?_
  cases List.mem_singleton.mp hpart
  exact hty

instance (ty : TypeId) [hty : Knows L K ty] : Sound L env K (defaultType ty) := by
  refine ⟨fun p hp hK => ?_, fun p h => by cases h⟩
  have hsame : Sound L env K (pure ty) := inferInstance
  unfold defaultType
  rw [exec_onTable]
  unfold SymbolTable.defaultType
  split
  · split
    · split
      · exact (@basic L env K _).keeps p hp hK
      · exact hsame.keeps p hp hK
    · exact hsame.keeps p hp hK
  · exact hsame.keeps p hp hK

/-!
### New nodes
-/

instance (e : NodeId → Expr) (ty : Option TypeId) [hty : Knows L K ty] :
    Sound L env K (newExpr e ty) := by
  unfold newExpr
  cases ty with
  | none => infer_instance
  | some ty =>
    have := hty.of_some rfl
    infer_instance

instance (s : NodeId → Stmt) : Sound L env K (newStmt s) := by unfold newStmt; infer_instance
instance (lhs rhs : List Expr) : Sound L env K (newAssign lhs rhs) := by
  unfold newAssign
  infer_instance
instance : Sound L env K newBlank := by unfold newBlank; infer_instance
instance : Sound L env K newTrue := by unfold newTrue; infer_instance
instance (x : Expr) : Sound L env K (typeOf x) := by unfold typeOf; infer_instance
instance (name : Ident) :
    Sound L env K (declaredType name) := by unfold declaredType; infer_instance
instance (binding : BindingId) : Sound L env K (newUse binding) := by unfold newUse; infer_instance
instance (scope : ScopeId) (ty : TypeId) [Knows L K scope] [Knows L K ty] :
    Sound L env K (newTemp scope ty) := by
  unfold newTemp
  infer_instance
instance (spec : Spec) : Sound L env K (newDecl spec) := by unfold newDecl; infer_instance
instance (name : Ident) (ty : Option TypeExpr) (values : List Expr) :
    Sound L env K (newVar name ty values) := by
  unfold newVar
  infer_instance
instance (binding : BindingId) (ty : Option TypeExpr) (values : List Expr) :
    Sound L env K (newVarOf binding ty values) := by
  unfold newVarOf newBinder bindingName
  infer_instance
instance (node : NodeId) : Sound L env K (scopeAt node) := by unfold scopeAt; infer_instance

instance (ty : TypeId) (node : NodeId) : Sound L env K (spell ty node) := by
  unfold spell
  refine @bind _ _ _ _ _ _ _ _ _ _ fun table => @bind _ _ _ _ _ _ _ _ _ _ fun env' => ?_
  split <;> infer_instance

instance (ty : TypeId) (name : String) (node : NodeId) [Knows L K ty] :
    Sound L env K (zeroValue ty name node) := by
  unfold zeroValue
  refine @bind _ _ _ _ _ _ _ _ _ _ fun ty => @bind _ _ _ _ _ _ _ _ _ _ fun table => ?_
  dsimp only
  split <;> infer_instance

end Sound

end Desugar
