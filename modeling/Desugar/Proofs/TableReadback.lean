import Desugar.Proofs.ClosedTypes
import Desugar.Proofs.Evolution
import Desugar.Proofs.SyntaxReadback
import Desugar.Symbols.Decode

/-!
# Reading tables back

The positions of a table are numbers of limited size in a document, and the names
of a scope are those of a mapping.  A table that keeps to this is recovered from
its encoding, all but the names set aside.
-/

namespace Desugar

open Json

/-!
## Positions and tags
-/

/-- A position that a document can mention. -/
def Addressable (index : Nat) : Prop :=
  index < positionLimit

instance (index : Nat) : Decidable (Addressable index) :=
  inferInstanceAs (Decidable (index < positionLimit))

theorem Json.natBelow?_ofNat {n : Nat} (h : Addressable n) :
    natBelow? positionLimit (ofNat n) = some n := by
  have hnat : nat? (ofNat n) = some n := rfl
  rw [natBelow?, hnat, Option.bind_some]
  exact if_pos h

@[simp] theorem TypeId.depth_toJson (id : TypeId) : id.toJson.depth = 0 :=
  depth_ofNat _

@[simp] theorem BindingId.depth_toJson (id : BindingId) : id.toJson.depth = 0 :=
  depth_ofNat _

@[simp] theorem ScopeId.depth_toJson (id : ScopeId) : id.toJson.depth = 0 :=
  depth_ofNat _

theorem TypeId.recovers {id : TypeId} (h : Addressable id.index) (room : Nat) :
    Recovers TypeId.ofJson? id.toJson room id := by
  simp [Recovers, TypeId.ofJson?, TypeId.toJson, natBelow?_ofNat h]

theorem BindingId.recovers {id : BindingId} (h : Addressable id.index) (room : Nat) :
    Recovers BindingId.ofJson? id.toJson room id := by
  simp [Recovers, BindingId.ofJson?, BindingId.toJson, natBelow?_ofNat h]

theorem ScopeId.recovers {id : ScopeId} (h : Addressable id.index) (room : Nat) :
    Recovers ScopeId.ofJson? id.toJson room id := by
  simp [Recovers, ScopeId.ofJson?, ScopeId.toJson, natBelow?_ofNat h]

theorem TypeId.recovers_optional {id : Option TypeId} (h : ∀ ty ∈ id, Addressable ty.index)
    (room : Nat) : Recovers (nullable? TypeId.ofJson?) (ofOption TypeId.toJson id) room id :=
  Recovers.optional id (by simp [TypeId.toJson]) fun ty hty => TypeId.recovers (h ty hty) room

theorem ScopeId.recovers_optional {id : Option ScopeId} (h : ∀ scope ∈ id, Addressable scope.index)
    (room : Nat) : Recovers (nullable? ScopeId.ofJson?) (ofOption ScopeId.toJson id) room id :=
  Recovers.optional id (by simp [ScopeId.toJson])
    fun scope hscope => ScopeId.recovers (h scope hscope) room

theorem TypeIds.recovers {types : List TypeId} (h : ∀ id ∈ types, Addressable id.index)
    (room : Nat) : Recovers (list? TypeId.ofJson?) (TypeIds.toJson types) room types :=
  Recovers.list types fun id hid => TypeId.recovers (h id hid) (room - 1)

@[simp] theorem BasicKind.ofJson?_tag (kind : BasicKind) :
    BasicKind.ofJson? (.str kind.tag) = some kind := by
  cases kind <;> rfl

@[simp] theorem Selection.ofJson?_tag (selection : Selection) :
    Selection.ofJson? (.str selection.tag) = some selection := by
  cases selection <;> rfl

@[simp] theorem BindingKind.ofJson?_tag (kind : BindingKind) :
    BindingKind.ofJson? (.str kind.tag) = some kind := by
  cases kind <;> rfl

theorem Selection.recovers (selection : Selection) (room : Nat) :
    Recovers Selection.ofJson? (.str selection.tag) room selection := by
  simp [Recovers]

/-!
## Types
-/

theorem Package.recovers (package : Package) (room : Nat) :
    Recovers Package.ofJson? package.toJson room package := by
  obtain ⟨path, name⟩ := package
  simp [Recovers, Package.ofJson?, Package.toJson, fieldsDepth]
  exact ite_none_congr (by omega)

theorem Package.recovers_optional (package : Option Package) (room : Nat) :
    Recovers (nullable? Package.ofJson?) (ofOption Package.toJson package) room package :=
  Recovers.optional package (fun package => seen_ne_null (by simp [Package.toJson]) room)
    fun package _ => package.recovers room

theorem StructField.recovers {field : StructField} (h : Addressable field.ty.index) (room : Nat) :
    Recovers StructField.ofJson? field.toJson room field := by
  obtain ⟨name, ty, embedded⟩ := field
  have hty := TypeId.recovers h (room - 1)
  simp [Recovers, StructField.ofJson?, StructField.toJson, fieldsDepth, hty.eq]
  exact ite_none_congr (by omega)

theorem InterfaceMethod.recovers {method : InterfaceMethod} (h : Addressable method.sig.index)
    (room : Nat) : Recovers InterfaceMethod.ofJson? method.toJson room method := by
  obtain ⟨name, sig⟩ := method
  have hsig := TypeId.recovers h (room - 1)
  simp [Recovers, InterfaceMethod.ofJson?, InterfaceMethod.toJson, fieldsDepth, hsig.eq]
  exact ite_none_congr (by omega)

theorem Ty.recovers {ty : Ty} (h : ∀ id ∈ ty.mentions, Addressable id.index) (room : Nat) :
    Recovers Ty.ofJson? ty.toJson room ty := by
  cases ty with
  | basic kind =>
    simp [Recovers, Ty.toJson, Ty.ofJson?]
    rfl
  | named package name underlying args =>
    have hpackage := Package.recovers_optional package (room - 2)
    have hunderlying := TypeId.recovers_optional
      (fun id hid => h id (List.mem_append_left _ (Option.mem_toList.mpr hid))) (room - 2)
    have hargs := TypeIds.recovers
      (fun id hid => h id (List.mem_append_right _ hid)) (room - 2)
    simp [Recovers, Ty.toJson, Ty.ofJson?, fieldsDepth, Nat.sub_sub, hpackage.eq,
      hunderlying.eq, hargs.eq]
    exact ite_none_congr (by omega)
  | pointer elem | slice elem =>
    have helem := TypeId.recovers (h elem (.head _)) (room - 1)
    simp [Recovers, Ty.toJson, Ty.ofJson?, helem.eq]
    exact ite_none_congr (by omega)
  | array len elem | chan dir elem =>
    have helem := TypeId.recovers (h elem (.head _)) (room - 2)
    simp [Recovers, Ty.toJson, Ty.ofJson?, fieldsDepth, Nat.sub_sub, helem.eq]
    exact ite_none_congr (by omega)
  | map key value =>
    have hkey := TypeId.recovers (h key (.head _)) (room - 2)
    have hvalue := TypeId.recovers (h value (.tail _ (.head _))) (room - 2)
    simp [Recovers, Ty.toJson, Ty.ofJson?, fieldsDepth, Nat.sub_sub, hkey.eq, hvalue.eq]
    exact ite_none_congr (by omega)
  | signature params results variadic =>
    have hparams := TypeIds.recovers (fun id hid => h id (List.mem_append_left _ hid)) (room - 2)
    have hresults := TypeIds.recovers
      (fun id hid => h id (List.mem_append_right _ hid)) (room - 2)
    simp [Recovers, Ty.toJson, Ty.ofJson?, fieldsDepth, Nat.sub_sub, hparams.eq, hresults.eq]
    exact ite_none_congr (by omega)
  | struct fields =>
    have hfields := Recovers.list fields (fun field hfield =>
      StructField.recovers (h _ (List.mem_map_of_mem hfield)) (room - 1 - 1))
    simp [Recovers, Ty.toJson, Ty.ofJson?, hfields.eq]
    exact ite_none_congr (by omega)
  | interface methods =>
    have hmethods := Recovers.list methods (fun method hmethod =>
      InterfaceMethod.recovers (h _ (List.mem_map_of_mem hmethod)) (room - 1 - 1))
    simp [Recovers, Ty.toJson, Ty.ofJson?, hmethods.eq]
    exact ite_none_congr (by omega)
  | tuple members =>
    have hmembers : Recovers (list? TypeId.ofJson?) (TypeIds.toJson members) (room - 1) members :=
      TypeIds.recovers h (room - 1)
    simp [Recovers, Ty.toJson, Ty.ofJson?, hmembers.eq]
    exact ite_none_congr (by omega)
  | typeParam name =>
    simp [Recovers, Ty.toJson, Ty.ofJson?, fieldsDepth]
    exact ite_none_congr (by omega)
  | invalid => simp [Recovers, Ty.toJson, Ty.ofJson?, isUnit]

/-!
## Bindings and scopes
-/

/-- A binding whose positions a document can mention. -/
def Binding.Addressable (binding : Binding) : Prop :=
  (∀ ty ∈ binding.ty, Desugar.Addressable ty.index) ∧ Desugar.Addressable binding.scope.index

instance (binding : Binding) : Decidable binding.Addressable :=
  inferInstanceAs (Decidable (_ ∧ _))

theorem Binding.recovers {binding : Binding} (h : binding.Addressable) (room : Nat) :
    Recovers Binding.ofJson? binding.toJson room binding := by
  obtain ⟨name, ty, scope, kind, synthetic⟩ := binding
  have hty := TypeId.recovers_optional h.1 (room - 1)
  have hscope := ScopeId.recovers h.2 (room - 1)
  simp [Recovers, Binding.ofJson?, Binding.toJson, fieldsDepth, hty.eq, hscope.eq]
  exact ite_none_congr (by omega)

theorem Json.entries?_seen {α : Type} {key : α → String} {encode : α → Json}
    {read : Key × Json → Option α} {as : List α} {room : Nat}
    (h : ∀ a ∈ as, read (spelledKey (key a), (encode a).seen (room - 1)) = some a) :
    entries? read ((obj (as.map fun a => (key a, encode a))).seen room) =
      if 0 < room then some as else none := by
  have hall : ∀ bs : List α, bs ⊆ as →
      (bs.map fun a => (spelledKey (key a), (encode a).seen (room - 1))).mapM read = some bs := by
    intro bs hbs
    induction bs with
    | nil => rfl
    | cons b bs ih =>
      rcases List.cons_subset.mp hbs with ⟨hb, hrest⟩
      rw [List.map_cons, List.mapM_cons, h b hb, ih hrest]
      rfl
  rw [seen_obj, List.map_map]
  split
  · exact hall as (List.Subset.refl as)
  · rfl

theorem Json.fieldsDepth_map {α : Type} {key : α → String} {encode : α → Json} {as : List α}
    (h : ∀ a ∈ as, (encode a).depth = 0) :
    fieldsDepth (as.map fun a => (key a, encode a)) = 0 := by
  induction as with
  | nil => rfl
  | cons a as ih =>
    rw [List.map_cons, fieldsDepth, h a (.head _), ih fun b hb => h b (.tail _ hb), Nat.max_self]

theorem Scope.foldl_setName {names before : List (String × BindingId)}
    (h : ((before ++ names).map Prod.fst).Nodup) :
    names.foldl (fun names entry => setName entry.1 entry.2 names) before = before ++ names := by
  induction names generalizing before with
  | nil => rw [List.append_nil, List.foldl_nil]
  | cons entry names ih =>
    have hnew : ∀ other ∈ before, other.1 ≠ entry.1 := by
      intro other hother heq
      rw [List.map_append, List.map_cons] at h
      exact (List.nodup_append.mp h).2.2 _ (List.mem_map_of_mem hother) _ (.head _) heq
    rw [List.foldl_cons, setName_of_not_mem hnew, ih (by simpa using h), List.append_assoc]
    rfl

/-- A scope whose positions a document can mention, and whose names are distinct. -/
structure Scope.Representable (scope : Scope) : Prop where
  parent : ∀ parent ∈ scope.parent, Addressable parent.index
  names : ∀ entry ∈ scope.names, Addressable entry.2.index
  distinct : (scope.names.map Prod.fst).Nodup

instance (scope : Scope) : Decidable scope.Representable :=
  decidable_of_iff ((∀ parent ∈ scope.parent, Addressable parent.index) ∧
      (∀ entry ∈ scope.names, Addressable entry.2.index) ∧ (scope.names.map Prod.fst).Nodup)
    ⟨fun ⟨hparent, hnames, hdistinct⟩ => ⟨hparent, hnames, hdistinct⟩,
      fun h => ⟨h.parent, h.names, h.distinct⟩⟩

theorem Scope.names_recover {names : List (String × BindingId)}
    (h : ∀ entry ∈ names, Addressable entry.2.index) (hdistinct : (names.map Prod.fst).Nodup)
    (room : Nat) :
    Recovers Scope.names? (obj (names.map fun entry => (entry.1, entry.2.toJson))) room names := by
  have hread : ∀ entry ∈ names,
      (BindingId.ofJson? (entry.2.toJson.seen (room - 1))).map (fun id => (entry.1, id)) =
        some entry := by
    intro entry hentry
    rw [BindingId.recovers (h entry hentry) (room - 1)]
    simp
  have hfold : names.foldl (fun names entry => Scope.setName entry.1 entry.2 names) [] = names :=
    Scope.foldl_setName hdistinct
  have hdepth : fieldsDepth (names.map fun entry => (entry.1, entry.2.toJson)) = 0 :=
    fieldsDepth_map fun entry _ => entry.2.depth_toJson
  rw [Recovers, Scope.names?, entries?_seen hread, depth_obj, hdepth]
  simp only [Option.bind_eq_bind, ite_bind, Option.bind_some, hfold]
  exact ite_none_congr (by omega)

theorem Scope.recovers {scope : Scope} (h : scope.Representable) (room : Nat) :
    Recovers Scope.ofJson? scope.toJson room scope := by
  obtain ⟨parent, names⟩ := scope
  have hparent := ScopeId.recovers_optional h.parent (room - 1)
  have hnames := Scope.names_recover h.names h.distinct (room - 1)
  simp [Recovers, Scope.ofJson?, Scope.toJson, fieldsDepth, hparent.eq, hnames.eq]
  exact ite_none_congr (by omega)

/-!
## Facts about nodes
-/

theorem Json.escapeChar_of_isDecimal {c : Char} (h : isDecimal c = true) : escapeChar c = [c] := by
  have hlow : ¬c.toNat < 32 := by
    simp only [isDecimal, Char.le_def, Bool.and_eq_true, decide_eq_true_eq] at h
    have hzero : '0'.val ≤ c.val := h.1
    have : 48 ≤ c.val.toNat := hzero
    show ¬c.val.toNat < 32
    omega
  have hne (d : Char) (hd : isDecimal d = false) : c ≠ d := by
    rintro rfl
    rw [h] at hd
    cases hd
  have hcode (n : Nat) (hn : n < 32) : c.toNat ≠ n := by omega
  simp [escapeChar, hne '"' rfl, hne '\\' rfl, hne '\n' rfl, hne '\r' rfl, hne '\t' rfl,
    hcode 8 (by decide), hcode 12 (by decide), hlow]

theorem Json.spelledKey_toString (n : Nat) : spelledKey (toString n) = ⟨toString n, false⟩ := by
  have hplain : (toString n).toList.any (fun c => escapeChar c ≠ [c]) = false := by
    rw [List.any_eq_false]
    intro c hc
    have hdigits : (toString n).toList = Nat.toDigits 10 n := Nat.toList_repr
    rw [hdigits] at hc
    simp [escapeChar_of_isDecimal (isDecimal_of_mem_toDigits hc)]
  rw [spelledKey, hplain]

theorem NodeId.ofKey?_spelledKey (id : NodeId) :
    NodeId.ofKey? (spelledKey (toString id.val.toNat)) = some id := by
  obtain ⟨n⟩ := id
  have hdigits : (toString n.toNat).toList = Nat.toDigits 10 n.toNat := Nat.toList_repr
  have hall : (Nat.toDigits 10 n.toNat).all Char.isDigit = true := by
    rw [List.all_eq_true]
    exact fun c hc => Nat.isDigit_of_mem_toDigits (by decide) (by decide) hc
  have hlead : (Nat.toDigits 10 n.toNat == ['0'] ||
      (Nat.toDigits 10 n.toNat).head?.any (fun c => c != '0')) = true := by
    rcases Nat.eq_zero_or_pos n.toNat with hzero | hpos
    · rw [hzero]
      rfl
    · obtain ⟨c, more, hcons, hc⟩ := toDigits_eq_cons hpos
      simp [hcons, hc]
  have hvalue : digitsValue (Nat.toDigits 10 n.toNat) = n.toNat := Nat.ofDigitChars_ten_toDigits
  have hsize : n.toNat < UInt32.size := n.toNat_lt
  rw [spelledKey_toString, NodeId.ofKey?]
  simp only [hdigits, hall, hlead, hvalue, hsize, Bool.and_self, if_true, Bool.false_eq_true,
    if_false, UInt32.ofNat_toNat]

theorem NodeMap.foldl_insert {α : Type} (facts : NodeMap α) :
    facts.toList.foldl (fun facts entry => facts.insert entry.1 entry.2) ∅ = facts := by
  have hmany : ∀ (entries : List (NodeId × α)) (start : NodeMap α),
      entries.foldl (fun facts entry => facts.insert entry.1 entry.2) start =
        start.insertMany entries := by
    intro entries
    induction entries with
    | nil => intro start; rw [List.foldl_nil, Std.ExtTreeMap.insertMany_nil]
    | cons entry entries ih =>
      intro start
      rw [List.foldl_cons, ih, Std.ExtTreeMap.insertMany_cons]
  rw [hmany]
  apply Std.ExtTreeMap.ext_getElem?
  intro node
  cases hfact : facts[node]? with
  | none =>
    have hkey : (facts.toList.map Prod.fst).contains node = false := by
      rw [Std.ExtTreeMap.map_fst_toList_eq_keys]
      simpa using hfact
    rw [Std.ExtTreeMap.getElem?_insertMany_list_of_contains_eq_false hkey]
    rfl
  | some a =>
    exact Std.ExtTreeMap.getElem?_insertMany_list_of_mem Std.ReflCmp.compare_self
      Std.ExtTreeMap.distinct_keys_toList
      (Std.ExtTreeMap.mem_toList_iff_getElem?_eq_some.mpr hfact)

theorem NodeMap.recovers {α : Type} {encode : α → Json} {read : Json → Option α}
    {facts : NodeMap α} (hdepth : ∀ a, (encode a).depth = 0)
    (h : ∀ fact ∈ facts.toList, ∀ room, Recovers read (encode fact.2) room fact.2) (room : Nat) :
    Recovers (NodeMap.ofJson? read) (NodeMap.toJson encode facts) room facts := by
  have hread : ∀ fact ∈ facts.toList,
      (do let node ← NodeId.ofKey? (spelledKey (toString fact.1.val.toNat))
          let a ← read ((encode fact.2).seen (room - 1))
          return (node, a)) = some fact := by
    intro fact hfact
    rw [NodeId.ofKey?_spelledKey, (h fact hfact (room - 1)).eq, hdepth]
    simp
  have hfields : fieldsDepth (facts.toList.map
      fun fact => (toString fact.1.val.toNat, encode fact.2)) = 0 :=
    fieldsDepth_map fun fact _ => hdepth fact.2
  rw [Recovers, NodeMap.ofJson?, NodeMap.toJson, entries?_seen hread, depth_obj, hfields]
  simp only [Option.bind_eq_bind, ite_bind, Option.bind_some, NodeMap.foldl_insert]
  exact ite_none_congr (by omega)

/-!
## Tables
-/

/-- A table whose positions a document can mention, and whose scopes have each
name once. -/
structure SymbolTable.Representable (table : SymbolTable) : Prop where
  types : ∀ ty ∈ table.types, ∀ id ∈ ty.mentions, Addressable id.index
  exprTypes : ∀ fact ∈ table.exprTypes.toList, Addressable fact.2.index
  defs : ∀ fact ∈ table.defs.toList, Addressable fact.2.index
  uses : ∀ fact ∈ table.uses.toList, Addressable fact.2.index
  scopes : ∀ scope ∈ table.scopes, scope.Representable
  scopeOf : ∀ fact ∈ table.scopeOf.toList, Addressable fact.2.index
  bindings : ∀ binding ∈ table.bindings, binding.Addressable

instance (table : SymbolTable) : Decidable table.Representable :=
  decidable_of_iff ((∀ ty ∈ table.types, ∀ id ∈ ty.mentions, Addressable id.index) ∧
      (∀ fact ∈ table.exprTypes.toList, Addressable fact.2.index) ∧
      (∀ fact ∈ table.defs.toList, Addressable fact.2.index) ∧
      (∀ fact ∈ table.uses.toList, Addressable fact.2.index) ∧
      (∀ scope ∈ table.scopes, scope.Representable) ∧
      (∀ fact ∈ table.scopeOf.toList, Addressable fact.2.index) ∧
      ∀ binding ∈ table.bindings, binding.Addressable)
    ⟨fun ⟨htypes, hexprTypes, hdefs, huses, hscopes, hscopeOf, hbindings⟩ =>
        ⟨htypes, hexprTypes, hdefs, huses, hscopes, hscopeOf, hbindings⟩,
      fun h => ⟨h.types, h.exprTypes, h.defs, h.uses, h.scopes, h.scopeOf, h.bindings⟩⟩

/-- What a document says of a table: all but the names set aside. -/
def SymbolTable.stored (table : SymbolTable) : SymbolTable :=
  { table with reserved := [] }

theorem SymbolTable.recovers {table : SymbolTable} (h : table.Representable) (room : Nat) :
    Recovers SymbolTable.ofJson? table.toJson room table.stored := by
  have htypes : Recovers (list? Ty.ofJson?) (arr (table.types.toList.map Ty.toJson)) (room - 1)
      table.types.toList :=
    Recovers.list _ fun ty hty => Ty.recovers (h.types ty (Array.mem_toList_iff.mp hty)) _
  have hexprTypes := NodeMap.recovers TypeId.depth_toJson
    (fun fact hfact => TypeId.recovers (h.exprTypes fact hfact)) (room - 1)
  have hdefs := NodeMap.recovers BindingId.depth_toJson
    (fun fact hfact => BindingId.recovers (h.defs fact hfact)) (room - 1)
  have huses := NodeMap.recovers BindingId.depth_toJson
    (fun fact hfact => BindingId.recovers (h.uses fact hfact)) (room - 1)
  have hselections := NodeMap.recovers (fun selection : Selection => depth_str selection.tag)
    (fun fact (_ : fact ∈ table.selections.toList) => Selection.recovers fact.2) (room - 1)
  have hscopes : Recovers (list? Scope.ofJson?) (arr (table.scopes.toList.map Scope.toJson))
      (room - 1) table.scopes.toList :=
    Recovers.list _ fun scope hscope =>
      Scope.recovers (h.scopes scope (Array.mem_toList_iff.mp hscope)) _
  have hscopeOf := NodeMap.recovers ScopeId.depth_toJson
    (fun fact hfact => ScopeId.recovers (h.scopeOf fact hfact)) (room - 1)
  have hbindings : Recovers (list? Binding.ofJson?)
      (arr (table.bindings.toList.map Binding.toJson)) (room - 1) table.bindings.toList :=
    Recovers.list _ fun binding hbinding =>
      Binding.recovers (h.bindings binding (Array.mem_toList_iff.mp hbinding)) _
  simp [Recovers, SymbolTable.ofJson?, SymbolTable.toJson, fieldsDepth, htypes.eq, hexprTypes.eq,
    hdefs.eq, huses.eq, hselections.eq, hscopes.eq, hscopeOf.eq, hbindings.eq]
  exact ite_none_congr (by omega)

theorem TypeId.writable (id : TypeId) : id.toJson.Writable :=
  writable_ofNat _

theorem BindingId.writable (id : BindingId) : id.toJson.Writable :=
  writable_ofNat _

theorem ScopeId.writable (id : ScopeId) : id.toJson.Writable :=
  writable_ofNat _

theorem TypeIds.writable (types : List TypeId) : (TypeIds.toJson types).Writable :=
  writableItems_map fun id _ => id.writable

theorem Ty.writable (ty : Ty) : ty.toJson.Writable := by
  cases ty with
  | named package name underlying args =>
    have hpackage : (ofOption Package.toJson package).Writable :=
      writable_ofOption fun package _ => by simp [Package.toJson]
    have hunderlying : (ofOption TypeId.toJson underlying).Writable :=
      writable_ofOption fun id _ => id.writable
    simp [Ty.toJson, hpackage, hunderlying, TypeIds.writable]
  | struct fields =>
    have hfields : (arr (fields.map StructField.toJson)).Writable :=
      writableItems_map fun field _ => by simp [StructField.toJson, TypeId.writable]
    simp [Ty.toJson, hfields]
  | interface methods =>
    have hmethods : (arr (methods.map InterfaceMethod.toJson)).Writable :=
      writableItems_map fun method _ => by simp [InterfaceMethod.toJson, TypeId.writable]
    simp [Ty.toJson, hmethods]
  | _ => simp [Ty.toJson, TypeId.writable, TypeIds.writable]

theorem Binding.writable (binding : Binding) : binding.toJson.Writable := by
  have hty : (ofOption TypeId.toJson binding.ty).Writable :=
    writable_ofOption fun id _ => id.writable
  simp [Binding.toJson, hty, ScopeId.writable]

theorem Scope.writable (scope : Scope) : scope.toJson.Writable := by
  have hparent : (ofOption ScopeId.toJson scope.parent).Writable :=
    writable_ofOption fun id _ => id.writable
  have hnames : (obj (scope.names.map fun entry => (entry.1, entry.2.toJson))).Writable :=
    writable_obj_map fun entry _ => entry.2.writable
  simp [Scope.toJson, hparent, hnames]

theorem NodeMap.writable {α : Type} {encode : α → Json} (h : ∀ a, (encode a).Writable)
    (facts : NodeMap α) : (NodeMap.toJson encode facts).Writable :=
  writable_obj_map fun fact _ => h fact.2

theorem SymbolTable.writable (table : SymbolTable) : table.toJson.Writable := by
  have htypes : (arr (table.types.toList.map Ty.toJson)).Writable :=
    writableItems_map fun ty _ => ty.writable
  have hscopes : (arr (table.scopes.toList.map Scope.toJson)).Writable :=
    writableItems_map fun scope _ => scope.writable
  have hbindings : (arr (table.bindings.toList.map Binding.toJson)).Writable :=
    writableItems_map fun binding _ => binding.writable
  simp [SymbolTable.toJson, htypes, hscopes, hbindings, NodeMap.writable TypeId.writable,
    NodeMap.writable BindingId.writable, NodeMap.writable ScopeId.writable,
    NodeMap.writable fun selection : Selection => writable_str selection.tag]

end Desugar
