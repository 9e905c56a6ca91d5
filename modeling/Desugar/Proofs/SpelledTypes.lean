import Desugar.Proofs.ClosedTypes
import Desugar.Symbols.Spelling
import Mathlib.Logic.Relation

/-!
# Spelled types

A type is spelled from the types it is written with.  Spelling fails exactly when
one of these cannot be written in the file, and each name in a spelling stands for
one of them.  Packages are named as their first import names them; when that import
is blank, so is the qualifier.
-/

namespace Desugar

/-!
## What a type is written with
-/

def Ty.components : Ty → List TypeId
  | .named _ _ _ args => args
  | type => type.mentions

mutual

def TypeExpr.leaves : TypeExpr → List TypeExpr
  | .named name => [.named name]
  | .qualified package name => [.qualified package name]
  | .generic base args => base.leaves ++ TypeExprs.leaves args
  | .pointer elem | .slice elem | .array _ elem | .chan _ elem => elem.leaves
  | .map key value => key.leaves ++ value.leaves
  | .func params results _ => TypeExprs.leaves params ++ TypeExprs.leaves results
  | .struct fields => FieldExprs.leaves fields
  | .interface methods => MethodExprs.leaves methods

def TypeExprs.leaves : List TypeExpr → List TypeExpr
  | [] => []
  | ty :: rest => ty.leaves ++ TypeExprs.leaves rest

def FieldExprs.leaves : List FieldExpr → List TypeExpr
  | [] => []
  | ⟨_, ty⟩ :: rest => ty.leaves ++ FieldExprs.leaves rest

def MethodExprs.leaves : List MethodExpr → List TypeExpr
  | [] => []
  | ⟨_, sig⟩ :: rest => sig.leaves ++ MethodExprs.leaves rest

end

def UsableName (name : String) : Prop :=
  name ≠ "_" ∧ name ≠ "."

namespace PackageView

def Names (view : PackageView) (path name : String) : Prop :=
  UsableName name ∧ ∃ imported ∈ view.imports, imported.path = path ∧ imported.localName = name

/-- Whether the first import of a package, if there is one, has a name that source can use. -/
def Usable (view : PackageView) (path : String) : Prop :=
  ∀ name, view.qualifier? path = some name → UsableName name

variable {view : PackageView} {path name : String}

theorem names_of_qualifier? (husable : view.Usable path) (h : view.qualifier? path = some name) :
    view.Names path name := by
  rcases Option.map_eq_some_iff.mp h with ⟨imported, hfound, hname⟩
  have hpath := List.find?_some hfound
  exact ⟨husable name h, imported, List.mem_of_find?_eq_some hfound,
    beq_iff_eq.mp hpath, hname⟩

theorem not_names_of_qualifier? (h : view.qualifier? path = none) : ¬ view.Names path name := by
  rintro ⟨_, imported, hmem, hpath, _⟩
  exact List.find?_eq_none.mp (Option.map_eq_none_iff.mp h) imported hmem (beq_iff_eq.mpr hpath)

end PackageView

def Ty.qualifiedBy? (view : PackageView) : Ty → Option String
  | .basic .unsafePointer => some "unsafe"
  | .named (some package) name _ _ =>
      if view.isLocal package = false ∧ isExported name = true then some package.path else none
  | _ => none

/-- A type that cannot be written in a file, whatever it is written with. -/
def Ty.Unwritable (view : PackageView) : Ty → Prop
  | .tuple _ | .invalid | .basic .untypedNil => True
  | .basic .unsafePointer => ∀ name, ¬ view.Names "unsafe" name
  | .named (some package) name _ _ =>
      view.isLocal package = false ∧
        (isExported name = false ∨ ∀ qualifier, ¬ view.Names package.path qualifier)
  | _ => False

/-- What a name in a spelling says of the type it stands for. -/
def Ty.WrittenAs (view : PackageView) : Ty → TypeExpr → Prop
  | .basic _, .named name => ∃ kind : BasicKind, kind.isUntyped = false ∧ name = kind.name
  | .basic kind, .qualified qualifier name =>
      kind = .unsafePointer ∧ name = "Pointer" ∧ view.Names "unsafe" qualifier
  | .named package name _ _, .named text =>
      text = name ∧ ∀ foreign ∈ package, view.isLocal foreign = true
  | .named package name _ _, .qualified qualifier text =>
      text = name ∧ ∃ foreign ∈ package, view.Names foreign.path qualifier
  | .typeParam name, .named text => text = name
  | _, _ => False

namespace SymbolTable

/-- A table whose types are written with earlier types. -/
def Grounded (table : SymbolTable) : Prop :=
  ∀ (index : Nat) (h : index < table.types.size),
    ∀ part ∈ (table.types[index]).components, part.index < index

instance (table : SymbolTable) : Decidable table.Grounded :=
  inferInstanceAs (Decidable (∀ (index : Nat) (h : index < table.types.size),
    ∀ part ∈ (table.types[index]).components, part.index < index))

theorem Grounded.index_lt {table : SymbolTable} (h : table.Grounded) {id part : TypeId}
    (hpart : part ∈ (table.ty id).components) : part.index < id.index := by
  unfold ty at hpart
  by_cases hid : id.index < table.types.size
  · rw [Array.getElem?_eq_getElem hid] at hpart
    exact h id.index hid part hpart
  · rw [Array.getElem?_eq_none (Nat.le_of_not_lt hid)] at hpart
    cases hpart

def Reaches (table : SymbolTable) : TypeId → TypeId → Prop :=
  Relation.ReflTransGen fun whole part => part ∈ (table.ty whole).components

/-- Whether source can use the name of every package that what a type is written with is
qualified by. -/
def PackagesUsable (table : SymbolTable) (view : PackageView) (id : TypeId) : Prop :=
  ∀ part, table.Reaches id part → ∀ path ∈ (table.ty part).qualifiedBy? view, view.Usable path

theorem PackagesUsable.component {table : SymbolTable} {view : PackageView} {id part : TypeId}
    (h : table.PackagesUsable view id) (hpart : part ∈ (table.ty id).components) :
    table.PackagesUsable view part :=
  fun other hreaches => h other (.head hpart hreaches)

/-!
## Outcomes

Spelling some types fails because of a type that one of them is written with, or
gives a result whose names stand for such types.
-/

def Outcome {α : Type} (table : SymbolTable) (view : PackageView) (roots : List TypeId)
    (leaves : α → List TypeExpr) : Except TypeId α → Prop
  | .error _ => ∃ root ∈ roots, ∃ part, table.Reaches root part ∧ (table.ty part).Unwritable view
  | .ok a => (∀ root ∈ roots, ∀ part, table.Reaches root part → ¬ (table.ty part).Unwritable view) ∧
      ∀ leaf ∈ leaves a, ∃ root ∈ roots, ∃ part, table.Reaches root part ∧
        (table.ty part).WrittenAs view leaf

namespace Outcome

variable {α β γ : Type} {table : SymbolTable} {view : PackageView} {roots roots' : List TypeId}
  {leaves : α → List TypeExpr} {leaves' : β → List TypeExpr}

theorem map {x : Except TypeId α} {g : α → γ} (h : Outcome table view roots leaves x)
    {all : γ → List TypeExpr} (hall : ∀ a, all (g a) = leaves a) :
    Outcome table view roots all (do return g (← x)) := by
  cases x with
  | error culprit => exact h
  | ok a => exact ⟨h.1, fun leaf hleaf => h.2 leaf (hall a ▸ hleaf)⟩

theorem both {x : Except TypeId α} {y : Except TypeId β} {g : α → β → γ}
    (hx : Outcome table view roots leaves x) (hy : Outcome table view roots' leaves' y)
    {all : γ → List TypeExpr} (hall : ∀ a b, all (g a b) = leaves a ++ leaves' b) :
    Outcome table view (roots ++ roots') all (do
      let a ← x
      let b ← y
      return g a b) := by
  cases x with
  | error culprit => exact hx.imp fun root h => ⟨List.mem_append_left _ h.1, h.2⟩
  | ok a =>
    cases y with
    | error culprit => exact hy.imp fun root h => ⟨List.mem_append_right _ h.1, h.2⟩
    | ok b =>
      refine ⟨fun root hroot => ?_, fun leaf hleaf => ?_⟩
      · exact (List.mem_append.mp hroot).elim (hx.1 root) (hy.1 root)
      · rw [hall] at hleaf
        rcases List.mem_append.mp hleaf with hleaf | hleaf
        · exact (hx.2 leaf hleaf).imp fun root h => ⟨List.mem_append_left _ h.1, h.2⟩
        · exact (hy.2 leaf hleaf).imp fun root h => ⟨List.mem_append_right _ h.1, h.2⟩

theorem mapM {f : β → Except TypeId α} (part : β → TypeId) (leaves : α → List TypeExpr)
    (all : List α → List TypeExpr) (hnil : all [] = [])
    (hcons : ∀ a as, all (a :: as) = leaves a ++ all as) {items : List β}
    (h : ∀ item ∈ items, Outcome table view [part item] leaves (f item)) :
    Outcome table view (items.map part) all (items.mapM f) := by
  induction items with
  | nil => exact ⟨fun _ hroot => absurd hroot List.not_mem_nil, by simp [hnil]⟩
  | cons item rest ih =>
    rw [List.mapM_cons]
    exact (h item (.head _)).both (ih fun item hitem => h item (.tail _ hitem)) hcons

theorem whole {x : Except TypeId α} {g : α → TypeExpr} {id : TypeId} {type : Ty}
    (hty : table.ty id = type) (h : Outcome table view type.components leaves x)
    (hself : ¬ type.Unwritable view)
    (hleaves : ∀ a, ∀ leaf ∈ (g a).leaves, leaf ∈ leaves a ∨ type.WrittenAs view leaf) :
    Outcome table view [id] TypeExpr.leaves (do return g (← x)) := by
  subst hty
  cases x with
  | error culprit =>
    rcases h with ⟨root, hroot, part, hreaches, hpart⟩
    exact ⟨id, .head _, part, .head hroot hreaches, hpart⟩
  | ok a =>
    refine ⟨fun root hroot part hreaches => ?_, fun leaf hleaf => ?_⟩
    · cases List.mem_singleton.mp hroot
      rcases hreaches.cases_head with rfl | ⟨next, hnext, hrest⟩
      · exact hself
      · exact h.1 next hnext part hrest
    · rcases hleaves a leaf hleaf with hleaf | hwritten
      · rcases h.2 leaf hleaf with ⟨root, hroot, part, hreaches, hpart⟩
        exact ⟨id, .head _, part, .head hroot hreaches, hpart⟩
      · exact ⟨id, .head _, id, .refl, hwritten⟩

theorem atom {id : TypeId} {type : Ty} {e : TypeExpr} (hty : table.ty id = type)
    (hcomponents : type.components = [])
    (hself : ¬ type.Unwritable view ∧ ∀ leaf ∈ e.leaves, type.WrittenAs view leaf) :
    Outcome table view [id] TypeExpr.leaves (.ok e) := by
  have hnone : Outcome table view type.components (fun _ : Unit => []) (.ok ()) := by
    rw [hcomponents]
    exact ⟨by simp, by simp⟩
  exact hnone.whole (g := fun _ => e) hty hself.1 fun _ leaf hleaf => .inr (hself.2 leaf hleaf)

theorem unwritable {id culprit : TypeId} {type : Ty} (hty : table.ty id = type)
    (h : type.Unwritable view) : Outcome table view [id] leaves (.error culprit) :=
  ⟨id, .head _, id, .refl, hty ▸ h⟩

end Outcome

/-!
## Spelling
-/

section

variable {table : SymbolTable} {view : PackageView}

theorem spellBasic_none {kind : BasicKind} (h : spellBasic view kind = none) :
    (Ty.basic kind).Unwritable view := by
  cases kind with
  | unsafePointer =>
    exact fun _ => PackageView.not_names_of_qualifier? (Option.map_eq_none_iff.mp h)
  | untypedNil => trivial
  | _ => cases h

theorem spellBasic_some {kind : BasicKind} {e : TypeExpr}
    (husable : ∀ path ∈ (Ty.basic kind).qualifiedBy? view, view.Usable path)
    (h : spellBasic view kind = some e) :
    ¬ (Ty.basic kind).Unwritable view ∧ ∀ leaf ∈ e.leaves, (Ty.basic kind).WrittenAs view leaf := by
  cases kind with
  | unsafePointer =>
    rcases Option.map_eq_some_iff.mp h with ⟨name, hname, rfl⟩
    have hnames := PackageView.names_of_qualifier? (husable "unsafe" rfl) hname
    refine ⟨fun hmissing => hmissing name hnames, ?_⟩
    simpa [TypeExpr.leaves, Ty.WrittenAs] using hnames
  | untypedNil => cases h
  | _ =>
    cases h
    refine ⟨id, ?_⟩
    simp only [TypeExpr.leaves, List.mem_singleton, forall_eq, Ty.WrittenAs]
    exact ⟨_, rfl, rfl⟩

theorem spellName_none {package : Option Package} {name : String} {underlying : Option TypeId}
    {args : List TypeId} (h : spellName view package name = none) :
    (Ty.named package name underlying args).Unwritable view := by
  cases package with
  | none => cases h
  | some package =>
    simp only [spellName] at h
    split at h
    · cases h
    · rename_i hlocal
      refine ⟨Bool.eq_false_iff.mpr hlocal, ?_⟩
      split at h
      · exact .inr fun _ => PackageView.not_names_of_qualifier? (Option.map_eq_none_iff.mp h)
      · rename_i hexported
        exact .inl (Bool.eq_false_iff.mpr hexported)

theorem spellName_some {package : Option Package} {name : String} {underlying : Option TypeId}
    {args : List TypeId} {e : TypeExpr}
    (husable : ∀ path ∈ (Ty.named package name underlying args).qualifiedBy? view,
      view.Usable path)
    (h : spellName view package name = some e) :
    ¬ (Ty.named package name underlying args).Unwritable view ∧
      ∀ leaf ∈ e.leaves, (Ty.named package name underlying args).WrittenAs view leaf := by
  cases package with
  | none =>
    cases h
    exact ⟨id, by simp [TypeExpr.leaves, Ty.WrittenAs]⟩
  | some package =>
    simp only [spellName] at h
    split at h
    · rename_i hlocal
      cases h
      exact ⟨by simp [Ty.Unwritable, hlocal], by simp [TypeExpr.leaves, Ty.WrittenAs, hlocal]⟩
    · rename_i hforeign
      split at h
      · rename_i hexported
        rcases Option.map_eq_some_iff.mp h with ⟨qualifier, hname, rfl⟩
        have hpackage : package.path ∈
            (Ty.named (some package) name underlying args).qualifiedBy? view :=
          if_pos ⟨Bool.eq_false_iff.mpr hforeign, hexported⟩
        have hnames := PackageView.names_of_qualifier? (husable _ hpackage) hname
        refine ⟨?_, by simpa [TypeExpr.leaves, Ty.WrittenAs] using hnames⟩
        rintro ⟨_, hhidden | hmissing⟩
        · exact absurd hexported (Bool.eq_false_iff.mp hhidden)
        · exact hmissing qualifier hnames
      · cases h

theorem spellWithin_outcome (hgrounded : table.Grounded) :
    ∀ (n : Nat) (id : TypeId), id.index < n → table.PackagesUsable view id →
      Outcome table view [id] TypeExpr.leaves (table.spellWithin view n id)
  | n + 1, id, hid, husable => by
    have hparts : ∀ part ∈ (table.ty id).components,
        Outcome table view [part] TypeExpr.leaves (table.spellWithin view n part) :=
      fun part hpart => spellWithin_outcome hgrounded n part
        (Nat.lt_of_lt_of_le (hgrounded.index_lt hpart) (Nat.le_of_lt_succ hid))
        (husable.component hpart)
    have hlist : ∀ parts : List TypeId, (∀ part ∈ parts, part ∈ (table.ty id).components) →
        Outcome table view parts TypeExprs.leaves (parts.mapM (table.spellWithin view n)) := by
      intro parts hmem
      have h := Outcome.mapM (fun part => part) _ TypeExprs.leaves rfl (fun _ _ => rfl)
        fun part hpart => hparts part (hmem part hpart)
      rwa [List.map_id'] at h
    have hown := husable id .refl
    unfold spellWithin
    cases hty : table.ty id with
    | basic kind =>
      dsimp only
      cases hbasic : spellBasic view kind with
      | none => exact .unwritable hty (spellBasic_none hbasic)
      | some e => exact .atom hty rfl (spellBasic_some (hty ▸ hown) hbasic)
    | named package name underlying args =>
      dsimp only
      cases hname : spellName view package name with
      | none => exact .unwritable hty (spellName_none hname)
      | some base =>
        have hself := spellName_some (hty ▸ hown) hname
        cases args with
        | nil => exact .atom hty rfl hself
        | cons first rest =>
          refine (hlist (first :: rest) (by simp [hty, Ty.components])).whole hty hself.1 ?_
          intro args leaf hleaf
          exact (List.mem_append.mp hleaf).symm.imp_right (hself.2 leaf)
    | pointer elem | slice elem | array len elem | chan dir elem =>
      have helem := hparts elem (by simp [hty, Ty.components, Ty.mentions])
      exact helem.whole hty not_false fun _ _ => .inl
    | map key value =>
      have hkey := hparts key (by simp [hty, Ty.components, Ty.mentions])
      have hvalue := hparts value (by simp [hty, Ty.components, Ty.mentions])
      have h := (hkey.both hvalue (g := .map) fun _ _ => rfl).whole (g := fun e => e) hty not_false
        fun _ _ => .inl
      rwa [bind_pure] at h
    | signature params results variadic =>
      have hparams := hlist params fun _ h => by simp [hty, Ty.components, Ty.mentions, h]
      have hresults := hlist results fun _ h => by simp [hty, Ty.components, Ty.mentions, h]
      have h := (hparams.both hresults (g := fun params results => .func params results variadic)
        fun _ _ => rfl).whole (g := fun e => e) hty not_false fun _ _ => .inl
      rwa [bind_pure] at h
    | struct fields =>
      have hfield : ∀ field ∈ fields, field.ty ∈ (table.ty id).components := fun field h => by
        simpa [hty, Ty.components, Ty.mentions] using ⟨field, h, rfl⟩
      exact (Outcome.mapM StructField.ty (fun field => field.ty.leaves) FieldExprs.leaves rfl
        (fun field _ => by cases field; rfl) fun field h =>
          (hparts field.ty (hfield field h)).map fun _ => rfl).whole hty not_false fun _ _ => .inl
    | interface methods =>
      have hmethod : ∀ method ∈ methods, method.sig ∈ (table.ty id).components := fun method h => by
        simpa [hty, Ty.components, Ty.mentions] using ⟨method, h, rfl⟩
      exact (Outcome.mapM InterfaceMethod.sig (fun method => method.sig.leaves) MethodExprs.leaves
        rfl (fun method _ => by cases method; rfl) fun method h =>
          (hparts method.sig (hmethod method h)).map fun _ => rfl).whole hty not_false
        fun _ _ => .inl
    | typeParam name =>
      exact .atom hty rfl ⟨not_false, by simp [TypeExpr.leaves, Ty.WrittenAs]⟩
    | tuple members | invalid => exact .unwritable hty trivial

theorem spell_outcome (hgrounded : table.Grounded) {id : TypeId}
    (husable : table.PackagesUsable view id) :
    Outcome table view [id] TypeExpr.leaves (table.spell view id) := by
  by_cases hid : id.index < table.types.size + 1
  · exact spellWithin_outcome hgrounded _ id hid husable
  · have hty : table.ty id = .invalid := by
      rw [ty, Array.getElem?_eq_none (Nat.le_of_lt (Nat.lt_of_not_le fun h => hid (by omega)))]
      rfl
    unfold spell spellWithin
    simp only [hty]
    exact .unwritable hty trivial

/-- Spelling a type fails exactly when something it is written with cannot be written in
the file.  In a spelling, every qualifier is a usable name under which the file imports the
package of the type, and a name that stands for a basic type is not that of an untyped
one. -/
theorem spell_exact (hgrounded : table.Grounded) {id : TypeId}
    (husable : table.PackagesUsable view id) :
    ((∃ culprit, table.spell view id = .error culprit) ↔
      ∃ part, table.Reaches id part ∧ (table.ty part).Unwritable view) ∧
    ∀ e, table.spell view id = .ok e → ∀ leaf ∈ e.leaves,
      ∃ part, table.Reaches id part ∧ (table.ty part).WrittenAs view leaf := by
  have h := spell_outcome hgrounded husable
  cases hspell : table.spell view id with
  | error culprit =>
    rw [hspell] at h
    rcases h with ⟨root, hroot, hpart⟩
    cases List.mem_singleton.mp hroot
    exact ⟨⟨fun _ => hpart, fun _ => ⟨culprit, rfl⟩⟩, fun e he => by cases he⟩
  | ok e =>
    rw [hspell] at h
    refine ⟨⟨?_, ?_⟩, ?_⟩
    · rintro ⟨_, he⟩
      cases he
    · rintro ⟨part, hreaches, hpart⟩
      exact absurd hpart (h.1 id (.head _) part hreaches)
    · rintro _ ⟨⟩ leaf hleaf
      rcases h.2 leaf hleaf with ⟨root, hroot, hpart⟩
      cases List.mem_singleton.mp hroot
      exact hpart

end

/-- A type of another package that is defined as a pointer to itself, and types written
with it. -/
def connectionTable : SymbolTable :=
  { empty with
    types := #[.named (some ⟨"example.com/db", "db"⟩) "Conn" (some ⟨1⟩) [], .pointer ⟨0⟩,
      .map ⟨1⟩ ⟨0⟩] }

def connectionView (name : String) : PackageView :=
  ⟨"main", "", [⟨some name, "example.com/db"⟩]⟩

theorem renamed_import_spelled :
    connectionTable.Grounded ∧ connectionTable.PackagesUsable (connectionView "sql") ⟨2⟩ ∧
      connectionTable.spell (connectionView "sql") ⟨2⟩ =
        .ok (.map (.pointer (.qualified "sql" "Conn")) (.qualified "sql" "Conn")) ∧
      ∃ part, connectionTable.Reaches ⟨2⟩ part ∧
        (connectionTable.ty part).WrittenAs (connectionView "sql") (.qualified "sql" "Conn") := by
  have hgrounded : connectionTable.Grounded := by decide +kernel
  have husable : connectionTable.PackagesUsable (connectionView "sql") ⟨2⟩ := by
    intro _ _ path _ name h
    rcases Option.map_eq_some_iff.mp h with ⟨imported, hfound, rfl⟩
    cases List.mem_singleton.mp (List.mem_of_find?_eq_some hfound)
    exact ⟨by decide, by decide⟩
  have hspell : connectionTable.spell (connectionView "sql") ⟨2⟩ =
    .ok (.map (.pointer (.qualified "sql" "Conn")) (.qualified "sql" "Conn")) := rfl
  exact ⟨hgrounded, husable, hspell, (spell_exact hgrounded husable).2 _ hspell _ (.head _)⟩

/-- A blank import does not let a file name the package, and is used as if it did. -/
theorem blank_import_spelled :
    connectionTable.Grounded ∧
      (∃ part, connectionTable.Reaches ⟨1⟩ part ∧
        (connectionTable.ty part).Unwritable (connectionView "_")) ∧
      connectionTable.spell (connectionView "_") ⟨1⟩ = .ok (.pointer (.qualified "_" "Conn")) := by
  refine ⟨by decide +kernel, ⟨⟨0⟩, .single (.head _), by decide +kernel, .inr ?_⟩, rfl⟩
  rintro name ⟨husable, imported, hmem, _, rfl⟩
  cases List.mem_singleton.mp hmem
  exact husable.1 rfl

end SymbolTable
end Desugar
