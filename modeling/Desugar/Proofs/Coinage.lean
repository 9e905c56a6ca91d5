import Desugar.Symbols.Scopes
import Mathlib.Algebra.Order.Group.Multiset
import Mathlib.Tactic.Abel

/-!
# Names that are coined

A fresh name is given to a synthetic binding, or else to a label, which is not a
binding and of which the table knows only that its name is reserved.  Either way
the name is one that was not taken before, so that no two coined names agree.
-/

namespace Desugar
namespace SymbolTable

/-- A table in which some synthetic bindings have been made and some labels been
named, each under a name of its own. -/
structure Coins (old new : SymbolTable) (made : List Binding) (labels : List String) : Prop where
  bindings : new.bindings.toList = old.bindings.toList ++ made
  reserved : new.reserved.Perm (made.map Binding.name ++ labels ++ old.reserved)
  synthetic : ∀ binding ∈ made, binding.synthetic = true
  distinct : (made.map Binding.name ++ labels).Nodup
  fresh : ∀ name ∈ made.map Binding.name ++ labels, name ∉ old.takenNames

namespace Coins

variable {a b c : SymbolTable} {made made' : List Binding} {labels labels' : List String}

theorem of_same (hbindings : b.bindings = a.bindings) (hreserved : b.reserved = a.reserved) :
    a.Coins b [] [] where
  bindings := by rw [hbindings, List.append_nil]
  reserved := .of_eq hreserved
  synthetic _ h := nomatch h
  distinct := .nil
  fresh _ h := nomatch h

theorem mem_takenNames_iff (h : a.Coins b made labels) {name : String} :
    name ∈ b.takenNames ↔ name ∈ made.map Binding.name ++ labels ∨ name ∈ a.takenNames := by
  unfold takenNames
  rw [h.bindings, List.map_append]
  simp only [List.mem_append, h.reserved.mem_iff]
  tauto

theorem trans (hab : a.Coins b made labels) (hbc : b.Coins c made' labels') :
    a.Coins c (made ++ made') (labels ++ labels') where
  bindings := by rw [hbc.bindings, hab.bindings, List.append_assoc]
  reserved := by
    apply (hbc.reserved.trans (hab.reserved.append_left _)).trans
    rw [List.map_append]
    apply Multiset.coe_eq_coe.mp
    simp only [← Multiset.coe_add]
    abel
  synthetic binding hbinding := by
    rcases List.mem_append.mp hbinding with hbinding | hbinding
    · exact hab.synthetic binding hbinding
    · exact hbc.synthetic binding hbinding
  distinct := by
    have hparted : (made.map Binding.name ++ labels).Disjoint (made'.map Binding.name ++ labels') :=
      fun name hearlier hlater =>
        hbc.fresh name hlater (hab.mem_takenNames_iff.mpr (.inl hearlier))
    have hboth := List.nodup_append'.mpr ⟨hab.distinct, hbc.distinct, hparted⟩
    refine (List.Perm.nodup_iff ?_).mp hboth
    rw [List.map_append]
    apply Multiset.coe_eq_coe.mp
    simp only [← Multiset.coe_add]
    abel
  fresh name hname := by
    have hcases : name ∈ made.map Binding.name ++ labels ∨
        name ∈ made'.map Binding.name ++ labels' := by
      simp only [List.map_append, List.mem_append] at hname ⊢
      tauto
    rcases hcases with hname | hname
    · exact hab.fresh name hname
    · exact fun htaken => hbc.fresh name hname (hab.mem_takenNames_iff.mpr (.inr htaken))

theorem label {table : SymbolTable} {name : String} (h : name ∉ table.takenNames) :
    table.Coins (table.reserve [name]) [] [name] where
  bindings := (List.append_nil _).symm
  reserved := .refl _
  synthetic _ h := nomatch h
  distinct := List.nodup_singleton name
  fresh other hother := by
    cases List.mem_singleton.mp hother
    exact h

theorem binding {table : SymbolTable} {binding : Binding} (h : binding.name ∉ table.takenNames)
    (hsynthetic : binding.synthetic = true) :
    table.Coins ((table.reserve [binding.name]).pushBinding binding).2 [binding] [] where
  bindings := Array.toList_push
  reserved := .refl _
  synthetic other hother := by
    cases List.mem_singleton.mp hother
    exact hsynthetic
  distinct := List.nodup_singleton _
  fresh other hother := by
    cases List.mem_singleton.mp hother
    exact h

theorem mem_labels (h : a.Coins b made labels) {name : String} (hreserved : name ∈ b.reserved)
    (hnew : name ∉ a.takenNames) (hfree : ∀ binding ∈ b.bindings, binding.name ≠ name) :
    name ∈ labels := by
  have hcases := h.reserved.mem_iff.mp hreserved
  simp only [List.mem_append] at hcases
  rcases hcases with (hmade | hlabel) | hold
  · rcases List.mem_map.mp hmade with ⟨binding, hbinding, hname⟩
    have hmem : binding ∈ b.bindings.toList := by
      rw [h.bindings]
      exact List.mem_append_right _ hbinding
    exact absurd hname (hfree binding (Array.mem_toList_iff.mp hmem))
  · exact hlabel
  · exact absurd (List.mem_append_left _ hold) hnew

end Coins
end SymbolTable
end Desugar
