import Desugar.Proofs.ControlFlow
import Desugar.Proofs.Copies
import Desugar.Proofs.LoopRenewal
import Desugar.Proofs.Stages

/-!
# The text of a copy

A relabelled tree reads like the tree where the identities are bound alike.  A copy
is bound like the original, so it reads like it for good.
-/

namespace Desugar

open PassM (Obtains)

section

variable {R : NodeId → Possible NodeId}

theorem Stmt.blank_of_mapIds {s s' : Stmt} (h : s.mapIds R s') :
    s'.mapIds NodeId.blank = s.mapIds NodeId.blank :=
  (s.shaped true).map_const h _

theorem Stmt.kinds_of_mapIds {s s' : Stmt} (h : s.mapIds R s') :
    s'.isSimple = s.isSimple ∧ s'.startsWithInit = s.startsWithInit := by
  have hkinds : ∀ s : Stmt, (Id.run (s.mapIds NodeId.blank)).isSimple = s.isSimple ∧
      (Id.run (s.mapIds NodeId.blank)).startsWithInit = s.startsWithInit := by
    intro s
    cases s with
    | ifElse _ init _ _ _ | switch _ init _ _ | typeSwitch _ init _ _ | forLoop _ init _ _ _ =>
      cases init <;> exact ⟨rfl, rfl⟩
    | _ => exact ⟨rfl, rfl⟩
  rw [← (hkinds s).1, ← (hkinds s).2, ← Stmt.blank_of_mapIds h]
  exact ⟨(hkinds s').1.symm, (hkinds s').2.symm⟩

end

theorem Loop.yields_copy_reading {env : PassEnv} {p : Pass} (hdrawn : p.Drawn) {s : Stmt}
    (hids : ∀ id ∈ s.ids, id.Below p.ids.count) (hsimple : s.isSimple = true) :
    Obtains env p (copy s) (fun s' q => s'.isSimple = true ∧
      ∀ r, q.Grows r → s'.reading r.table = s.reading r.table) := by
  apply (yields_refreshed (Stmt.refreshes s)).mono
  intro s' q _ hcopy
  refine ⟨?_, ?_⟩
  · rw [(Stmt.kinds_of_mapIds (hcopy q (.refl q))).1, hsimple]
  · intro r hr
    have htext := Stmt.blank_of_mapIds (hcopy r hr)
    have hcopies : List.Forall₂ _ s.ids s'.ids := (s.shaped true).ids_of_map (hcopy r hr)
    have hbound : s'.ids.map r.table.bindingOf = s.ids.map r.table.bindingOf := by
      generalize s.ids = sources at hids hcopies
      generalize s'.ids = copies at hcopies
      induction hcopies with
      | nil => rfl
      | cons hid _ ih =>
        rcases List.forall_mem_cons.mp hids with ⟨hsource, hrest⟩
        have halike := (hid hdrawn).2 hsource
        rw [List.map_cons, List.map_cons, ih hrest, SymbolTable.bindingOf, SymbolTable.bindingOf,
          halike.defs, halike.uses]
    rw [Stmt.reading, Stmt.reading, hbound, htext]

end Desugar
