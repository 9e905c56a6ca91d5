import Desugar.Proofs.Descent
import Desugar.Proofs.Faces

/-!
# Walks that find nothing to do

A transformer is idle at a node when its actions there give the node back.  A
walk over nodes at which the transformer is idle gives the tree back, and leaves
the state as it was but for the scopes in force.
-/

namespace Desugar

namespace PassM

variable {α β : Type}

/-- An action that, as long as the table is a given one, gives a result and
touches nothing but the scopes in force. -/
def Rests (env : PassEnv) (table : SymbolTable) (m : PassM α) (a : α) : Prop :=
  ∀ p : Pass, p.table = table → ∃ scopes, m.exec env p = (.ok a, { p with scopes := scopes })

namespace Rests

variable {env : PassEnv} {table : SymbolTable}

theorem pure (a : α) : Rests env table (pure a) a := by
  intro p _
  exists p.scopes

theorem pure_of_eq {a b : α} (h : a = b) : Rests env table (Pure.pure a) b := by
  rw [h]
  exact .pure b

theorem bind {m : PassM α} {f : α → PassM β} {a : α} {b : β} (h : Rests env table m a)
    (hf : Rests env table (f a) b) : Rests env table (m >>= f) b := by
  intro p hp
  rcases h p hp with ⟨scopes, hm⟩
  rcases hf { p with scopes := scopes } hp with ⟨scopes', hrest⟩
  exists scopes'
  rw [exec_bind_ok hm, hrest]

theorem map {m : PassM α} {a : α} (f : α → β) (h : Rests env table m a) :
    Rests env table (f <$> m) (f a) := by
  rw [map_eq_pure_bind]
  exact h.bind (.pure _)

theorem getTable : Rests env table getTable table := by
  rintro p rfl
  exists p.scopes

theorem typeOf (x : Expr) : Rests env table (typeOf x) table.exprTypes[x.id]? := by
  rintro p rfl
  exists p.scopes

theorem require {value : Option α} {a : α} (h : value = some a) (problem : Problem) :
    Rests env table (require value problem) a := by
  rw [h]
  exact .pure a

theorem mapM {f : α → PassM β} {g : α → β} {as : List α}
    (h : ∀ a ∈ as, Rests env table (f a) (g a)) : Rests env table (as.mapM f) (as.map g) := by
  induction as with
  | nil => exact .pure []
  | cons a rest ih =>
    rcases List.forall_mem_cons.mp h with ⟨ha, hrest⟩
    rw [List.mapM_cons]
    exact ha.bind ((ih hrest).bind (.pure _))

theorem mapM_self {f : α → PassM α} {as : List α} (h : ∀ a ∈ as, Rests env table (f a) a) :
    Rests env table (as.mapM f) as := by
  have hmap : Rests env table (as.mapM f) (as.map id) := .mapM h
  rw [List.map_id] at hmap
  exact hmap

theorem splice {replace : Stmt → PassM (Option (List Stmt))} {stmts : List Stmt}
    (h : ∀ s ∈ stmts, Rests env table (replace s) none) :
    Rests env table (Transformer.splice replace stmts) stmts := by
  induction stmts with
  | nil => exact .pure []
  | cons s rest ih =>
    rcases List.forall_mem_cons.mp h with ⟨hs, hrest⟩
    exact hs.bind ((ih hrest).bind (.pure _))

end Rests
end PassM

open PassM (Rests)

structure Transformer.Idle (t : Transformer) (env : PassEnv) (table : SymbolTable)
    (property : Node → Prop) : Prop where
  expr : ∀ e, property (.expr e) → Rests env table (t.expr e) e
  stmt : ∀ s, property (.stmt s) ∨ property (.header s) → Rests env table (t.stmt s) s
  decl : ∀ d topLevel, property (.decl d topLevel) → Rests env table (t.decl d) d
  list : ∀ owner stmts, (∀ s ∈ stmts, property (.stmt s)) →
    Rests env table (t.list owner stmts) stmts
  missingTag : ∀ id init clauses,
    property (.stmt (.switch id init none clauses)) ∨
      property (.header (.switch id init none clauses)) →
    Rests env table t.missingTag none

/-- What rests ensures its result, and leaves the state as it was but for the scopes in
force. -/
def PassM.Logic.rests (env : PassEnv) : PassM.Logic where
  reach p q := ∃ scopes, q = { p with scopes := scopes }
  ensures p m post := ∃ a scopes, m.exec env p = (.ok a, { p with scopes := scopes }) ∧
    post a { p with scopes := scopes }
  refl p := ⟨p.scopes, rfl⟩
  trans := by
    rintro p _ _ ⟨scopes, rfl⟩ ⟨scopes', rfl⟩
    exact ⟨scopes', rfl⟩
  pure h := ⟨_, _, rfl, h⟩
  bind := by
    rintro _ _ p m f mid post ⟨a, scopes, hm, hmid⟩ hf
    rcases hf a _ ⟨scopes, rfl⟩ hmid with ⟨b, scopes', hb, hpost⟩
    exact ⟨b, scopes', (exec_bind_ok hm).trans hb, hpost⟩
  within := by
    rintro _ p node m post hmono hm
    rcases hm { p with scopes := p.scopes.enter p.table node } ⟨_, rfl⟩ with ⟨a, scopes, ha, hpost⟩
    refine ⟨a, scopes.exit node, ?_, hmono a { p with scopes := scopes } _ ⟨_, rfl⟩ hpost⟩
    unfold PassM.within
    rw [exec_bind_ok (exec_enter node env p), exec_bind_ok ha]
    rfl

section

variable {t : Transformer} {env : PassEnv} {table : SymbolTable} {property : Node → Prop}

theorem Stmts.forall_stmt_of_nodes : ∀ {stmts : List Stmt}, (∀ n ∈ Stmts.nodes stmts, property n) →
    ∀ s ∈ stmts, property (.stmt s)
  | [], _ => fun _ hs => nomatch hs
  | s :: rest, h => by
      rcases List.forall_mem_cons.mp h with ⟨hs, hparts⟩
      intro s' hs'
      rcases List.mem_cons.mp hs' with rfl | hs'
      · exact hs
      · exact forall_stmt_of_nodes (List.forall_mem_append.mp hparts).2 s' hs'

theorem Parts.eq_of_chain {reach : Pass → Pass → Prop} {fs : List Form} {old new : Parts fs}
    {p q : Pass} (h : Parts.Chain reach (fun _ x x' _ _ => x' = x) fs old new p q) : new = old := by
  induction fs generalizing p with
  | nil => rfl
  | cons f fs ih =>
    rcases h with ⟨_, _, hx, hrest⟩
    exact Prod.ext hx (ih hrest)

theorem Transformer.Idle.rests_hook (h : t.Idle env table property) (f : Form) (x : f.Tree)
    (hx : f.Holds property x) : Rests env table (f.hook t x) x := by
  have hown := fun n hn => (f.mem_nodes_iff x n).mpr (.inl hn)
  cases f with
  | expr => exact h.expr x (hx _ (hown _ (.head _)))
  | stmt listed =>
    cases listed with
    | true => exact h.stmt x (.inl (hx _ (hown _ (.head _))))
    | false => exact h.stmt x (.inr (hx _ (hown _ (.head _))))
  | decl top => exact h.decl x top (hx _ (hown _ (.head _)))
  | list owner => exact h.list owner x (Stmts.forall_stmt_of_nodes hx)
  | missingTag listed id init clauses =>
    rcases hx with ⟨rfl, hx⟩
    apply h.missingTag id init clauses
    cases listed with
    | true => exact .inl hx
    | false => exact .inr hx
  | _ => exact .pure x

theorem Transformer.Idle.walks (h : t.Idle env table property) :
    t.Walks (.rests env) (fun f x p => p.table = table ∧ f.Holds property x)
      (fun _ x x' _ _ => x' = x) where
  pre_mono := by
    rintro f x p _ ⟨scopes, rfl⟩ hpre
    exact hpre
  earlier _ _ hx := hx
  later _ hx := hx
  parts hpre := hpre.2.parts.mono fun _ _ hy => ⟨hpre.1, hy⟩
  hook := by
    rintro f x p _ new hpre ⟨scopes, rfl⟩ hchain
    cases Parts.eq_of_chain hchain
    rw [f.make_parts]
    rcases h.rests_hook f x hpre.2 { p with scopes := scopes } hpre.1 with ⟨scopes', hexec⟩
    exact ⟨x, scopes', hexec, rfl⟩

theorem File.rests (h : t.Idle env table property) (file : File)
    (hfile : ∀ n ∈ file.nodes, property n) : Rests env table (file.transform t) file := by
  intro p hp
  rcases h.walks.ensures .file file ⟨hp, hfile⟩ with ⟨_, scopes, hexec, rfl⟩
  exact ⟨scopes, hexec⟩

end

end Desugar
