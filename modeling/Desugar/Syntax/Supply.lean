import Desugar.Syntax.Basic

/-!
# Fresh identities

A supply hands out consecutive identities.  It is exhausted when there is no
identity left to hand out after the next one.
-/

namespace Desugar

structure NodeSupply where
  next : UInt32
deriving DecidableEq, Inhabited

namespace NodeSupply

/-- The last identity; it is never handed out. -/
def last : UInt32 :=
  4294967295

def successor? (id : UInt32) : Option UInt32 :=
  if id = last then none else some (id + 1)

def after? (largest : NodeId) : Option NodeSupply :=
  (successor? largest.val).map NodeSupply.mk

def take? (supply : NodeSupply) : Option (NodeId × NodeSupply) :=
  (successor? supply.next).map (fun next => (⟨supply.next⟩, ⟨next⟩))

end NodeSupply
end Desugar
