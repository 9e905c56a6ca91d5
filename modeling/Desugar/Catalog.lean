import Desugar.Access.Dereference
import Desugar.Assignment.Discard
import Desugar.Assignment.Parallel
import Desugar.Control.Loop
import Desugar.Control.Tag
import Desugar.Declaration.Short
import Desugar.Declaration.Zero
import Desugar.Pass.Rule

/-!
# The rules

The ten rules that together bring a file into normal form, in an order that
respects their prerequisites.
-/

namespace Desugar
namespace Rule

def explicitDeref : Rule where
  name := "explicit-deref"
  description :=
    "Wraps pointer operands of array indexing, slicing and field selection in an explicit dereference"
  establishes := [.explicitDeref]
  apply := Dereference.transformer.run

def switchTag : Rule where
  name := "switch-tag"
  description := "Adds the constant tag `true` to tag-less expression switches"
  establishes := [.taggedSwitch]
  apply := SwitchTag.transformer.run

def hoistInit : Rule where
  name := "hoist-init"
  description := "Moves if/switch initializers into a new block enclosing the control statement"
  fixpoint := true
  establishes := [.noControlInit]
  apply := Initializer.transformer.run

def forLoop : Rule where
  name := "for-loop"
  description :=
    "Rewrites three-clause loops as condition-only loops, keeping the post step on every continue"
  requires := ["hoist-init"]
  establishes := [.noThreeClauseLoop]
  apply := Loop.transformer.run

def splitDecl : Rule where
  name := "split-decl"
  description := "Splits multi-name and grouped var declarations into single-name declarations"
  establishes := [.singleNameDecl]
  apply := Split.run

def explicitType : Rule where
  name := "explicit-type"
  description := "Adds the resolved type to var declarations that omit it"
  requires := ["split-decl"]
  establishes := [.typedDecl]
  apply := Annotations.transformer.run

def zeroValue : Rule where
  name := "zero-value"
  description := "Adds an explicit zero-value initializer to var declarations without one"
  requires := ["explicit-type"]
  establishes := [.initializedDecl]
  apply := Zero.transformer.run

def shortDecl : Rule where
  name := "short-decl"
  description := "Replaces := with typed var declarations and a plain assignment"
  requires := ["hoist-init", "for-loop", "zero-value"]
  establishes := [.noShortDecl]
  apply := Short.transformer.run

def parallelAssign : Rule where
  name := "parallel-assign"
  description :=
    "Splits multi-target assignments into single assignments, through temporaries when needed"
  requires := ["short-decl", "for-loop"]
  establishes := [.singleTargetAssign]
  apply := Parallel.transformer.run

def explicitDiscard : Rule where
  name := "explicit-discard"
  description := "Assigns the results of value-producing expression statements to blanks"
  establishes := [.explicitDiscard]
  apply := Discard.transformer.run

/-- Every rule, in the order in which they run by default. -/
def catalog : List Rule :=
  [explicitDeref, switchTag, hoistInit, forLoop, splitDecl, explicitType, zeroValue, shortDecl,
    parallelAssign, explicitDiscard]

end Rule
end Desugar
