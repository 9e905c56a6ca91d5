import Desugar.Pass.Construct
import Desugar.Pass.Transformer

/-!
# Switch tags

An expression switch without a tag gets the constant tag true.
-/

namespace Desugar
namespace SwitchTag

open PassM

def transformer : Transformer where
  missingTag := do
    let tag ← newTrue
    countChange
    return some tag

end SwitchTag
end Desugar
