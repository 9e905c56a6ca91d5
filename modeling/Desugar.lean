import Desugar.Build.Stmts
import Desugar.Json.Pointer
import Desugar.Main
import Desugar.Pipeline.Diagnostics
import Desugar.Proofs.NodeIdentity
import Desugar.Proofs.TableExtension
import Desugar.Proofs.Orders
import Desugar.Proofs.Traversals
import Desugar.Proofs.CoinedNames
import Desugar.Proofs.Conversions
import Desugar.Proofs.PromotedFields
import Desugar.Proofs.Hoisting
import Desugar.Proofs.PostSteps
import Desugar.Proofs.LoopMeaning
import Desugar.Proofs.Faults
import Desugar.Proofs.RewriteCounts
import Desugar.Proofs.SpelledTypes
import Desugar.Proofs.UniqueReading
import Desugar.Proofs.FreshCopies
import Desugar.Proofs.Interning
import Desugar.Proofs.Insertions
import Desugar.Proofs.Attempts
import Desugar.Proofs.FoundedTypes
import Desugar.Proofs.ScopeForest
import Desugar.Proofs.ScopeStacks
import Desugar.Proofs.NormalizedDocuments
import Desugar.Proofs.NormalizedFiles
