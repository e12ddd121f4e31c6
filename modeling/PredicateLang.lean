import PredicateLang.Main
import PredicateLang.Proofs.Eval.MemberFrame
import PredicateLang.Proofs.Eval.Stackless
import PredicateLang.Proofs.Grammar.Depth
import PredicateLang.Proofs.Grammar.ErrorPosition
import PredicateLang.Proofs.Grammar.Expectation
import PredicateLang.Proofs.Grammar.Rendering
import PredicateLang.Proofs.Token.Tiling
import PredicateLang.Proofs.Grammar.Layout
import PredicateLang.Proofs.Eval.FreeNames
import PredicateLang.Proofs.Eval.Resolution
import PredicateLang.Proofs.Grammar.Lookahead
import PredicateLang.Proofs.Eval.Nesting
import PredicateLang.Proofs.Eval.Origin
import PredicateLang.Proofs.Json.Navigation
import PredicateLang.Proofs.CommandLine.Session
import PredicateLang.Proofs.Eval.Interchange
import PredicateLang.Proofs.Eval.LogicalChain
import PredicateLang.Proofs.Eval.Arrival
import PredicateLang.Proofs.Eval.EnclosingBases
import PredicateLang.Proofs.Host.Priority
import PredicateLang.Proofs.Token.Facing
import PredicateLang.Proofs.Token.Quotation
import PredicateLang.Proofs.Token.Word
import PredicateLang.Proofs.Token.Number
import PredicateLang.Proofs.Token.Excerpt
import PredicateLang.Proofs.Token.Ending
import PredicateLang.Proofs.Grammar.Trail
import PredicateLang.Proofs.CommandLine.Override
import PredicateLang.Proofs.Eval.Remainder
import PredicateLang.Proofs.Text.ByteOrder
import PredicateLang.Proofs.Token.Position
import PredicateLang.Proofs.Value.Display
