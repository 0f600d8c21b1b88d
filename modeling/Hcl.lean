import Hcl.Main
import Hcl.Proofs.Builder.Brackets
import Hcl.Proofs.Builder.Dangling
import Hcl.Proofs.Builder.Limit
import Hcl.Proofs.Builder.Rounds
import Hcl.Proofs.Builder.Splat
import Hcl.Proofs.Json.Values
import Hcl.Proofs.Lexer.Balanced
import Hcl.Proofs.Lexer.Calls
import Hcl.Proofs.Lexer.Deliveries
import Hcl.Proofs.Lexer.HeredocText
import Hcl.Proofs.Lexer.History
import Hcl.Proofs.Lexer.Kept
import Hcl.Proofs.Lexer.Respaced
import Hcl.Proofs.Lexer.Returns
import Hcl.Proofs.Reduction.Attributes
import Hcl.Proofs.Reduction.Depth
import Hcl.Proofs.Reduction.Keys
import Hcl.Proofs.Reduction.Places
import Hcl.Proofs.Reduction.Safe
import Hcl.Proofs.Reduction.Scope
import Hcl.Proofs.SymbolTree.Walk
