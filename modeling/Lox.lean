import Lox.Settings
import Lox.Ast.Reading
import Lox.Ast.Occurrence
import Lox.Text.Quoted
import Lox.Proofs.Grammar.Acceptance
import Lox.Proofs.Grammar.Flattening
import Lox.Proofs.Grammar.Isolation
import Lox.Proofs.Grammar.MissingSemicolon
import Lox.Proofs.Binding.Clean
import Lox.Proofs.Binding.Misuses
import Lox.Proofs.Dispatch.Initializers
import Lox.Proofs.Renaming.Invisible
import Lox.Proofs.Declaring.Capturing
import Lox.Proofs.Returning.Catching
import Lox.Proofs.Failing.Unwritten
import Lox.Proofs.Running.Distances
import Lox.Proofs.Running.Escapes
import Lox.Proofs.Running.Refusals
import Lox.Proofs.Running.Walking
import Lox.Proofs.Spelling.Interactive
import Lox.Proofs.Spelling.Offsets
import Lox.Proofs.Spelling.Pointing
import Lox.Proofs.Idle.Loops
import Lox.Proofs.Grammar.Damage
import Lox.Proofs.Grammar.Parentheses
import Lox.Proofs.Scanner.WritingOut
import Lox.Proofs.Scanner.Blanking
import Lox.Proofs.Wellformed.Contract
import Lox.Proofs.Rendering.Unambiguous
import Lox.Proofs.Scanner.Comments
import Lox.Proofs.Double.Displaying
import Lox.Proofs.Double.Plain
import Lox.Proofs.Grammar.Lenient.Ceilings
import Lox.Proofs.Links.Indexed
import Lox.Proofs.Links.WellFounded
import Lox.Proofs.Binding.Recording
