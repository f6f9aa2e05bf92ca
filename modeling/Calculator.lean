import Calculator.Command
import Calculator.Evaluate
import Calculator.Grammar
import Calculator.Main
import Calculator.Proofs.Normalizing
import Calculator.Proofs.Literals
import Calculator.Proofs.Spelling
import Calculator.Proofs.Moves
import Calculator.Proofs.Nesting
import Calculator.Proofs.Composition
import Calculator.Proofs.Derivations
import Calculator.Proofs.Turns
import Calculator.Proofs.Faults
import Calculator.Proofs.Extension
import Calculator.Proofs.Trees
import Calculator.Proofs.Matching
import Calculator.Proofs.Sessions
import Calculator.Proofs.Blanks
import Calculator.Proofs.Arguments
import Calculator.Proofs.Commas
import Calculator.Proofs.Writing
import Calculator.Proofs.Scanning
import Calculator.Proofs.Signs
import Calculator.Proofs.Rounding
import Calculator.Proofs.Numerals
import Calculator.Proofs.Positions
import Calculator.Proofs.Groups
import Calculator.Proofs.Commands
import Calculator.Proofs.Doubles
import Calculator.Proofs.Nearest
import Calculator.Proofs.Packing
import Calculator.Proofs.Shortest
import Calculator.Proofs.Projection
import Calculator.Proofs.Reordering
