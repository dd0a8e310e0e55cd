import Lox.Main
import Lox.Tree.Text
import Lox.Proofs.Assigned
import Lox.Proofs.Increments
import Lox.Proofs.Written
import Lox.Proofs.Lexing.Reports
import Lox.Proofs.Parsing.Grouping
import Lox.Proofs.Derived
import Lox.Proofs.Returned
import Lox.Proofs.Halting
import Lox.Proofs.Positions
import Lox.Proofs.Stranded
import Lox.Proofs.Dialogues
import Lox.Proofs.Prompts
import Lox.Proofs.Confined
import Lox.Proofs.Lineages
import Lox.Proofs.Receivers
import Lox.Proofs.Equality
import Lox.Proofs.Negation
import Lox.Proofs.Iterated
import Lox.Proofs.Variables
import Lox.Proofs.Properties
import Lox.Proofs.Initializers
import Lox.Proofs.Decimals
import Lox.Proofs.Balanced
import Lox.Proofs.Printable
import Lox.Proofs.Arrays
import Lox.Proofs.Locality
