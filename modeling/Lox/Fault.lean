import Lox.Token
import Lox.Text.Quoted
import Lox.Number.Reading

/-!
Faults: why a step of the scanner, the parser, the resolver or a program cannot go on, and the text
each of them shows.
-/

namespace Lox

inductive Arithmetic where
  | add | sub | mul | div
  deriving DecidableEq, Repr

def Arithmetic.symbol : Arithmetic → String
  | .add => "+"
  | .sub => "-"
  | .mul => "*"
  | .div => "/"

inductive Comparison where
  | less | lessEqual | greater | greaterEqual
  deriving DecidableEq, Repr

def Comparison.symbol : Comparison → String
  | .less => "<"
  | .lessEqual => "<="
  | .greater => ">"
  | .greaterEqual => ">="

/-- `owner`, `left`, `right` and `type` are type names; a token may be missing where the parser
found none. -/
inductive Fault where
  | noMember (owner member : String)
  | notIterable
  | outOfRange
  | outOfRangeWrite
  | indexTooWide
  | noKey (name : String)
  | noSuperEntry
  | noEnclosing
  | undefinedVariable (name : Token)
  | undefinedProperty (name : Token)
  | undefinedMember (name : Token)
  | noProperties (name : Option Token)
  | noFields (name : Option Token)
  | arrayField (name : Option Token)
  | arity (paren : Option Token) (expected given : Nat)
  | superclassNotClass
  | operands (op : Arithmetic) (left right : String)
  | concatenation (right : String)
  | repetition (type : String)
  | comparison (op : Comparison) (left right : String)
  | negation (type : String)
  | notInteger (type : String)
  | integerText (text : String)
  | integerTextLong (digits : Nat)
  | integerLong
  | integerOfNaN
  | integerOfInfinity
  | doubleText (text : String)
  | doubleOverflow
  | quotientOverflow
  | countTooWide
  | repetitionTooLong
  | outOfMemory
  | divisionByZero
  | doubleDivisionByZero
  | splitCapital
  | recursion
  deriving DecidableEq

namespace Fault

abbrev absent (member : String) : Fault := .noMember "NoneType" member

def about (t : Option Token) (message : String) : String :=
  "(" ++ Token.renderOption t ++ ", " ++ Text.quote message ++ ")"

def digitLimitText : String :=
  "Exceeds the limit (" ++ toString Number.digitLimit ++ " digits) for integer string conversion"

def digitLimitAdvice : String :=
  "; use sys.set_int_max_str_digits() to increase the limit"

def message : Fault → String
  | .noMember owner member => "'" ++ owner ++ "' object has no attribute '" ++ member ++ "'"
  | .notIterable => "'NoneType' object is not iterable"
  | .outOfRange => "list index out of range"
  | .outOfRangeWrite => "list assignment index out of range"
  | .indexTooWide => "cannot fit 'int' into an index-sized integer"
  | .noKey name => Text.quote name
  | .noSuperEntry => "<Plox.Expr.Super object at 0x>"
  | .noEnclosing =>
    "<Plox.Environment.Environment object at 0x> has no enclosing environment, " ++
      "the resolver must have made a mistake"
  | .undefinedVariable t => about t ("Undefined variable ' " ++ t.lexeme ++ " '.")
  | .undefinedProperty t => about t ("Undefined Property '" ++ t.lexeme ++ "'")
  | .undefinedMember t => about t ("Undefined property '" ++ t.lexeme ++ "'.")
  | .noProperties t => about t "Only intances have properties."
  | .noFields t => about t "Only intances have fields."
  | .arrayField t => about t "Can't add properties to arrays."
  | .arity paren expected given =>
    about paren ("Expected \t\t\t\t\t" ++ toString expected ++ " arguments but got \t\t\t\t\t" ++
      toString given ++ " .")
  | .superclassNotClass => "SuperClass must be a class"
  | .operands op l r =>
    "unsupported operand type(s) for " ++ op.symbol ++ ": '" ++ l ++ "' and '" ++ r ++ "'"
  | .concatenation r => "can only concatenate str (not \"" ++ r ++ "\") to str"
  | .repetition t => "can't multiply sequence by non-int of type '" ++ t ++ "'"
  | .comparison op l r =>
    "'" ++ op.symbol ++ "' not supported between instances of '" ++ l ++ "' and '" ++ r ++ "'"
  | .negation t => "bad operand type for unary -: '" ++ t ++ "'"
  | .notInteger t =>
    "int() argument must be a string, a bytes-like object or a real number, not '" ++ t ++ "'"
  | .integerText s =>
    "invalid literal for int() with base 10: " ++ String.ofList ((Text.quote s).toList.take 200)
  | .integerTextLong n =>
    digitLimitText ++ ": value has " ++ toString n ++ " digits" ++ digitLimitAdvice
  | .integerLong => digitLimitText ++ digitLimitAdvice
  | .integerOfNaN => "cannot convert float NaN to integer"
  | .integerOfInfinity => "cannot convert float infinity to integer"
  | .doubleText s => "could not convert string to float: " ++ Text.quote s
  | .doubleOverflow => "int too large to convert to float"
  | .quotientOverflow => "integer division result too large for a float"
  | .countTooWide => "cannot fit 'int' into an index-sized integer"
  | .repetitionTooLong => "repeated string is too long"
  | .outOfMemory => ""
  | .divisionByZero => "division by zero"
  | .doubleDivisionByZero => "float division by zero"
  | .splitCapital => "ord() expected a character, but string of length 2 found"
  | .recursion => "maximum recursion depth exceeded in comparison"

end Fault

inductive Stop where
  | fault (f : Fault)
  | errorLimit
  | outOfFuel
  deriving DecidableEq

def Stop.message : Stop → String
  | .fault f => f.message
  | .errorLimit => "parser error limit"
  | .outOfFuel => "step limit"

end Lox
