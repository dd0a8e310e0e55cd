import Lox.Datum

/-!
Tokens: kinds with their names, reserved words, and the text of a token.
-/

namespace Lox

inductive Keyword where
  | and_ | class_ | else_ | false_ | for_ | fun_ | if_ | none_ | or_ | print_ | return_ | super_
  | this_ | true_ | var_ | while_
  deriving DecidableEq, Repr

namespace Keyword

def all : List Keyword :=
  [.and_, .class_, .else_, .false_, .for_, .fun_, .if_, .none_, .or_, .print_, .return_, .super_,
   .this_, .true_, .var_, .while_]

def word : Keyword → String
  | .and_ => "and"
  | .class_ => "class"
  | .else_ => "else"
  | .false_ => "false"
  | .for_ => "for"
  | .fun_ => "fun"
  | .if_ => "if"
  | .none_ => "None"
  | .or_ => "or"
  | .print_ => "print"
  | .return_ => "return"
  | .super_ => "super"
  | .this_ => "this"
  | .true_ => "true"
  | .var_ => "var"
  | .while_ => "while"

def name : Keyword → String
  | .and_ => "AND"
  | .class_ => "CLASS"
  | .else_ => "ELSE"
  | .false_ => "FALSE"
  | .for_ => "FOR"
  | .fun_ => "FUN"
  | .if_ => "IF"
  | .none_ => "NONE"
  | .or_ => "OR"
  | .print_ => "PRINT"
  | .return_ => "RETURN"
  | .super_ => "SUPER"
  | .this_ => "THIS"
  | .true_ => "TRUE"
  | .var_ => "VAR"
  | .while_ => "WHILE"

def ofWord? (s : String) : Option Keyword :=
  all.find? fun k => k.word == s

end Keyword

inductive Mark where
  | leftParen | rightParen | leftBrace | rightBrace | comma | dot | minus | plus | semicolon | star
  deriving DecidableEq, Repr

namespace Mark

def all : List Mark :=
  [.leftParen, .rightParen, .leftBrace, .rightBrace, .comma, .dot, .minus, .plus, .semicolon, .star]

def char : Mark → Char
  | .leftParen => '('
  | .rightParen => ')'
  | .leftBrace => '\x7b'
  | .rightBrace => '\x7d'
  | .comma => ','
  | .dot => '.'
  | .minus => '-'
  | .plus => '+'
  | .semicolon => ';'
  | .star => '*'

def name : Mark → String
  | .leftParen => "LEFT_PAREN"
  | .rightParen => "RIGHT_PAREN"
  | .leftBrace => "LEFT_BRACE"
  | .rightBrace => "RIGHT_BRACE"
  | .comma => "COMMA"
  | .dot => "DOT"
  | .minus => "MINUS"
  | .plus => "PLUS"
  | .semicolon => "SEMICOLON"
  | .star => "STAR"

def ofChar? (c : Char) : Option Mark :=
  all.find? fun m => m.char == c

end Mark

inductive Sign where
  | equal | bang | greater | less | slash | equalEqual | bangEqual | greaterEqual | lessEqual
  deriving DecidableEq, Repr

namespace Sign

def all : List Sign :=
  [.equal, .bang, .greater, .less, .slash, .equalEqual, .bangEqual, .greaterEqual, .lessEqual]

def lexeme : Sign → List Char
  | .equal => ['=']
  | .bang => ['!']
  | .greater => ['>']
  | .less => ['<']
  | .slash => ['/']
  | .equalEqual => ['=', '=']
  | .bangEqual => ['!', '=']
  | .greaterEqual => ['>', '=']
  | .lessEqual => ['<', '=']

def name : Sign → String
  | .equal => "EQUAL"
  | .bang => "BANG"
  | .greater => "GREATER"
  | .less => "LESS"
  | .slash => "SLASH"
  | .equalEqual => "EQUAL_EQUAL"
  | .bangEqual => "BANG_EQUAL"
  | .greaterEqual => "GREATER_EQUAL"
  | .lessEqual => "LESS_EQUAL"

def ofChar? : Char → Option Sign
  | '=' => some .equal
  | '!' => some .bang
  | '>' => some .greater
  | '<' => some .less
  | '/' => some .slash
  | _ => none

def join? : Sign → Sign → Option Sign
  | .equal, .equal => some .equalEqual
  | .bang, .equal => some .bangEqual
  | .greater, .equal => some .greaterEqual
  | .less, .equal => some .lessEqual
  | _, _ => none

end Sign

/-- The kind `nothing` is written `None`. No scanned token has it: the reserved word gets a kind in
capitals like the others. -/
inductive Kind where
  | mark (m : Mark)
  | sign (s : Sign)
  | keyword (k : Keyword)
  | identifier
  | string
  | number
  | eof
  | nothing
  | other (name : String)
  deriving DecidableEq, Repr

namespace Kind

def name : Kind → String
  | .mark m => m.name
  | .sign s => s.name
  | .keyword k => k.name
  | .identifier => "IDENTIFIER"
  | .string => "STRING"
  | .number => "NUMBER"
  | .eof => "EOF"
  | .nothing => "None"
  | .other n => n

def named : List Kind :=
  Mark.all.map .mark ++ Sign.all.map .sign ++ Keyword.all.map .keyword ++
    [.identifier, .string, .number, .eof, .nothing]

def ofName (n : String) : Kind :=
  (named.find? fun k => k.name == n).getD (.other n)

end Kind

inductive LineTag where
  | text (s : String)
  | number (i : Int)
  deriving DecidableEq, Repr

def LineTag.render : LineTag → String
  | .text s => s
  | .number i => toString i

structure Token where
  kind : Kind
  lexeme : String
  literal : Datum := .nil
  line : LineTag := .text ""
  deriving DecidableEq

namespace Token

def eof : Token := ⟨.eof, "", .nil, .text ""⟩

def mark (m : Mark) : Token := ⟨.mark m, String.ofList [m.char], .nil, .text ""⟩

def sign (s : Sign) : Token := ⟨.sign s, String.ofList s.lexeme, .nil, .text ""⟩

def word (cs : List Char) : Token :=
  let lexeme := String.ofList cs
  let kind := match Keyword.ofWord? lexeme with
    | some k => Kind.keyword k
    | none => .identifier
  ⟨kind, lexeme, .nil, .text ""⟩

def identifier (lexeme : String) : Token := ⟨.identifier, lexeme, .nil, .text ""⟩

def render (t : Token) : String :=
  if t.kind = .identifier && (Keyword.ofWord? t.lexeme).isSome then
    t.kind.name ++ " " ++ t.lexeme ++ " None"
  else if t.kind = .string then
    t.kind.name ++ " \"" ++ t.lexeme ++ "\" " ++ t.lexeme
  else t.kind.name ++ " " ++ t.lexeme ++ " " ++ t.literal.render

def renderOption : Option Token → String
  | none => "None"
  | some t => t.render

end Token
end Lox
