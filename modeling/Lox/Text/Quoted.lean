import Lox.Text.Printable

/-!
Quoted text: single quotes, unless the text holds one and no double quote; backslash escapes for the
quote, the backslash and everything that is not printable.
-/

namespace Lox.Text

def hexDigit (n : Nat) : Char :=
  if n < 10 then Char.ofNat (0x30 + n) else Char.ofNat (0x57 + n)

def hex : (width : Nat) → (n : Nat) → List Char
  | 0, _ => []
  | w + 1, n => hex w (n / 16) ++ [hexDigit (n % 16)]

def escapeCode (n : Nat) : List Char :=
  if n < 0x100 then '\\' :: 'x' :: hex 2 n
  else if n < 0x10000 then '\\' :: 'u' :: hex 4 n
  else '\\' :: 'U' :: hex 8 n

def escape (quote c : Char) : List Char :=
  if c == quote || c == '\\' then ['\\', c]
  else if c == '\n' then ['\\', 'n']
  else if c == '\r' then ['\\', 'r']
  else if c == '\t' then ['\\', 't']
  else if isPrintable c then [c]
  else escapeCode c.toNat

def quoteFor (cs : List Char) : Char :=
  if cs.contains '\'' && !cs.contains '"' then '"' else '\''

def quoteChars (cs : List Char) : List Char :=
  let q := quoteFor cs
  q :: (cs.flatMap (escape q) ++ [q])

def quote (s : String) : String :=
  String.ofList (quoteChars s.toList)

def bracketed (items : List String) : String :=
  "[" ++ ", ".intercalate items ++ "]"

end Lox.Text
