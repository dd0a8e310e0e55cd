import Lox.Bindings
import Lox.Tree

/-!
Values. Frames, fields and array elements change and live in the store; all else about a value is
fixed when it is made and is part of it. Numbers tell objects of one kind apart.
-/

namespace Lox

abbrev FrameId := Nat
abbrev Env := List FrameId

structure Routine where
  decl : FunDecl
  closure : Env
  isInitializer : Bool

structure Layer where
  id : Nat
  name : String
  methods : Bindings Routine

/-- A class is its own layer above those of its superclasses, nearest first. -/
structure Class where
  own : Layer
  bases : List Layer

inductive Accessor where
  | read
  | write
  deriving DecidableEq, Repr

inductive Value where
  | datum (d : Datum)
  | function (id : Nat) (name : String) (routine : Routine)
  | class_ (c : Class)
  | instance_ (id : Nat) (c : Class)
  | array (id : Nat)
  | accessor (id : Nat) (which : Accessor) (array : Nat)
  | clock
  | arrayMaker

namespace Value

@[match_pattern] abbrev nil : Value := .datum .nil
@[match_pattern] abbrev bool (b : Bool) : Value := .datum (.bool b)
@[match_pattern] abbrev int (i : Int) : Value := .datum (.int i)
@[match_pattern] abbrev text (s : String) : Value := .datum (.text s)

instance : Inhabited Value := ⟨.nil⟩

def typeName : Value → String
  | .datum d => d.typeName
  | .function .. => "LoxFunction"
  | .class_ _ => "LoxClass"
  | .instance_ .. => "LoxInstance"
  | .array _ => "LoxArray"
  | .accessor _ .read _ => "LoxArrayGet"
  | .accessor _ .write _ => "LoxArraySet"
  | .clock => "clock"
  | .arrayMaker => "LoxArrayFactory"

end Value

namespace Class

def layers (c : Class) : List Layer :=
  c.own :: c.bases

def findMethod? (c : Class) (name : String) : Option Routine :=
  c.layers.findSome? fun l => l.methods.get? name

def initializer : String := "init"

def arity (c : Class) : Nat :=
  match c.findMethod? initializer with
  | some r => r.decl.params.length
  | none => 0

def text (c : Class) : String :=
  "< ".intercalate (c.layers.map (·.name))

end Class

def instanceText : Option Class → String
  | none => "None instance"
  | some c => c.own.name ++ " instance"

namespace Value

def arity? : Value → Option Nat
  | .function _ _ r => some r.decl.params.length
  | .class_ c => some c.arity
  | .accessor _ .read _ => some 1
  | .accessor _ .write _ => some 2
  | .clock => some 0
  | .arrayMaker => some 1
  | _ => none

/-- The name a built-in function goes by; the maker of arrays has none. -/
def builtinName? : Value → Option String
  | .accessor _ .read _ => some "<native fn get of Array>"
  | .accessor _ .write _ => some "<native fn set of Array>"
  | .clock => some "<native fn clock>"
  | _ => none

end Value
end Lox
