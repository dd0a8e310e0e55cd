import Lox.Value

/-!
The store: frames of variables, fields of instances, elements of arrays, and a counter for the
identities of other objects. A number that was never given out has an empty content.
-/

namespace Lox

/-- `memory` is the most cells or characters that are set aside at once. -/
structure Store where
  frames : Array (Bindings Value)
  fields : Array (Bindings Value)
  arrays : Array (Array Value)
  nextId : Nat
  memory : Nat := 0x80000000

namespace Store

def globals : FrameId := 0

def globalEnv : Env := [globals]

def initial (memory : Nat := 0x80000000) : Store where
  frames := #[[("clock", .clock), ("Array", .arrayMaker)]]
  fields := #[]
  arrays := #[]
  nextId := 0
  memory := memory

def frame (s : Store) (f : FrameId) : Bindings Value :=
  s.frames.getD f []

def define (s : Store) (f : FrameId) (name : String) (v : Value) : Store :=
  { s with frames := s.frames.modify f (·.put name v) }

def newFrame (s : Store) (b : Bindings Value) : FrameId × Store :=
  (s.frames.size, { s with frames := s.frames.push b })

def fieldsOf (s : Store) (id : Nat) : Bindings Value :=
  s.fields.getD id []

def setField (s : Store) (id : Nat) (name : String) (v : Value) : Store :=
  { s with fields := s.fields.modify id (·.put name v) }

def newInstance (s : Store) (c : Class) : Value × Store :=
  (.instance_ s.fields.size c, { s with fields := s.fields.push [] })

def elements (s : Store) (id : Nat) : Array Value :=
  s.arrays.getD id #[]

def setElement (s : Store) (id : Nat) (cell : Nat) (v : Value) : Store :=
  { s with arrays := s.arrays.modify id (·.setIfInBounds cell v) }

def newArray (s : Store) (elements : Array Value) : Value × Store :=
  (.array s.arrays.size, { s with arrays := s.arrays.push elements })

def freshId (s : Store) : Nat × Store :=
  (s.nextId, { s with nextId := s.nextId + 1 })

end Store
end Lox
