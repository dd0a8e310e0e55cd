import Lox.Store
import Lox.Fault

/-!
Variables in a chain of frames: by name, the innermost frame that has it counts; by distance, that
many frames are passed over first.
-/

namespace Lox

abbrev Stored := EStateM Fault Store

namespace Store

def enter (s : Store) (env : Env) (b : Bindings Value) : Env × Store :=
  let (f, s) := s.newFrame b
  (f :: env, s)

def holder? (s : Store) (env : Env) (name : String) : Option FrameId :=
  env.find? fun f => (s.frame f).has name

def lookup? (s : Store) (env : Env) (name : String) : Option Value :=
  env.findSome? fun f => (s.frame f).get? name

def read (s : Store) (env : Env) (name : Token) : Except Fault Value :=
  match s.lookup? env name.lexeme with
  | some v => .ok v
  | none => .error (.undefinedVariable name)

def assign (env : Env) (name : Token) (v : Value) : Stored Unit := fun s =>
  match s.holder? env name.lexeme with
  | some f => .ok () (s.define f name.lexeme v)
  | none => .error (.undefinedVariable name) s

def goOut : Env → (steps : Nat) → Except Fault FrameId
  | [], _ => .error .noEnclosing
  | f :: _, 0 => .ok f
  | _ :: outer, n + 1 => goOut outer n

/-- The frame a number of steps further out; a negative number takes no step. -/
def frameAt (env : Env) (distance : Int) : Except Fault FrameId :=
  goOut env distance.toNat

theorem goOutEq (env : Env) (n : Nat) : goOut env n = match env[n]? with
    | some f => .ok f
    | none => .error .noEnclosing := by
  induction env generalizing n with
  | nil => rfl
  | cons f outer ih =>
    cases n with
    | zero => rfl
    | succ n =>
      rw [goOut, ih, List.getElem?_cons_succ]

theorem frameAtEq (env : Env) (distance : Int) :
    frameAt env distance = match env[distance.toNat]? with
      | some f => .ok f
      | none => .error .noEnclosing := goOutEq env distance.toNat

def readAt (s : Store) (env : Env) (distance : Int) (name : String) : Except Fault Value := do
  match (s.frame (← frameAt env distance)).get? name with
  | some v => .ok v
  | none => .error (.noKey name)

def assignAt (env : Env) (distance : Int) (name : String) (v : Value) : Stored Unit := fun s =>
  match frameAt env distance with
  | .ok f => .ok () (s.define f name v)
  | .error e => .error e s

def defineIn (s : Store) (env : Env) (name : String) (v : Value) : Store :=
  match env with
  | [] => s
  | f :: _ => s.define f name v

end Store
end Lox
