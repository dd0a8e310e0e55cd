import Lox.Resolution
import Lox.Store.Environment
import Lox.Value.Operators
import Lox.Value.Text

/-!
The machine that runs trees: the store, the current environment, the distances found by resolution,
and what was printed. It keeps its state when a run ends early.
-/

namespace Lox

structure Clock where
  reading : Nat → Float

namespace Clock

def still (x : Float) : Clock := ⟨fun _ => x⟩

instance : Coe Float Clock := ⟨still⟩

def ticked (c : Clock) : Clock := ⟨fun n => c.reading (n + 1)⟩

end Clock

structure Machine where
  store : Store
  env : Env := Store.globalEnv
  locals : Locals := []
  live : Bool := false
  printed : Array Value := #[]
  console : Array String := #[]
  now : Clock := .still 0.0

inductive Signal where
  | fault (f : Fault)
  | returned (v : Value)
  | outOfFuel

abbrev Eval := EStateM Signal Machine

namespace Eval

def fail {α : Type} (f : Fault) : Eval α :=
  throw (.fault f)

def lift {α : Type} (x : Except Fault α) : Eval α :=
  match x with
  | .ok a => pure a
  | .error f => fail f

def ask {α : Type} (f : Store → Except Fault α) : Eval α := do
  lift (f (← get).store)

def change {α : Type} (f : Store → α × Store) : Eval α :=
  modifyGet fun m =>
    let (a, s) := f m.store
    (a, { m with store := s })

def onStore {α : Type} (x : Stored α) : Eval α :=
  fun ⟨store, env, locals, live, printed, console, now⟩ =>
    match x store with
    | .ok a s => .ok a ⟨s, env, locals, live, printed, console, now⟩
    | .error f s => .error (.fault f) ⟨s, env, locals, live, printed, console, now⟩

def setEnv (env : Env) : Eval Unit :=
  modify fun m => { m with env := env }

def named (t : Option Token) : Eval Token :=
  lift (Lox.named t)

def lexeme (t : Option Token) : Eval String :=
  lift (Lox.lexeme t)

def opKind : Option Token → Eval Kind
  | some t => return t.kind
  | none => fail (.absent "type")

/-- A computed NaN is a new object. -/
def stamp : Datum → Eval Value
  | .float x n => do
    if x.isNaN then return .datum (.float x (← change Store.freshId))
    else return .datum (.float x n)
  | d => return .datum d

def emit (v : Value) : Eval Unit := do
  if (← get).live then
    let text ← ask fun s => v.shown s
    modify fun m => { m with console := m.console.push (text ++ "\n") }
  else modify fun m => { m with printed := m.printed.push v }

def readClock : Eval Float :=
  modifyGet fun m => (m.now.reading 0, { m with now := m.now.ticked })

def defineHere (name : String) (v : Value) : Eval Unit :=
  modify fun m => { m with store := m.store.defineIn m.env name v }

def within {α : Type} (env : Env) (x : Eval α) : Eval α := fun m =>
  match x { m with env := env } with
  | .ok a m' => .ok a { m' with env := m.env }
  | .error e m' => .error e { m' with env := m.env }

def returnedBy (x : Eval Unit) : Eval (Option Value) := fun m =>
  match x m with
  | .ok _ m' => .ok none m'
  | .error (.returned v) m' => .ok (some v) m'
  | .error e m' => .error e m'

/-- A name with an entry is read at its distance, any other among the globals. -/
def readVariable (node : Nat) (t : Option Token) : Eval Value := do
  match (← get).locals.distance? node with
  | some d =>
    let name ← lexeme t
    let env := (← get).env
    ask fun s => s.readAt env d name
  | none =>
    let name ← named t
    ask fun s => s.read Store.globalEnv name

/-- A name with an entry is bound at its distance, any other wherever it is found on the way out. -/
def writeVariable (node : Nat) (t : Option Token) (v : Value) : Eval Unit := do
  let env := (← get).env
  match (← get).locals.distance? node with
  | some d =>
    let f ← lift (Store.frameAt env d)
    let name ← lexeme t
    change fun s => ((), s.define f name v)
  | none => onStore (Store.assign env (← named t) v)

def binary (op : Option Token) (l r : Value) : Eval Value := do
  match ← opKind op with
  | .mark .plus => stamp (← ask fun s => l.arithmetic s.memory .add r)
  | .mark .minus => stamp (← ask fun s => l.arithmetic s.memory .sub r)
  | .mark .star => stamp (← ask fun s => l.arithmetic s.memory .mul r)
  | .sign .slash => stamp (← ask fun s => l.arithmetic s.memory .div r)
  | .sign .greater => return .bool (← lift (l.compare .greater r))
  | .sign .greaterEqual => return .bool (← lift (l.compare .greaterEqual r))
  | .sign .less => return .bool (← lift (l.compare .less r))
  | .sign .lessEqual => return .bool (← lift (l.compare .lessEqual r))
  | .sign .equalEqual => return .bool (← ask fun s => l.equal s r)
  | .sign .bangEqual => return .bool !(← ask fun s => l.equal s r)
  | _ => return .nil

def unary (op : Option Token) (v : Value) : Eval Value := do
  match ← opKind op with
  | .mark .minus => stamp (← lift v.negate)
  | .sign .bang => stamp (← lift v.complement)
  | _ => return .nil

def decides (op : Option Token) (left : Value) : Eval Bool := do
  match ← opKind op with
  | .keyword .or_ => lift left.truth
  | .keyword .and_ => return !(← lift left.truth)
  | _ => return false

def functionValue (r : Routine) : Eval Value := do
  let name ← lexeme r.decl.name
  return .function (← change Store.freshId) name r

def bindRoutine (r : Routine) (this : Value) : Eval Routine := do
  let env ← change fun s => s.enter r.closure [("this", this)]
  return { r with closure := env }

def bind (r : Routine) (this : Value) : Eval Value := do
  functionValue (← bindRoutine r this)

def property (this : Value) (id : Nat) (c : Class) (name : Token) : Eval Value := do
  match ((← get).store.fieldsOf id).get? name.lexeme with
  | some v => return v
  | none =>
    match c.findMethod? name.lexeme with
    | some r => bind r this
    | none => fail (.undefinedProperty name)

def getProperty (object : Value) (t : Option Token) : Eval Value := do
  match object with
  | .instance_ id c => property object id c (← named t)
  | .array id => onStore (Store.arrayMember id (← named t))
  | _ => fail (.noProperties t)

def checkSettable (object : Value) (t : Option Token) : Eval Unit :=
  match object with
  | .instance_ .. => return
  | .array _ => return
  | _ => fail (.noFields t)

def setProperty (object : Value) (t : Option Token) (v : Value) : Eval Unit := do
  match object with
  | .instance_ id _ =>
    let name ← lexeme t
    change fun s => ((), s.setField id name v)
  | .array _ => fail (.arrayField t)
  | _ => fail (.noFields t)

def superMethod (node : Nat) (t : Option Token) : Eval Value := do
  let env := (← get).env
  match (← get).locals.distance? node with
  | none => fail .noSuperEntry
  | some d =>
    let base ← ask fun s => s.readAt env d "super"
    let this ← ask fun s => s.readAt env ((d : Int) - 1) "this"
    match base with
    | .class_ c =>
      let name ← named t
      match c.findMethod? name.lexeme with
      | some r => bind r this
      | none => fail (.undefinedMember name)
    | v => fail (.noMember v.typeName "findMethod")

def bindParameters :
    List (Option Token) → List Value → Bindings Value → Except Fault (Bindings Value)
  | [], _, b => .ok b
  | p :: ps, args, b => do
    let name ← Lox.lexeme p
    match args with
    | [] => .error .outOfRange
    | v :: rest => bindParameters ps rest (b.put name v)

/-- The methods of a class body; a later one of the same name replaces an earlier one. Only one
named `this` counts as an initializer. -/
def methodTable (env : Env) : List FunDecl → Bindings Routine → Except Fault (Bindings Routine)
  | [], b => .ok b
  | f :: fs, b => do
    let name ← Lox.lexeme f.name
    methodTable env fs (b.put name ⟨f, env, name == "this"⟩)

def classValue (name : String) (methods : Bindings Routine) (base : Option Class) : Eval Value := do
  let own : Layer := ⟨← change Store.freshId, name, methods⟩
  return .class_ ⟨own, (base.map Class.layers).getD []⟩

/-- The name is bound first, so that methods can refer to it. With a superclass the methods close
over a frame that binds `super`; a fault among the methods leaves that frame the innermost one. -/
def declareClass (t : Option Token) (methods : List FunDecl) (base : Option Class) :
    Eval Unit := do
  let name ← named t
  defineHere name.lexeme .nil
  let outer := (← get).env
  match base with
  | some c => setEnv (← change fun s => s.enter outer [("super", .class_ c)])
  | none => pure ()
  let table ← lift (methodTable (← get).env methods [])
  let v ← classValue name.lexeme table base
  setEnv outer
  onStore (Store.assign outer name v)

end Eval
end Lox
