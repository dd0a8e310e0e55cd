import Lox.Evaluation.Machine

/-!
Running trees. Every function takes a bound on the depth of its calls and says so when it is used
up. No program ends for want of stack: calls and trees may nest to any depth, and the bound is only
what a run is given.
-/

namespace Lox.Eval

def inOrder (run : Stmt → Eval Unit) : List Stmt → Eval Unit
  | [] => return
  | s :: ss => do
    run s
    inOrder run ss

mutual

def evaluate : (fuel : Nat) → Expr → Eval Value
  | 0, _ => throw .outOfFuel
  | n + 1, e => do
    match e with
    | .missing => fail (.absent "accept")
    | .literal d => return .datum d
    | .reference node name => readVariable node name
    | .this node keyword => readVariable node keyword
    | .assign node name value =>
      let v ← evaluate n value
      writeVariable node name v
      return v
    | .super node _ method => superMethod node method
    | .unary op right =>
      let v ← evaluate n right
      unary op v
    | .binary left op right =>
      let l ← evaluate n left
      let r ← evaluate n right
      binary op l r
    | .logical left op right =>
      let l ← evaluate n left
      if ← decides op l then return l else evaluate n right
    | .grouping inner => evaluate n inner
    | .call callee paren args =>
      let f ← evaluate n callee
      let vs ← evaluateAll n args
      match f.arity? with
      | none => fail (.noMember f.typeName "arity")
      | some k => if vs.length = k then call n f vs else fail (.arity paren k vs.length)
    | .get object name =>
      let o ← evaluate n object
      getProperty o name
    | .set object name value =>
      let o ← evaluate n object
      checkSettable o name
      let v ← evaluate n value
      setProperty o name v
      return v

def evaluateAll : (fuel : Nat) → List Expr → Eval (List Value)
  | 0, _ => throw .outOfFuel
  | _ + 1, [] => return []
  | n + 1, e :: es => do
    let v ← evaluate n e
    return v :: (← evaluateAll n es)

def call : (fuel : Nat) → Value → List Value → Eval Value
  | 0, _, _ => throw .outOfFuel
  | n + 1, f, args => do
    match f, args with
    | .function _ _ r, args => callRoutine n r args
    | .class_ c, args =>
      let this ← change fun s => s.newInstance c
      match c.findMethod? Class.initializer with
      | some r => let _ ← callRoutine n (← bindRoutine r this) args
      | none => pure ()
      return this
    | .accessor _ .read id, index :: _ => ask fun s => s.readCell id index
    | .accessor _ .write id, index :: v :: _ =>
      onStore (Store.writeCell id index v)
      return v
    | .clock, _ => stamp (.double (← readClock))
    | .arrayMaker, size :: _ => onStore (Store.makeArray size)
    | v, _ => fail (.noMember v.typeName "call")

/-- Runs a body in a new frame inside the routine's own environment. An initializer that returns
gives back its instance. -/
def callRoutine : (fuel : Nat) → Routine → List Value → Eval Value
  | 0, _, _ => throw .outOfFuel
  | n + 1, r, args => do
    let b ← lift (bindParameters r.decl.params args [])
    let env ← change fun s => s.enter r.closure b
    match ← returnedBy (within env (executeAll n r.decl.body)) with
    | none => return .nil
    | some v => if r.isInitializer then ask fun s => s.readAt r.closure 0 "this" else return v

def execute : (fuel : Nat) → Stmt → Eval Unit
  | 0, _ => throw .outOfFuel
  | n + 1, s => do
    match s with
    | .missing => fail (.absent "accept")
    | .expression e => let _ ← evaluate n e
    | .print e => emit (← evaluate n e)
    | .var name init =>
      let v ← if init.isMissing then pure .nil else evaluate n init
      defineHere (← lexeme name) v
    | .block body =>
      let env := (← get).env
      let env ← change fun s => s.enter env []
      within env (executeAll n body)
    | .if_ cond yes no =>
      if ← lift (← evaluate n cond).truth then execute n yes
      else if !no.isMissing then execute n no
    | .while_ cond body => loop n cond body
    | .function f =>
      let v ← functionValue ⟨f, (← get).env, false⟩
      defineHere (← lexeme f.name) v
    | .return_ _ value =>
      let v ← if value.isMissing then pure .nil else evaluate n value
      throw (.returned v)
    | .class_ name methods base =>
      let base ← if base.isMissing then pure none else some <$> superclass n base
      declareClass name methods base

def executeAll : (fuel : Nat) → List Stmt → Eval Unit
  | 0, _ => throw .outOfFuel
  | n + 1, ss => inOrder (execute n) ss

def loop : (fuel : Nat) → Expr → Stmt → Eval Unit
  | 0, _, _ => throw .outOfFuel
  | n + 1, cond, body => do
    if ← lift (← evaluate n cond).truth then
      execute n body
      loop n cond body

def superclass : (fuel : Nat) → Expr → Eval Class
  | 0, _ => throw .outOfFuel
  | n + 1, e => do
    match ← evaluate n e with
    | .class_ c => return c
    | _ => fail .superclassNotClass

end

def tree (fuel : Nat) : Tree → Eval Value
  | .program body => do
    executeAll fuel body
    return .nil
  | .expression e => evaluate fuel e

end Lox.Eval
