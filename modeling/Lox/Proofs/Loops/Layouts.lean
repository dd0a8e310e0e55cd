import Lox.Proofs.Trees
import Lox.Resolution
import Lox.Value

/-!
Two environments side by side. Some frames of one have no partner in the other; a layout tells this
of the innermost frames, and beyond it every frame has a partner. Two trees are twins when they say
the same and every distance in one leads to the partner of the frame it leads to in the other.
-/

namespace Lox

inductive Side where
  | both | left | right
  deriving DecidableEq

/-- The sides of the innermost frames; all frames further out stand on both. -/
abbrev Layout := List Side

namespace Layout

inductive Meets : Layout → Nat → Nat → Prop where
  | beyond (d : Nat) : Meets [] d d
  | here {π : Layout} : Meets (.both :: π) 0 0
  | both {π : Layout} {d e : Nat} (outer : Meets π d e) : Meets (.both :: π) (d + 1) (e + 1)
  | left {π : Layout} {d e : Nat} (outer : Meets π d e) : Meets (.left :: π) (d + 1) e
  | right {π : Layout} {d e : Nat} (outer : Meets π d e) : Meets (.right :: π) d (e + 1)

def Open : Layout → Prop
  | [] | .both :: _ => True
  | _ => False

def inClass (π : Layout) (base : Expr) : Layout :=
  if base.isMissing then π else .both :: π

theorem meetsSame {π : Layout} (same : ∀ side ∈ π, side = .both) (d : Nat) : π.Meets d d := by
  induction π generalizing d with
  | nil => exact .beyond d
  | cons side π ih =>
    cases same side List.mem_cons_self
    cases d with
    | zero => exact .here
    | succ d => exact .both (ih (fun other mem => same other (List.mem_cons_of_mem _ mem)) d)

theorem openSame {π : Layout} (same : ∀ side ∈ π, side = .both) : π.Open := by
  cases π with
  | nil => trivial
  | cons side π =>
    cases same side List.mem_cons_self
    trivial

theorem sameBoth {π : Layout} (same : ∀ side ∈ π, side = .both) :
    ∀ side ∈ Side.both :: π, side = .both :=
  List.forall_mem_cons.mpr ⟨rfl, same⟩

theorem sameInClass {π : Layout} (same : ∀ side ∈ π, side = .both) (base : Expr) :
    ∀ side ∈ π.inClass base, side = .both := by
  unfold inClass
  split
  · exact same
  · exact sameBoth same

end Layout

structure Tables where
  left : Locals
  right : Locals
  printed : Array Value

namespace Tables

variable (T : Tables) (π : Layout)

def Uses (a b : Nat) : Prop :=
  Option.Rel π.Meets (T.left.distance? a) (T.right.distance? b)

def UsesSuper (a b : Nat) : Prop :=
  Option.Rel (fun d e => π.Meets d e ∧ π.Meets (d - 1) (e - 1)) (T.left.distance? a)
    (T.right.distance? b)

end Tables

mutual

inductive Expr.Twin (T : Tables) (π : Layout) : Expr → Expr → Prop where
  | missing : Twin T π .missing .missing
  | literal (d : Datum) : Twin T π (.literal d) (.literal d)
  | reference {a b : Nat} (uses : T.Uses π a b) (name : Option Token) :
      Twin T π (.reference a name) (.reference b name)
  | assign {a b : Nat} {e e' : Expr} (uses : T.Uses π a b) (name : Option Token)
      (value : Twin T π e e') : Twin T π (.assign a name e) (.assign b name e')
  | this {a b : Nat} (uses : T.Uses π a b) (keyword : Option Token) :
      Twin T π (.this a keyword) (.this b keyword)
  | super {a b : Nat} (uses : T.UsesSuper π a b) (keyword method : Option Token) :
      Twin T π (.super a keyword method) (.super b keyword method)
  | unary {e e' : Expr} (op : Option Token) (right : Twin T π e e') :
      Twin T π (.unary op e) (.unary op e')
  | binary {l l' r r' : Expr} (op : Option Token) (left : Twin T π l l') (right : Twin T π r r') :
      Twin T π (.binary l op r) (.binary l' op r')
  | logical {l l' r r' : Expr} (op : Option Token) (left : Twin T π l l') (right : Twin T π r r') :
      Twin T π (.logical l op r) (.logical l' op r')
  | grouping {e e' : Expr} (inner : Twin T π e e') : Twin T π (.grouping e) (.grouping e')
  | call {e e' : Expr} {es es' : List Expr} (paren : Option Token) (callee : Twin T π e e')
      (args : Twins T π es es') : Twin T π (.call e paren es) (.call e' paren es')
  | get {e e' : Expr} (name : Option Token) (object : Twin T π e e') :
      Twin T π (.get e name) (.get e' name)
  | set {o o' v v' : Expr} (name : Option Token) (object : Twin T π o o') (value : Twin T π v v') :
      Twin T π (.set o name v) (.set o' name v')

inductive Expr.Twins (T : Tables) (π : Layout) : List Expr → List Expr → Prop where
  | nil : Twins T π [] []
  | cons {e e' : Expr} {es es' : List Expr} (first : Twin T π e e') (rest : Twins T π es es') :
      Twins T π (e :: es) (e' :: es')

end

mutual

inductive Stmt.Twin (T : Tables) : Layout → Stmt → Stmt → Prop where
  | missing {π : Layout} : Stmt.Twin T π .missing .missing
  | expression {π : Layout} {e e' : Expr} (inner : e.Twin T π e') :
      Stmt.Twin T π (.expression e) (.expression e')
  | print {π : Layout} {e e' : Expr} (inner : e.Twin T π e') : Stmt.Twin T π (.print e) (.print e')
  | var {π : Layout} {e e' : Expr} (isOpen : π.Open) (name : Option Token)
      (init : e.Twin T π e') : Stmt.Twin T π (.var name e) (.var name e')
  | block {π : Layout} {ss ss' : List Stmt} (body : Stmt.Twins T (.both :: π) ss ss') :
      Stmt.Twin T π (.block ss) (.block ss')
  | if_ {π : Layout} {e e' : Expr} {s s' t t' : Stmt} (cond : e.Twin T π e')
      (yes : Stmt.Twin T π s s') (no : Stmt.Twin T π t t') :
      Stmt.Twin T π (.if_ e s t) (.if_ e' s' t')
  | while_ {π : Layout} {e e' : Expr} {s s' : Stmt} (cond : e.Twin T π e')
      (body : Stmt.Twin T π s s') : Stmt.Twin T π (.while_ e s) (.while_ e' s')
  | function {π : Layout} {f f' : FunDecl} (isOpen : π.Open) (decl : FunDecl.Twin T π f f') :
      Stmt.Twin T π (.function f) (.function f')
  | return_ {π : Layout} {e e' : Expr} (keyword : Option Token) (value : e.Twin T π e') :
      Stmt.Twin T π (.return_ keyword e) (.return_ keyword e')
  | class_ {π : Layout} {fs fs' : List FunDecl} {e e' : Expr} (isOpen : π.Open)
      (name : Option Token) (methods : FunDecl.Twins T (.both :: π.inClass e) fs fs')
      (base : e.Twin T π e') : Stmt.Twin T π (.class_ name fs e) (.class_ name fs' e')

inductive Stmt.Twins (T : Tables) : Layout → List Stmt → List Stmt → Prop where
  | nil {π : Layout} : Stmt.Twins T π [] []
  | cons {π : Layout} {s s' : Stmt} {ss ss' : List Stmt} (first : Stmt.Twin T π s s')
      (rest : Stmt.Twins T π ss ss') : Stmt.Twins T π (s :: ss) (s' :: ss')

/- The layout is that of the environment where the function is closed; its body stands in the frame
of the call. -/
inductive FunDecl.Twin (T : Tables) : Layout → FunDecl → FunDecl → Prop where
  | mk {π : Layout} {ss ss' : List Stmt} (name : Option Token) (params : List (Option Token))
      (body : Stmt.Twins T (.both :: π) ss ss') :
      FunDecl.Twin T π (.mk name params ss) (.mk name params ss')

inductive FunDecl.Twins (T : Tables) : Layout → List FunDecl → List FunDecl → Prop where
  | nil {π : Layout} : FunDecl.Twins T π [] []
  | cons {π : Layout} {f f' : FunDecl} {fs fs' : List FunDecl} (first : FunDecl.Twin T π f f')
      (rest : FunDecl.Twins T π fs fs') : FunDecl.Twins T π (f :: fs) (f' :: fs')

end

variable {T : Tables} {π : Layout}

theorem Expr.Twin.missingSame {e e' : Expr} (h : e.Twin T π e') : e'.isMissing = e.isMissing := by
  cases h <;> rfl

theorem Stmt.Twin.missingSame {s s' : Stmt} (h : s.Twin T π s') : s'.isMissing = s.isMissing := by
  cases h <;> rfl

namespace FunDecl.Twin

variable {f f' : FunDecl}

theorem nameSame (h : f.Twin T π f') : f.name = f'.name := by
  cases h
  rfl

theorem paramsSame (h : f.Twin T π f') : f.params = f'.params := by
  cases h
  rfl

theorem bodies (h : f.Twin T π f') : Stmt.Twins T (.both :: π) f.body f'.body := by
  cases h with
  | mk name params body => exact body

end FunDecl.Twin

def Tables.Agree (T : Tables) (nodes : List Nat) : Prop :=
  ∀ node ∈ nodes, T.left.distance? node = T.right.distance? node

theorem Tables.agreeAppend {a b : List Nat} (h : T.Agree (a ++ b)) : T.Agree a ∧ T.Agree b :=
  List.forall_mem_append.mp h

theorem Tables.usesSame {node : Nat} (same : ∀ side ∈ π, side = .both) (h : T.Agree [node]) :
    T.Uses π node node := by
  unfold Tables.Uses
  rw [h node (by simp)]
  cases T.right.distance? node with
  | none => exact .none
  | some d => exact .some (Layout.meetsSame same d)

theorem Tables.usesSuperSame {node : Nat} (same : ∀ side ∈ π, side = .both) (h : T.Agree [node]) :
    T.UsesSuper π node node := by
  unfold Tables.UsesSuper
  rw [h node (by simp)]
  cases T.right.distance? node with
  | none => exact .none
  | some d => exact .some ⟨Layout.meetsSame same d, Layout.meetsSame same (d - 1)⟩

mutual

theorem Expr.twinSelf (e : Expr) (same : ∀ side ∈ π, side = .both) (h : T.Agree e.nodes) :
    e.Twin T π e := by
  cases e with
  | missing => exact .missing
  | literal d => exact .literal d
  | reference node name => exact .reference (Tables.usesSame same h) name
  | this node keyword => exact .this (Tables.usesSame same h) keyword
  | super node keyword method => exact .super (Tables.usesSuperSame same h) keyword method
  | assign node name value =>
    obtain ⟨inner, own⟩ := Tables.agreeAppend h
    exact .assign (Tables.usesSame same own) name (value.twinSelf same inner)
  | unary op right => exact .unary op (right.twinSelf same h)
  | binary left op right =>
    obtain ⟨l, r⟩ := Tables.agreeAppend h
    exact .binary op (left.twinSelf same l) (right.twinSelf same r)
  | logical left op right =>
    obtain ⟨l, r⟩ := Tables.agreeAppend h
    exact .logical op (left.twinSelf same l) (right.twinSelf same r)
  | grouping inner => exact .grouping (inner.twinSelf same h)
  | call callee paren args =>
    obtain ⟨l, r⟩ := Tables.agreeAppend h
    exact .call paren (callee.twinSelf same l) (Expr.twinsSelf args same r)
  | get object name => exact .get name (object.twinSelf same h)
  | set object name value =>
    obtain ⟨l, r⟩ := Tables.agreeAppend h
    exact .set name (object.twinSelf same l) (value.twinSelf same r)

theorem Expr.twinsSelf (es : List Expr) (same : ∀ side ∈ π, side = .both)
    (h : T.Agree (Expr.nodesOf es)) : Expr.Twins T π es es := by
  match es with
  | [] => exact .nil
  | e :: es =>
    obtain ⟨l, r⟩ := Tables.agreeAppend h
    exact .cons (e.twinSelf same l) (Expr.twinsSelf es same r)

end

mutual

theorem Stmt.twinSelf (s : Stmt) {π : Layout} (same : ∀ side ∈ π, side = .both)
    (h : T.Agree s.nodes) : s.Twin T π s := by
  cases s with
  | missing => exact .missing
  | expression e => exact .expression (e.twinSelf same h)
  | print e => exact .print (e.twinSelf same h)
  | var name init => exact .var (Layout.openSame same) name (init.twinSelf same h)
  | block body => exact .block (Stmt.twinsSelf body (Layout.sameBoth same) h)
  | if_ cond yes no =>
    obtain ⟨c, branches⟩ := Tables.agreeAppend h
    obtain ⟨y, n⟩ := Tables.agreeAppend branches
    exact .if_ (cond.twinSelf same c) (yes.twinSelf same y) (no.twinSelf same n)
  | while_ cond body =>
    obtain ⟨c, b⟩ := Tables.agreeAppend h
    exact .while_ (cond.twinSelf same c) (body.twinSelf same b)
  | function f => exact .function (Layout.openSame same) (f.twinSelf same h)
  | return_ keyword value => exact .return_ keyword (value.twinSelf same h)
  | class_ name methods base =>
    obtain ⟨m, b⟩ := Tables.agreeAppend h
    exact .class_ (Layout.openSame same) name
      (FunDecl.twinsSelf methods (Layout.sameBoth (Layout.sameInClass same base)) m)
      (base.twinSelf same b)

theorem Stmt.twinsSelf (ss : List Stmt) {π : Layout} (same : ∀ side ∈ π, side = .both)
    (h : T.Agree (Stmt.nodesOf ss)) : Stmt.Twins T π ss ss := by
  match ss with
  | [] => exact .nil
  | s :: ss =>
    obtain ⟨l, r⟩ := Tables.agreeAppend h
    exact .cons (s.twinSelf same l) (Stmt.twinsSelf ss same r)

theorem FunDecl.twinSelf (f : FunDecl) {π : Layout} (same : ∀ side ∈ π, side = .both)
    (h : T.Agree f.nodes) : f.Twin T π f := by
  cases f with
  | mk name params body => exact .mk name params (Stmt.twinsSelf body (Layout.sameBoth same) h)

theorem FunDecl.twinsSelf (fs : List FunDecl) {π : Layout} (same : ∀ side ∈ π, side = .both)
    (h : T.Agree (FunDecl.nodesOf fs)) : FunDecl.Twins T π fs fs := by
  match fs with
  | [] => exact .nil
  | f :: fs =>
    obtain ⟨l, r⟩ := Tables.agreeAppend h
    exact .cons (f.twinSelf same l) (FunDecl.twinsSelf fs same r)

end

end Lox
