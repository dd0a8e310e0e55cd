import Lox.Tree.Number

/-!
Trees as the parser makes them. A name is never a reserved word, the branches of a conditional and
the body of a loop are not declarations, and a superclass is a name. Numbering keeps all of this
and gives every node a number of its own.
-/

namespace Lox

def Free (t : Option Token) : Prop :=
  ∀ u, t = some u → Keyword.ofWord? u.lexeme = none

def IsWord (k : Keyword) (t : Option Token) : Prop :=
  ∃ u, t = some u ∧ u.lexeme = k.word

def Stmt.isDeclaration : Stmt → Bool
  | .var .. | .function _ | .class_ .. => true
  | _ => false

mutual

def Expr.Shaped : Expr → Prop
  | .missing | .literal _ => True
  | .reference _ name => Free name
  | .assign _ name value => Free name ∧ value.Shaped
  | .this _ keyword => IsWord .this_ keyword
  | .super _ keyword _ => IsWord .super_ keyword
  | .unary _ right => right.Shaped
  | .binary left _ right => left.Shaped ∧ right.Shaped
  | .logical left _ right => left.Shaped ∧ right.Shaped
  | .grouping inner => inner.Shaped
  | .call callee _ args => callee.Shaped ∧ Expr.AllShaped args
  | .get object _ => object.Shaped
  | .set object _ value => object.Shaped ∧ value.Shaped

def Expr.AllShaped : List Expr → Prop
  | [] => True
  | e :: es => e.Shaped ∧ Expr.AllShaped es

end

def Expr.IsSuperclass (e : Expr) : Prop :=
  e = .missing ∨ ∃ node name, e = .reference node name ∧ Free name

mutual

def Stmt.Shaped : Stmt → Prop
  | .missing => True
  | .expression e => e.Shaped
  | .print e => e.Shaped
  | .var name init => Free name ∧ init.Shaped
  | .block body => Stmt.AllShaped body
  | .if_ cond yes no =>
    cond.Shaped ∧ yes.Shaped ∧ no.Shaped ∧ yes.isDeclaration = false ∧ no.isDeclaration = false
  | .while_ cond body => cond.Shaped ∧ body.Shaped ∧ body.isDeclaration = false
  | .function f => f.Shaped
  | .return_ _ value => value.Shaped
  | .class_ name methods base => Free name ∧ FunDecl.AllShaped methods ∧ base.IsSuperclass

def Stmt.AllShaped : List Stmt → Prop
  | [] => True
  | s :: ss => s.Shaped ∧ Stmt.AllShaped ss

def FunDecl.Shaped : FunDecl → Prop
  | .mk name params body => Free name ∧ (∀ p ∈ params, Free p) ∧ Stmt.AllShaped body

def FunDecl.AllShaped : List FunDecl → Prop
  | [] => True
  | f :: fs => f.Shaped ∧ FunDecl.AllShaped fs

end

mutual

def Expr.Named : Expr → Prop
  | .missing | .literal _ | .this .. | .super .. => True
  | .reference _ name => name ≠ none
  | .assign _ name value => name ≠ none ∧ value.Named
  | .unary _ right => right.Named
  | .binary left _ right => left.Named ∧ right.Named
  | .logical left _ right => left.Named ∧ right.Named
  | .grouping inner => inner.Named
  | .call callee _ args => callee.Named ∧ Expr.AllNamed args
  | .get object _ => object.Named
  | .set object _ value => object.Named ∧ value.Named

def Expr.AllNamed : List Expr → Prop
  | [] => True
  | e :: es => e.Named ∧ Expr.AllNamed es

end

def Stmt.Named : Stmt → Prop
  | .expression e => e.Named
  | .print e => e.Named
  | .var _ init => init.Named
  | .if_ cond yes no => cond.Named ∧ yes.Named ∧ no.Named
  | .while_ cond body => cond.Named ∧ body.Named
  | .return_ _ value => value.Named
  | _ => True

theorem allParts {α : Type} {P : α → Prop} {A : List α → Prop} (none : A [])
    (more : ∀ x xs, A (x :: xs) ↔ P x ∧ A xs) {xs : List α} : A xs ↔ ∀ x ∈ xs, P x := by
  induction xs with
  | nil => simp [none]
  | cons x xs ih => rw [more, ih, List.forall_mem_cons]

theorem shapedOfMem {fs : List FunDecl} (h : FunDecl.AllShaped fs) {f : FunDecl} (mem : f ∈ fs) :
    f.Shaped :=
  (allParts (A := FunDecl.AllShaped) trivial fun _ _ => .rfl).mp h f mem

mutual

def Expr.nodes : Expr → List Nat
  | .missing | .literal _ => []
  | .reference node _ | .this node _ | .super node _ _ => [node]
  | .assign node _ value => value.nodes ++ [node]
  | .unary _ right => right.nodes
  | .binary left _ right => left.nodes ++ right.nodes
  | .logical left _ right => left.nodes ++ right.nodes
  | .grouping inner => inner.nodes
  | .call callee _ args => callee.nodes ++ Expr.nodesOf args
  | .get object _ => object.nodes
  | .set object _ value => object.nodes ++ value.nodes

def Expr.nodesOf : List Expr → List Nat
  | [] => []
  | e :: es => e.nodes ++ Expr.nodesOf es

end

mutual

def Stmt.nodes : Stmt → List Nat
  | .missing => []
  | .expression e => e.nodes
  | .print e => e.nodes
  | .var _ init => init.nodes
  | .block body => Stmt.nodesOf body
  | .if_ cond yes no => cond.nodes ++ (yes.nodes ++ no.nodes)
  | .while_ cond body => cond.nodes ++ body.nodes
  | .function f => f.nodes
  | .return_ _ value => value.nodes
  | .class_ _ methods base => FunDecl.nodesOf methods ++ base.nodes

def Stmt.nodesOf : List Stmt → List Nat
  | [] => []
  | s :: ss => s.nodes ++ Stmt.nodesOf ss

def FunDecl.nodes : FunDecl → List Nat
  | .mk _ _ body => Stmt.nodesOf body

def FunDecl.nodesOf : List FunDecl → List Nat
  | [] => []
  | f :: fs => f.nodes ++ FunDecl.nodesOf fs

end

def Numbers (nodes : List Nat) (n m : Nat) : Prop :=
  n ≤ m ∧ nodes = List.range' n (m - n)

theorem numbersNone (n : Nat) : Numbers [] n n := ⟨Nat.le_refl n, by simp⟩

theorem numbersOne (n : Nat) : Numbers [n] n (n + 1) := ⟨Nat.le_succ n, by simp⟩

theorem Numbers.append {a b : List Nat} {n m k : Nat} (left : Numbers a n m)
    (right : Numbers b m k) : Numbers (a ++ b) n k := by
  obtain ⟨le, rfl⟩ := left
  obtain ⟨le', rfl⟩ := right
  refine ⟨Nat.le_trans le le', ?_⟩
  have size : k - n = (m - n) + (k - m) := by omega
  have start : m = n + (m - n) := by omega
  rw [size, ← List.range'_append_1, ← start]

theorem Numbers.nodup {a : List Nat} {n m : Nat} (h : Numbers a n m) : a.Nodup := by
  obtain ⟨-, rfl⟩ := h
  exact List.nodup_range'

theorem Numbers.bounds {a : List Nat} {n m : Nat} (h : Numbers a n m) {node : Nat}
    (mem : node ∈ a) : n ≤ node ∧ node < m := by
  obtain ⟨le, rfl⟩ := h
  have := List.mem_range'_1.mp mem
  omega

mutual

theorem numberExpr (e : Expr) (n : Nat) :
    Numbers (e.number n).1.nodes n (e.number n).2 ∧ (e.Shaped → (e.number n).1.Shaped) := by
  cases e with
  | missing => exact ⟨numbersNone n, id⟩
  | literal d => exact ⟨numbersNone n, id⟩
  | reference node name => exact ⟨numbersOne n, id⟩
  | this node keyword => exact ⟨numbersOne n, id⟩
  | super node keyword method => exact ⟨numbersOne n, id⟩
  | assign node name value =>
    have h := numberExpr value n
    exact ⟨h.1.append (numbersOne _), fun shaped => ⟨shaped.1, h.2 shaped.2⟩⟩
  | unary op right => exact numberExpr right n
  | binary left op right =>
    have l := numberExpr left n
    have r := numberExpr right (left.number n).2
    exact ⟨l.1.append r.1, fun shaped => ⟨l.2 shaped.1, r.2 shaped.2⟩⟩
  | logical left op right =>
    have l := numberExpr left n
    have r := numberExpr right (left.number n).2
    exact ⟨l.1.append r.1, fun shaped => ⟨l.2 shaped.1, r.2 shaped.2⟩⟩
  | grouping inner => exact numberExpr inner n
  | call callee paren args =>
    have l := numberExpr callee n
    have r := numberExprs args (callee.number n).2
    exact ⟨l.1.append r.1, fun shaped => ⟨l.2 shaped.1, r.2 shaped.2⟩⟩
  | get object name => exact numberExpr object n
  | set object name value =>
    have l := numberExpr object n
    have r := numberExpr value (object.number n).2
    exact ⟨l.1.append r.1, fun shaped => ⟨l.2 shaped.1, r.2 shaped.2⟩⟩

theorem numberExprs (es : List Expr) (n : Nat) :
    Numbers (Expr.nodesOf (Expr.numberAll es n).1) n (Expr.numberAll es n).2 ∧
      (Expr.AllShaped es → Expr.AllShaped (Expr.numberAll es n).1) := by
  cases es with
  | nil => exact ⟨numbersNone n, id⟩
  | cons e es =>
    have l := numberExpr e n
    have r := numberExprs es (e.number n).2
    exact ⟨l.1.append r.1, fun shaped => ⟨l.2 shaped.1, r.2 shaped.2⟩⟩

end

theorem numberSuperclass {e : Expr} (h : e.IsSuperclass) (n : Nat) : (e.number n).1.IsSuperclass := by
  rcases h with rfl | ⟨node, name, rfl, free⟩
  · exact .inl rfl
  · exact .inr ⟨n, name, rfl, free⟩

theorem numberDeclaration (s : Stmt) (n : Nat) :
    (s.number n).1.isDeclaration = s.isDeclaration := by
  cases s <;> rfl

mutual

theorem numberStmt (s : Stmt) (n : Nat) :
    Numbers (s.number n).1.nodes n (s.number n).2 ∧ (s.Shaped → (s.number n).1.Shaped) := by
  cases s with
  | missing => exact ⟨numbersNone n, id⟩
  | expression e => exact numberExpr e n
  | print e => exact numberExpr e n
  | var name init =>
    have h := numberExpr init n
    exact ⟨h.1, fun shaped => ⟨shaped.1, h.2 shaped.2⟩⟩
  | block body => exact numberStmts body n
  | if_ cond yes no =>
    have c := numberExpr cond n
    have y := numberStmt yes (cond.number n).2
    have o := numberStmt no (yes.number (cond.number n).2).2
    refine ⟨c.1.append (y.1.append o.1), fun shaped => ?_⟩
    obtain ⟨sc, sy, so, dy, dn⟩ := shaped
    exact ⟨c.2 sc, y.2 sy, o.2 so, (numberDeclaration yes _).trans dy,
      (numberDeclaration no _).trans dn⟩
  | while_ cond body =>
    have c := numberExpr cond n
    have b := numberStmt body (cond.number n).2
    refine ⟨c.1.append b.1, fun shaped => ?_⟩
    exact ⟨c.2 shaped.1, b.2 shaped.2.1, (numberDeclaration body _).trans shaped.2.2⟩
  | function f => exact numberFunDecl f n
  | return_ keyword value => exact numberExpr value n
  | class_ name methods base =>
    have l := numberFunDecls methods n
    have r := numberExpr base (FunDecl.numberAll methods n).2
    exact ⟨l.1.append r.1, fun shaped => ⟨shaped.1, l.2 shaped.2.1, numberSuperclass shaped.2.2 _⟩⟩

theorem numberStmts (ss : List Stmt) (n : Nat) :
    Numbers (Stmt.nodesOf (Stmt.numberAll ss n).1) n (Stmt.numberAll ss n).2 ∧
      (Stmt.AllShaped ss → Stmt.AllShaped (Stmt.numberAll ss n).1) := by
  cases ss with
  | nil => exact ⟨numbersNone n, id⟩
  | cons s ss =>
    have l := numberStmt s n
    have r := numberStmts ss (s.number n).2
    exact ⟨l.1.append r.1, fun shaped => ⟨l.2 shaped.1, r.2 shaped.2⟩⟩

theorem numberFunDecl (f : FunDecl) (n : Nat) :
    Numbers (f.number n).1.nodes n (f.number n).2 ∧ (f.Shaped → (f.number n).1.Shaped) := by
  cases f with
  | mk name params body =>
    have h := numberStmts body n
    exact ⟨h.1, fun shaped => ⟨shaped.1, shaped.2.1, h.2 shaped.2.2⟩⟩

theorem numberFunDecls (fs : List FunDecl) (n : Nat) :
    Numbers (FunDecl.nodesOf (FunDecl.numberAll fs n).1) n (FunDecl.numberAll fs n).2 ∧
      (FunDecl.AllShaped fs → FunDecl.AllShaped (FunDecl.numberAll fs n).1) := by
  cases fs with
  | nil => exact ⟨numbersNone n, id⟩
  | cons f fs =>
    have l := numberFunDecl f n
    have r := numberFunDecls fs (f.number n).2
    exact ⟨l.1.append r.1, fun shaped => ⟨l.2 shaped.1, r.2 shaped.2⟩⟩

end

mutual

theorem namedNumber (e : Expr) (n : Nat) (named : e.Named) : (e.number n).1.Named := by
  cases e with
  | missing | literal d | reference node name | this node keyword | super node keyword method =>
    exact named
  | assign node name value => exact ⟨named.1, namedNumber value n named.2⟩
  | unary op right => exact namedNumber right n named
  | binary left op right =>
    exact ⟨namedNumber left n named.1, namedNumber right _ named.2⟩
  | logical left op right =>
    exact ⟨namedNumber left n named.1, namedNumber right _ named.2⟩
  | grouping inner => exact namedNumber inner n named
  | call callee paren args =>
    exact ⟨namedNumber callee n named.1, namedNumbers args _ named.2⟩
  | get object name => exact namedNumber object n named
  | set object name value =>
    exact ⟨namedNumber object n named.1, namedNumber value _ named.2⟩

theorem namedNumbers (es : List Expr) (n : Nat) (named : Expr.AllNamed es) :
    Expr.AllNamed (Expr.numberAll es n).1 := by
  cases es with
  | nil => exact named
  | cons e es => exact ⟨namedNumber e n named.1, namedNumbers es _ named.2⟩

end

theorem namedNumberStmt (s : Stmt) (n : Nat) (named : s.Named) : (s.number n).1.Named := by
  cases s with
  | missing | block body | function f | class_ name methods base => trivial
  | expression e => exact namedNumber e n named
  | print e => exact namedNumber e n named
  | var name init => exact namedNumber init n named
  | return_ keyword value => exact namedNumber value n named
  | if_ cond yes no =>
    obtain ⟨nc, ny, nn⟩ := named
    exact ⟨namedNumber cond n nc, namedNumberStmt yes _ ny, namedNumberStmt no _ nn⟩
  | while_ cond body => exact ⟨namedNumber cond n named.1, namedNumberStmt body _ named.2⟩

end Lox
