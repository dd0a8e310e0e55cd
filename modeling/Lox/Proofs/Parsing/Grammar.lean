import Lox.Proofs.Parsing.Expressions

/-!
The grammar as derivations of tokens, with the tree that belongs to each. Two productions that are
no part of it stand beside the others, and each use of them is kept as a slip: an expression may be
missing, and what is assigned to something else than a variable or a property may be dropped.
-/

namespace Lox

inductive Slip where
  | hole
  | dropped
  deriving DecidableEq

/- What is derived, with its tree. An expression has the rank of the rule that it is derived by. -/
inductive Phrase where
  | expr (rank : Nat) (e : Expr)
  | arguments (es : List Expr)
  | moreArguments (es : List Expr)
  | clause (e : Expr)
  | names (ps : List (Option Token))
  | moreNames (ps : List (Option Token))
  | varDecl (s : Stmt)
  | simple (s : Stmt)
  | initial (s : Option Stmt)
  | base (e : Expr)
  | function (f : FunDecl)
  | functions (fs : List FunDecl)
  | statement (s : Stmt)
  | declaration (s : Stmt)
  | declarations (ss : List Stmt)

def Expr.isTarget : Expr → Bool
  | .reference .. | .get .. => true
  | _ => false

inductive Derives : Phrase → List Token → List Slip → Prop where
  | value {t : Token} (kind : t.kind = .number ∨ t.kind = .string) :
      Derives (.expr 10 (.literal t.literal)) [t] []
  | isTrue {t : Token} (kind : t.kind = .keyword .true_) :
      Derives (.expr 10 (.literal (.bool true))) [t] []
  | isFalse {t : Token} (kind : t.kind = .keyword .false_) :
      Derives (.expr 10 (.literal (.bool false))) [t] []
  | nothing {t : Token} (kind : t.kind = .nothing) : Derives (.expr 10 (.literal .nil)) [t] []
  | reference {t : Token} (kind : t.kind = .identifier) :
      Derives (.expr 10 (.reference 0 (some t))) [t] []
  | this {t : Token} (kind : t.kind = .keyword .this_) :
      Derives (.expr 10 (.this 0 (some t))) [t] []
  | super {t dot method : Token} (kind : t.kind = .keyword .super_) (point : dot.kind = .dot)
      (name : method.kind = .identifier) :
      Derives (.expr 10 (.super 0 (some t) (some method))) [t, dot, method] []
  | grouping {l r : Token} {e : Expr} {ts : List Token} {slips : List Slip}
      (left : l.kind = .leftParen) (inner : Derives (.expr 1 e) ts slips)
      (right : r.kind = .rightParen) :
      Derives (.expr 10 (.grouping e)) (l :: (ts ++ [r])) slips
  | hole : Derives (.expr 10 .missing) [] [.hole]
  | call {l r : Token} {e : Expr} {es : List Expr} {ts us : List Token} {slips slips' : List Slip}
      (callee : Derives (.expr 9 e) ts slips) (left : l.kind = .leftParen)
      (args : Derives (.arguments es) us slips') (right : r.kind = .rightParen) :
      Derives (.expr 9 (.call e (some r) es)) (ts ++ l :: (us ++ [r])) (slips ++ slips')
  | get {dot name : Token} {e : Expr} {ts : List Token} {slips : List Slip}
      (object : Derives (.expr 9 e) ts slips) (point : dot.kind = .dot)
      (kind : name.kind = .identifier) :
      Derives (.expr 9 (.get e (some name))) (ts ++ [dot, name]) slips
  | noArguments : Derives (.arguments []) [] []
  | arguments {e : Expr} {es : List Expr} {ts us : List Token} {slips slips' : List Slip}
      (first : Derives (.expr 1 e) ts slips) (more : Derives (.moreArguments es) us slips') :
      Derives (.arguments (e :: es)) (ts ++ us) (slips ++ slips')
  | noMoreArguments : Derives (.moreArguments []) [] []
  | moreArguments {comma : Token} {e : Expr} {es : List Expr} {ts us : List Token}
      {slips slips' : List Slip} (kind : comma.kind = .comma) (first : Derives (.expr 1 e) ts slips)
      (more : Derives (.moreArguments es) us slips') :
      Derives (.moreArguments (e :: es)) (comma :: (ts ++ us)) (slips ++ slips')
  -- operators; a chain of one level may be grouped either way
  | unary {op : Token} {e : Expr} {ts : List Token} {slips : List Slip}
      (kind : op.kind.isUnary = true) (right : Derives (.expr 8 e) ts slips) :
      Derives (.expr 8 (.unary (some op) e)) (op :: ts) slips
  | join {r : Nat} {op : Token} {left right : Expr} {ts us : List Token} {slips slips' : List Slip}
      (lo : 2 ≤ r) (hi : r ≤ 7) (first : Derives (.expr r left) ts slips) (level : op.kind.pull = r)
      (next : Derives (.expr r right) us slips') :
      Derives (.expr r (Parse.join r left (some op) right)) (ts ++ op :: us) (slips ++ slips')
  | tighter {r : Nat} {e : Expr} {ts : List Token} {slips : List Slip} (lo : 1 ≤ r)
      (h : Derives (.expr (r + 1) e) ts slips) : Derives (.expr r e) ts slips
  | assign {name equal : Token} {e : Expr} {ts : List Token} {slips : List Slip}
      (kind : name.kind = .identifier) (sign : equal.kind = .equal)
      (value : Derives (.expr 1 e) ts slips) :
      Derives (.expr 1 (.assign 0 (some name) e)) (name :: equal :: ts) slips
  | set {dot name equal : Token} {e v : Expr} {ts us : List Token} {slips slips' : List Slip}
      (object : Derives (.expr 9 e) ts slips) (point : dot.kind = .dot)
      (kind : name.kind = .identifier) (sign : equal.kind = .equal)
      (value : Derives (.expr 1 v) us slips') :
      Derives (.expr 1 (.set e (some name) v)) (ts ++ dot :: name :: equal :: us) (slips ++ slips')
  | dropped {equal : Token} {e v : Expr} {ts us : List Token} {slips slips' : List Slip}
      (target : Derives (.expr 2 e) ts slips) (other : e.isTarget = false)
      (sign : equal.kind = .equal) (value : Derives (.expr 1 v) us slips') :
      Derives (.expr 1 e) (ts ++ equal :: us) (slips ++ (slips' ++ [.dropped]))
  | noClause : Derives (.clause .missing) [] []
  | clause {e : Expr} {ts : List Token} {slips : List Slip} (h : Derives (.expr 1 e) ts slips) :
      Derives (.clause e) ts slips
  | noNames : Derives (.names []) [] []
  | names {name : Token} {ps : List (Option Token)} {ts : List Token} {slips : List Slip}
      (kind : name.kind = .identifier) (more : Derives (.moreNames ps) ts slips) :
      Derives (.names (some name :: ps)) (name :: ts) slips
  | noMoreNames : Derives (.moreNames []) [] []
  | moreNames {comma name : Token} {ps : List (Option Token)} {ts : List Token} {slips : List Slip}
      (kind : comma.kind = .comma) (ident : name.kind = .identifier)
      (more : Derives (.moreNames ps) ts slips) :
      Derives (.moreNames (some name :: ps)) (comma :: name :: ts) slips
  | varBare {word name semi : Token} (kind : word.kind = .keyword .var_)
      (ident : name.kind = .identifier) (closing : semi.kind = .semicolon) :
      Derives (.varDecl (.var (some name) .missing)) [word, name, semi] []
  | varInit {word name equal semi : Token} {e : Expr} {ts : List Token} {slips : List Slip}
      (kind : word.kind = .keyword .var_) (ident : name.kind = .identifier)
      (sign : equal.kind = .equal) (value : Derives (.expr 1 e) ts slips)
      (closing : semi.kind = .semicolon) :
      Derives (.varDecl (.var (some name) e)) (word :: name :: equal :: (ts ++ [semi])) slips
  -- the end of all tokens will do for the semicolon of an expression
  | simple {closing : Token} {e : Expr} {ts : List Token} {slips : List Slip}
      (h : Derives (.expr 1 e) ts slips)
      (kind : closing.kind = .semicolon ∨ closing.kind = .eof) :
      Derives (.simple (.expression e)) (ts ++ [closing]) slips
  | noInitial {semi : Token} (closing : semi.kind = .semicolon) :
      Derives (.initial none) [semi] []
  | varInitial {s : Stmt} {ts : List Token} {slips : List Slip}
      (h : Derives (.varDecl s) ts slips) : Derives (.initial (some s)) ts slips
  | simpleInitial {s : Stmt} {ts : List Token} {slips : List Slip}
      (h : Derives (.simple s) ts slips) : Derives (.initial (some s)) ts slips
  | noBase : Derives (.base .missing) [] []
  | base {less name : Token} (sign : less.kind = .sign .less) (kind : name.kind = .identifier) :
      Derives (.base (.reference 0 (some name))) [less, name] []
  | function {name l r brace close : Token} {ps : List (Option Token)} {ss : List Stmt}
      {ts us : List Token} {slips slips' : List Slip} (kind : name.kind = .identifier)
      (left : l.kind = .leftParen) (params : Derives (.names ps) ts slips)
      (right : r.kind = .rightParen) (opening : brace.kind = .leftBrace)
      (body : Derives (.declarations ss) us slips') (closing : close.kind = .rightBrace) :
      Derives (.function (.mk (some name) ps ss))
        (name :: l :: (ts ++ r :: brace :: (us ++ [close]))) (slips ++ slips')
  | noFunctions : Derives (.functions []) [] []
  | functions {f : FunDecl} {fs : List FunDecl} {ts us : List Token} {slips slips' : List Slip}
      (first : Derives (.function f) ts slips) (more : Derives (.functions fs) us slips') :
      Derives (.functions (f :: fs)) (ts ++ us) (slips ++ slips')
  | expression {s : Stmt} {ts : List Token} {slips : List Slip} (h : Derives (.simple s) ts slips) :
      Derives (.statement s) ts slips
  | print {word semi : Token} {e : Expr} {ts : List Token} {slips : List Slip}
      (kind : word.kind = .keyword .print_) (value : Derives (.expr 1 e) ts slips)
      (closing : semi.kind = .semicolon) :
      Derives (.statement (.print e)) (word :: (ts ++ [semi])) slips
  | return_ {word semi : Token} {keyword : Option Token} {e : Expr} {ts : List Token}
      {slips : List Slip} (kind : word.kind = .keyword .return_)
      (value : Derives (.clause e) ts slips) (closing : semi.kind = .semicolon) :
      Derives (.statement (.return_ keyword e)) (word :: (ts ++ [semi])) slips
  | block {brace close : Token} {ss : List Stmt} {ts : List Token} {slips : List Slip}
      (opening : brace.kind = .leftBrace) (body : Derives (.declarations ss) ts slips)
      (closing : close.kind = .rightBrace) :
      Derives (.statement (.block ss)) (brace :: (ts ++ [close])) slips
  | while_ {word l r : Token} {e : Expr} {s : Stmt} {ts us : List Token} {slips slips' : List Slip}
      (kind : word.kind = .keyword .while_) (left : l.kind = .leftParen)
      (cond : Derives (.expr 1 e) ts slips) (right : r.kind = .rightParen)
      (body : Derives (.statement s) us slips') :
      Derives (.statement (.while_ e s)) (word :: l :: (ts ++ r :: us)) (slips ++ slips')
  | if_ {word l r : Token} {e : Expr} {s : Stmt} {ts us : List Token} {slips slips' : List Slip}
      (kind : word.kind = .keyword .if_) (left : l.kind = .leftParen)
      (cond : Derives (.expr 1 e) ts slips) (right : r.kind = .rightParen)
      (yes : Derives (.statement s) us slips') :
      Derives (.statement (.if_ e s .missing)) (word :: l :: (ts ++ r :: us)) (slips ++ slips')
  | ifElse {word l r other : Token} {e : Expr} {s s' : Stmt} {ts us vs : List Token}
      {slips slips₁ slips₂ : List Slip} (kind : word.kind = .keyword .if_)
      (left : l.kind = .leftParen) (cond : Derives (.expr 1 e) ts slips)
      (right : r.kind = .rightParen) (yes : Derives (.statement s) us slips₁)
      (otherwise : other.kind = .keyword .else_) (no : Derives (.statement s') vs slips₂) :
      Derives (.statement (.if_ e s s')) (word :: l :: (ts ++ r :: (us ++ other :: vs)))
        (slips ++ (slips₁ ++ slips₂))
  | for_ {word l semi r : Token} {init : Option Stmt} {cond step : Expr} {body : Stmt}
      {ts us vs ws : List Token} {slips slips₁ slips₂ slips₃ : List Slip}
      (kind : word.kind = .keyword .for_) (left : l.kind = .leftParen)
      (first : Derives (.initial init) ts slips) (test : Derives (.clause cond) us slips₁)
      (closing : semi.kind = .semicolon) (last : Derives (.clause step) vs slips₂)
      (right : r.kind = .rightParen) (inner : Derives (.statement body) ws slips₃) :
      Derives (.statement (Parse.desugarFor init cond step body))
        (word :: l :: (ts ++ (us ++ semi :: (vs ++ r :: ws))))
        (slips ++ (slips₁ ++ (slips₂ ++ slips₃)))
  | class_ {word name brace close : Token} {e : Expr} {fs : List FunDecl} {ts us : List Token}
      {slips slips' : List Slip} (kind : word.kind = .keyword .class_)
      (ident : name.kind = .identifier) (superclass : Derives (.base e) ts slips)
      (opening : brace.kind = .leftBrace) (methods : Derives (.functions fs) us slips')
      (closing : close.kind = .rightBrace) :
      Derives (.declaration (.class_ (some name) fs e))
        (word :: name :: (ts ++ brace :: (us ++ [close]))) (slips ++ slips')
  | fun_ {word : Token} {f : FunDecl} {ts : List Token} {slips : List Slip}
      (kind : word.kind = .keyword .fun_) (h : Derives (.function f) ts slips) :
      Derives (.declaration (.function f)) (word :: ts) slips
  | var_ {s : Stmt} {ts : List Token} {slips : List Slip} (h : Derives (.varDecl s) ts slips) :
      Derives (.declaration s) ts slips
  | statement {s : Stmt} {ts : List Token} {slips : List Slip}
      (h : Derives (.statement s) ts slips) : Derives (.declaration s) ts slips
  | noDeclarations : Derives (.declarations []) [] []
  | declarations {s : Stmt} {ss : List Stmt} {ts us : List Token} {slips slips' : List Slip}
      (first : Derives (.declaration s) ts slips) (more : Derives (.declarations ss) us slips') :
      Derives (.declarations (s :: ss)) (ts ++ us) (slips ++ slips')

mutual

def Expr.solid : Expr → Bool
  | .missing => false
  | .literal _ | .reference .. | .this .. | .super .. => true
  | .assign _ _ value => value.solid
  | .unary _ right => right.solid
  | .binary left _ right | .logical left _ right => left.solid && right.solid
  | .grouping inner => inner.solid
  | .call callee _ args => callee.solid && Expr.solidAll args
  | .get object _ => object.solid
  | .set object _ value => object.solid && value.solid

def Expr.solidAll : List Expr → Bool
  | [] => true
  | e :: es => e.solid && Expr.solidAll es

end

def Expr.optional (e : Expr) : Bool := e.isMissing || e.solid

mutual

def Stmt.solid : Stmt → Bool
  | .missing => false
  | .expression e | .print e => e.solid
  | .var _ init => init.optional
  | .block body => Stmt.solidAll body
  | .if_ cond yes no => cond.solid && yes.solid && (no.isMissing || no.solid)
  | .while_ cond body => cond.solid && body.solid
  | .function f => f.solid
  | .return_ _ value => value.optional
  | .class_ _ methods superclass => FunDecl.solidAll methods && superclass.optional

def Stmt.solidAll : List Stmt → Bool
  | [] => true
  | s :: ss => s.solid && Stmt.solidAll ss

def FunDecl.solid : FunDecl → Bool
  | .mk _ _ body => Stmt.solidAll body

def FunDecl.solidAll : List FunDecl → Bool
  | [] => true
  | f :: fs => f.solid && FunDecl.solidAll fs

end

def Phrase.solid : Phrase → Bool
  | .expr _ e => e.solid
  | .arguments es | .moreArguments es => Expr.solidAll es
  | .clause e | .base e => e.optional
  | .names _ | .moreNames _ => true
  | .varDecl s | .simple s | .statement s | .declaration s => s.solid
  | .initial s => s.all Stmt.solid
  | .function f => f.solid
  | .functions fs => FunDecl.solidAll fs
  | .declarations ss => Stmt.solidAll ss

theorem joinShape (r : Nat) (left : Expr) (op : Option Token) (right : Expr) :
    Parse.join r left op right = .logical left op right ∨
      Parse.join r left op right = .binary left op right := by
  unfold Parse.join
  split
  · exact .inl rfl
  · exact .inr rfl

theorem joinTarget (r : Nat) (left : Expr) (op : Option Token) (right : Expr) :
    (Parse.join r left op right).isTarget = false := by
  rcases joinShape r left op right with same | same
  · rw [same]
    rfl
  · rw [same]
    rfl

theorem joinSolid (r : Nat) (left : Expr) (op : Option Token) (right : Expr) :
    (Parse.join r left op right).solid = (left.solid && right.solid) := by
  rcases joinShape r left op right with same | same
  · rw [same, Expr.solid]
  · rw [same, Expr.solid]

theorem desugarSolid {init : Option Stmt} {cond step : Expr} {body : Stmt}
    (first : init.all Stmt.solid = true) (test : cond.optional = true)
    (last : step.optional = true) (inner : body.solid = true) :
    (Parse.desugarFor init cond step body).solid = true := by
  have repeated :
      (if step.isMissing then body else .block [body, .expression step]).solid = true := by
    split
    · exact inner
    · next some => simpa [Stmt.solid, Stmt.solidAll, inner, Expr.optional, some] using last
  have asked : (if cond.isMissing then .literal (.bool true) else cond).solid = true := by
    split
    · rfl
    · next some => simpa [Expr.optional, some] using test
  cases init with
  | none => simp [Parse.desugarFor, Stmt.solid, asked, repeated]
  | some s =>
    have started : s.solid = true := first
    simp [Parse.desugarFor, Stmt.solid, Stmt.solidAll, asked, repeated, started]

theorem Derives.solid {p : Phrase} {ts : List Token} {slips : List Slip} (h : Derives p ts slips)
    (whole : .hole ∉ slips) : p.solid = true := by
  induction h with
  | hole => simp at whole
  | join _ _ _ _ _ ih ih' =>
    simp only [List.mem_append, not_or] at whole
    refine (joinSolid _ _ _ _).trans (Bool.and_eq_true_iff.mpr ?_)
    exact ⟨ih whole.1, ih' whole.2⟩
  | for_ _ _ _ _ _ _ _ _ ih₀ ih₁ ih₂ ih₃ =>
    simp only [List.mem_append, not_or] at whole
    exact desugarSolid (ih₀ whole.1) (ih₁ whole.2.1) (ih₂ whole.2.2.1) (ih₃ whole.2.2.2)
  | _ =>
    simp_all [Phrase.solid, Expr.solid, Expr.solidAll, Expr.optional, Expr.isMissing, Stmt.solid,
      Stmt.solidAll, FunDecl.solid, FunDecl.solidAll, Stmt.isMissing]

theorem Derives.looser {r r' : Nat} {e : Expr} {ts : List Token} {slips : List Slip}
    (h : Derives (.expr r e) ts slips) (lo : 1 ≤ r') (le : r' ≤ r) :
    Derives (.expr r' e) ts slips := by
  induction le with
  | refl => exact h
  | step le ih => exact ih (h.tighter (Nat.le_trans lo le))

theorem Derives.target {r : Nat} {e : Expr} {ts : List Token} {slips : List Slip}
    (h : Derives (.expr r e) ts slips) (target : e.isTarget = true) :
    (∃ t, e = .reference 0 (some t) ∧ t.kind = .identifier ∧ ts = [t] ∧ slips = []) ∨
      ∃ object dot t us, e = .get object (some t) ∧ dot.kind = .dot ∧ t.kind = .identifier ∧
        ts = us ++ [dot, t] ∧ Derives (.expr 9 object) us slips := by
  generalize same : Phrase.expr r e = p at h
  induction h generalizing r with
  | reference kind =>
    cases same
    exact .inl ⟨_, rfl, kind, rfl, rfl⟩
  | get object point kind =>
    cases same
    exact .inr ⟨_, _, _, _, rfl, point, kind, rfl, object⟩
  | tighter _ _ ih =>
    cases same
    exact ih rfl
  | join =>
    cases same
    rw [joinTarget] at target
    cases target
  | dropped _ other =>
    cases same
    rw [other] at target
    cases target
  | _ => cases same <;> cases target

end Lox
