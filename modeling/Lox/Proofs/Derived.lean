import Lox.Proofs.Parsing.Derivations
import Lox.Proofs.Turns

/-!
Programs that are parsed without a report. All their tokens belong to one derivation, whose tree is
the one that is given; but two departures from the grammar go unreported.
-/

namespace Lox

theorem Cursor.Onward.sameLog {c c' : Cursor} {k : Nat} (onward : c.Onward k c')
    (silent : c'.log.parse = c.log.parse) : c'.log = c.log := by
  obtain ⟨es, log⟩ := onward.log
  have none : es = [] := by
    rw [log, Log.parseAppend, Log.parseErrors] at silent
    simpa using silent
  rw [log, none, List.map_nil, List.append_nil]

namespace Parse

/-- The end may stand for the semicolon of an expression. Where no expression is left out, none is
missing in the trees. -/
theorem silentProgramsAreDerived {c c' : Cursor} {ts : List Token} {last : Token}
    {body : List Stmt} (ahead : c.At (ts ++ [last])) (eof : last.kind = .eof)
    (parsed : run program c = .ok body c') (silent : c'.log.parse = c.log.parse) :
    ∃ ending slips, (ending = [] ∨ c.allowLone = true ∧ ts ≠ [] ∧ ending = [last]) ∧
      Derives (.declarations body) (ts ++ ending) slips ∧
      (.hole ∉ slips → Stmt.solidAll body = true) := by
  rw [runAt] at parsed
  have ends := parsesProgram c.budget c ts last ahead eof
  rw [parsed] at ends
  obtain ⟨read, left, split, onward, quiet⟩ := ends
  obtain ⟨-, ending, slips, closes, derived⟩ := quiet (onward.sameLog silent)
  have none : left = [] := by
    rw [split, List.append_assoc] at ahead
    have atEnd := unfinishedEnds parsed
    rw [(onward.at ahead).atEnd (by simp)] at atEnd
    simpa using atEnd
  have whole : ts = read := by rw [split, none, List.append_nil]
  subst whole
  refine ⟨ending, slips, ?_, derived, derived.solid⟩
  cases closes with
  | no => exact .inl rfl
  | atEnd allowed _ _ enough =>
    refine .inr ⟨allowed, ?_, rfl⟩
    rintro rfl
    simp at enough

def cursorOver (ts : List Token) : Cursor :=
  ⟨((ts ++ [Token.eof]).map some).toArray, 0, 25, [], #[], true, false⟩

def loneSample : List Token :=
  [.identifier "a", .sign .equal, .identifier "b", .mark .semicolon, .keyword .if_,
   .mark .leftParen, .identifier "c", .mark .rightParen, .identifier "d", .mark .dot,
   .identifier "e"]

def loneSampleTree : List Stmt :=
  let use (s : String) : Expr := .reference 0 (some (.identifier s))
  [.expression (.assign 0 (some (.identifier "a")) (use "b")),
   .if_ (use "c") (.expression (.get (use "d") (some (.identifier "e")))) .missing]

theorem silentProgramsAreDerived_lone :
    run program (cursorOver loneSample) =
        .ok loneSampleTree { (cursorOver loneSample).moved 11 with foundLone := true } ∧
      ∃ ending slips, (ending = [] ∨ (cursorOver loneSample).allowLone = true ∧ loneSample ≠ [] ∧
          ending = [Token.eof]) ∧
        Derives (.declarations loneSampleTree) (loneSample ++ ending) slips ∧
        (.hole ∉ slips → Stmt.solidAll loneSampleTree = true) := by
  have parsed : run program (cursorOver loneSample) =
      .ok loneSampleTree { (cursorOver loneSample).moved 11 with foundLone := true } := rfl
  have ahead : (cursorOver loneSample).At (loneSample ++ [Token.eof]) :=
    ⟨0, rfl, by rw [cursorOver, List.toList_toArray, List.drop_zero]⟩
  exact ⟨parsed, silentProgramsAreDerived ahead rfl parsed rfl⟩

def droppingSample : List Token :=
  [.keyword .true_, .sign .equal, .identifier "a", .mark .semicolon]

/-- Neither `print` without a value nor an assignment to a constant is reported. -/
theorem slipsAreNotReported :
    run program (cursorOver [.keyword .print_, .mark .semicolon]) =
        .ok [.print .missing] ((cursorOver [.keyword .print_, .mark .semicolon]).moved 2) ∧
      Stmt.solidAll [.print .missing] = false ∧
      run program (cursorOver droppingSample) =
        .ok [.expression (.literal (.bool true))] ((cursorOver droppingSample).moved 4) :=
  ⟨rfl, rfl, rfl⟩

end Parse
end Lox
