import Lox.Proofs.Parsing.Statements

/-!
Parsing is a left inverse of writing out. The parser makes of the tokens of any program of the
grammar, up to a token that ends them, the program itself; it reports nothing, writes nothing, and
comes to rest on that last token.
-/

namespace Lox.Parse

theorem readsProgram {ds : List Stmt} (ok : Stmt.grammaticalAll ds = true) {w : Writing} {n : Nat}
    (enough : 16 * (Stmt.spellAll ds w).length + 17 ≤ n) {t : Token} (last : t.kind = .eof) :
    Reads (program n) (Stmt.spellAll ds w) (pure (Stmt.asReadAll ds w)) [t] := by
  have ending : Starts [t] .eof := ⟨t, [], rfl, last⟩
  refine readsDeclarations ending (by decide) ?_ ?_ (readsStmts ds ok) enough (by omega)
  · intro ts k starts _
    have inside : ((ts ++ [t]).length == 1) = false := by
      have positive := List.length_pos_iff.mpr starts.some
      rw [beq_eq_false_iff_ne, List.length_append, List.length_singleton]
      omega
    refine (readsIsAtEnd (starts.append _).some).last ?_
    rw [inside]
    exact readsSelf _
  · exact (readsIsAtEnd ending.some).last (readsSelf _)

theorem budgetEnough {c : Cursor} {ts : List Token} (h : c.At ts) (some : ts ≠ []) :
    16 * ts.length + 17 ≤ c.budget := by
  have size := h.size some
  obtain ⟨i, index, -⟩ := h
  unfold Cursor.budget
  omega

theorem writtenProgramsAreRead {ds : List Stmt} (ok : Stmt.grammaticalAll ds = true) {w : Writing}
    {t : Token} (last : t.kind = .eof) {c : Cursor} (ahead : c.At (Stmt.spellAll ds w ++ [t])) :
    run program c = .ok (Stmt.asReadAll ds w) { c with index := c.tokens.size - 1 } := by
  have enough := budgetEnough ahead (by simp)
  have size := ahead.size (by simp)
  rw [List.length_append, List.length_singleton] at enough size
  have reads := readsProgram ok (n := c.budget) (by omega) last c ahead
  have index : c.index + (Stmt.spellAll ds w).length = c.tokens.size - 1 := by omega
  rw [runAt, reads, pureRun, Cursor.moved, index]

def writtenSample : List Stmt :=
  let name (s : String) : Option Token := some (.identifier s)
  let use (s : String) : Expr := .reference 0 (name s)
  let op (s : Sign) : Option Token := some (.sign s)
  let mark (m : Mark) : Option Token := some (.mark m)
  [.class_ (name "B")
    [.mk (name "m") [name "x", name "y"]
      [.return_ none (.binary
        (.binary (.call (.super 0 (some (.keyword .super_)) (name "m")) (mark .rightParen) [use "x"])
          (mark .plus) (.binary (use "y") (mark .star) (.literal (.int 2))))
        (mark .minus) (.unary (mark .minus) (.get (.this 0 (some (.keyword .this_))) (name "z"))))]]
    (use "A"),
   .while_ (.logical (.grouping (.assign 0 (name "a") (.literal (.bool true))))
      (some (.keyword .and_)) (use "b"))
    (.if_ (.binary (use "c") (op .lessEqual) (.literal (.text "d")))
      (.if_ (use "e") (.print (use "f")) (.block [.var (name "g") .missing]))
      (.expression (.set (.call (use "h") (mark .rightParen) []) (name "i") (use "j"))))]

def sampleWriting : Writing := fun _ d =>
  match d with
  | .text s => "\"" ++ s ++ "\""
  | d => "0" ++ d.render

def writtenCursor : Cursor :=
  ⟨((Stmt.spellAll writtenSample sampleWriting ++ [Token.eof]).map some).toArray, 0, 25, [], #[],
    true, false⟩

theorem writtenProgramsAreRead_sample :
    Stmt.grammaticalAll writtenSample = true ∧
      run program writtenCursor = .ok (Stmt.asReadAll writtenSample sampleWriting)
        { writtenCursor with index := writtenCursor.tokens.size - 1 } := by
  have ok : Stmt.grammaticalAll writtenSample = true := by decide +kernel
  refine ⟨ok, writtenProgramsAreRead ok (t := .eof) rfl ⟨0, rfl, ?_⟩⟩
  rw [writtenCursor, List.toList_toArray, List.drop_zero]

end Lox.Parse
