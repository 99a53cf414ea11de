import ProcessLogic.Text.Lexeme

/-!
# Driving a machine over lexemes

A machine reads one lexeme at a time and refuses it when no sentence can go on with it. The
run ends in the state after the last lexeme, or in the state that refused one: the refused
lexeme is then the first with which the text before it can no longer be continued.
-/

namespace ProcessLogic.Text

/-- Feeds lexemes to `step`; an error holds the state that refused a lexeme, and the lexeme. -/
def drive {σ τ : Type} (step : σ → Lexeme τ → Option σ) :
    σ → List (Lexeme τ) → Except (σ × Lexeme τ) σ
  | s, [] => .ok s
  | s, t :: ts =>
    match step s t with
    | some s' => drive step s' ts
    | none => .error (s, t)

end ProcessLogic.Text
