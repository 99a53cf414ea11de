import ProcessLogic.Formula.Parser
import ProcessLogic.Proofs.Formula.Token

/-!
# Formulas in parentheses

The machine reads a formula in parentheses as it reads the formula alone, whatever is open
around them: what is open does not reach through the parenthesis.
-/

namespace ProcessLogic.Formula

open Text

namespace ParserState

/-- The state of the machine after some tokens, if it reads them all. -/
def reads (s : ParserState) (ts : List Token) : Option ParserState := ts.foldlM step s

theorem reads_append (s : ParserState) (ts us : List Token) :
    s.reads (ts ++ us) = (s.reads ts).bind fun s' => s'.reads us :=
  List.foldlM_append

/-- The machine reads lexemes as it reads their tokens. -/
theorem drive_eq_ok_iff (s s' : ParserState) (ls : List (Lexeme Token)) :
    drive advance s ls = .ok s' ↔ s.reads (ls.map (·.token)) = some s' := by
  induction ls generalizing s with
  | nil => simp [drive, reads]
  | cons l ls ih =>
      rw [drive, advance, List.map_cons, reads, List.foldlM_cons]
      cases hs : s.step l.token with
      | none => simp
      | some r => exact ih r

end ParserState

/-- A text is read as a formula exactly if the machine reads its tokens and may end there. -/
theorem parse_eq_ok_iff {text : String} {f : Formula} :
    parse text = .ok f ↔ ∃ s, (ParserState.operand []).reads (tokens Token.read text.toList) =
      some s ∧ s.finish? = some f := by
  have hdrive := fun s => ParserState.drive_eq_ok_iff (.operand []) s (Token.scan text)
  constructor
  · intro h
    rw [parse] at h
    cases hs : drive advance (.operand []) (Token.scan text) with
    | error refusal => simp [hs] at h
    | ok s =>
        refine ⟨s, (hdrive s).mp hs, ?_⟩
        cases hf : s.finish? with
        | none => simp [hs, hf] at h
        | some g =>
            simp only [hs, hf, Except.ok.injEq] at h
            rw [h]
  · rintro ⟨s, hs, hf⟩
    rw [parse, (hdrive s).mpr hs]
    simp only [hf]

namespace ParserState

/-- The state inside a parenthesis around which some frames are open. -/
def inside (stack : List Frame) : ParserState → ParserState
  | .operand inner => .operand (inner ++ .paren :: stack)
  | .complete value inner => .complete value (inner ++ .paren :: stack)

/-- What is settled inside a parenthesis leaves the frames around it alone. -/
theorem settle_inside (value : Formula) (inner stack : List Frame) :
    settle value (inner ++ .paren :: stack) = (settle value inner).inside stack := by
  induction inner generalizing value with
  | nil => rfl
  | cons frame inner ih =>
      cases frame with
      | unary op => exact ih _
      | binary op left => rfl
      | paren => rfl

/-- Operators are closed up to the parenthesis only. -/
theorem collapse_inside (closed : BinaryOp → Bool) (value : Formula) (inner stack : List Frame) :
    collapse closed value (inner ++ .paren :: stack) =
      ((collapse closed value inner).1, (collapse closed value inner).2 ++ .paren :: stack) := by
  induction inner generalizing value with
  | nil => rfl
  | cons frame inner ih =>
      cases frame with
      | unary op => rfl
      | binary op left =>
          rw [List.cons_append, collapse, collapse]
          split
          · exact ih _
          · rfl
      | paren => rfl

/-- What is open around a parenthesis does not change how the machine goes on inside. -/
theorem step_inside {s s' : ParserState} {t : Token} (h : s.step t = some s')
    (stack : List Frame) : (s.inside stack).step t = some (s'.inside stack) := by
  cases s with
  | operand inner =>
      cases t with
      | ident name =>
          obtain rfl := Option.some.inj h
          exact congrArg some (settle_inside _ inner stack)
      | const value =>
          obtain rfl := Option.some.inj h
          exact congrArg some (settle_inside _ inner stack)
      | unary op =>
          obtain rfl := Option.some.inj h
          rfl
      | openParen =>
          obtain rfl := Option.some.inj h
          rfl
      | closeParen => exact nomatch h
      | binary op => exact nomatch h
      | stray c => exact nomatch h
  | complete value inner =>
      cases t with
      | binary op =>
          obtain rfl := Option.some.inj h
          simp only [inside, step, collapse_inside, List.cons_append]
      | closeParen =>
          rw [step] at h
          rw [inside, step, collapse_inside]
          generalize collapse (fun _ => true) value inner = result at h ⊢
          obtain ⟨closed, rest⟩ := result
          cases rest with
          | nil => exact nomatch h
          | cons frame rest =>
              cases frame with
              | unary op => exact nomatch h
              | binary op left => exact nomatch h
              | paren =>
                  obtain rfl := Option.some.inj h
                  exact congrArg some (settle_inside closed rest stack)
      | ident name => exact nomatch h
      | const value => exact nomatch h
      | unary op => exact nomatch h
      | openParen => exact nomatch h
      | stray c => exact nomatch h

/-- The machine reads inside a parenthesis as it does at the start. -/
theorem reads_inside {s s' : ParserState} {ts : List Token} (h : s.reads ts = some s')
    (stack : List Frame) : (s.inside stack).reads ts = some (s'.inside stack) := by
  induction ts generalizing s with
  | nil =>
      obtain rfl := Option.some.inj h
      rfl
  | cons t ts ih =>
      rw [reads, List.foldlM_cons] at h
      obtain ⟨r, hr, hrest⟩ := Option.bind_eq_some_iff.mp h
      rw [reads, List.foldlM_cons, step_inside hr stack]
      exact ih hrest

/-- A formula in parentheses is read as an operand. -/
theorem reads_parenthesised {s : ParserState} {ts : List Token} {f : Formula}
    (h : (operand []).reads ts = some s) (hf : s.finish? = some f) (stack : List Frame) :
    (operand stack).reads (.openParen :: ts ++ [.closeParen]) = some (settle f stack) := by
  have hinside := reads_inside h stack
  rw [List.cons_append, reads, List.foldlM_cons]
  change ((operand []).inside stack).reads (ts ++ [.closeParen]) = _
  rw [reads_append, hinside, Option.bind_some, reads, List.foldlM_cons]
  cases s with
  | operand inner => simp [finish?] at hf
  | complete value inner =>
      rw [finish?] at hf
      rw [inside, step, collapse_inside]
      generalize collapse (fun _ => true) value inner = result at hf ⊢
      obtain ⟨closed, rest⟩ := result
      cases rest with
      | nil =>
          obtain rfl := Option.some.inj hf
          rfl
      | cons frame rest => simp at hf

end ParserState

end ProcessLogic.Formula
