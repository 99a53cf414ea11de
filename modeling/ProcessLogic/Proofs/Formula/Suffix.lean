import ProcessLogic.Formula.Nnf

/-!
# Normal forms speak about the rest of a trace

What holds at a position depends only on the events from there on, and `until` and `release`
unfold by one event at a time. Past the end of a trace every temporal operator has its value
whatever it is applied to.
-/

namespace ProcessLogic.Nnf

section Equations

-- one equation for each operator, so that no proof unfolds `holdsAt`

variable {events : Trace} {p q : Nnf} {i : Nat}

theorem holdsAt_literal {negated : Bool} {name : String} :
    (literal negated name).holdsAt events i =
      match events[i]? with
      | some event => event.contains name != negated
      | none => negated := rfl

theorem holdsAt_const {value : Bool} : (const value).holdsAt events i = value := rfl

theorem holdsAt_and :
    (and p q).holdsAt events i = (p.holdsAt events i && q.holdsAt events i) := rfl

theorem holdsAt_or :
    (or p q).holdsAt events i = (p.holdsAt events i || q.holdsAt events i) := rfl

theorem holdsAt_next : (next p).holdsAt events i =
    (decide (i + 1 < events.length) && p.holdsAt events (i + 1)) := rfl

theorem holdsAt_weakNext : (weakNext p).holdsAt events i =
    (decide (events.length ≤ i + 1) || p.holdsAt events (i + 1)) := rfl

theorem holdsAt_until : («until» p q).holdsAt events i =
    (positions i events.length).any fun k =>
      q.holdsAt events k && (positions i k).all fun j => p.holdsAt events j := rfl

theorem holdsAt_release : (release p q).holdsAt events i =
    (positions i events.length).all fun k =>
      q.holdsAt events k || (positions i k).any fun j => p.holdsAt events j := rfl

end Equations

/-- The positions from `i` on and before `n`. -/
theorem mem_positions {i n k : Nat} : k ∈ positions i n ↔ i ≤ k ∧ k < n := by
  unfold positions
  rw [List.mem_range'_1]
  omega

/-- Moving both ends by one moves the positions by one. -/
theorem positions_succ (i n : Nat) : positions (i + 1) (n + 1) = (positions i n).map (· + 1) := by
  rw [positions, positions, Nat.add_sub_add_right]
  simp only [Nat.add_comm _ 1, List.map_add_range']

/-- The positions from the start on are the first and those after it. -/
theorem positions_zero_succ (n : Nat) :
    positions 0 (n + 1) = 0 :: (positions 0 n).map (· + 1) := by
  rw [← positions_succ]
  simp [positions, List.range'_succ]

theorem positions_of_le {i n : Nat} (h : n ≤ i) : positions i n = [] := by
  rw [positions, Nat.sub_eq_zero_of_le h]
  rfl

/-- Positions in the rest of a trace are one less than in the trace. -/
theorem holdsAt_cons_succ (event : Event) (rest : Trace) (f : Nnf) (i : Nat) :
    f.holdsAt (event :: rest) (i + 1) = f.holdsAt rest i := by
  induction f generalizing i with
  | literal negated name => rfl
  | const value => rfl
  | and p q ihp ihq => rw [holdsAt_and, holdsAt_and, ihp, ihq]
  | or p q ihp ihq => rw [holdsAt_or, holdsAt_or, ihp, ihq]
  | next p ih => simp only [holdsAt_next, ih, List.length_cons, Nat.add_lt_add_iff_right]
  | weakNext p ih => simp only [holdsAt_weakNext, ih, List.length_cons, Nat.add_le_add_iff_right]
  | «until» p q ihp ihq =>
      simp only [holdsAt_until, List.length_cons, positions_succ, List.any_map, List.all_map,
        Function.comp_def, ihp, ihq]
  | release p q ihp ihq =>
      simp only [holdsAt_release, List.length_cons, positions_succ, List.any_map, List.all_map,
        Function.comp_def, ihp, ihq]

theorem holds_and (p q : Nnf) (events : Trace) :
    (and p q).holds events = (p.holds events && q.holds events) := rfl

theorem holds_or (p q : Nnf) (events : Trace) :
    (or p q).holds events = (p.holds events || q.holds events) := rfl

section Unfolding

variable (p q : Nnf) (event : Event) (rest : Trace)

/-- Next asks for an event after the first, and for the rest of the trace. -/
theorem holds_next_cons : (next p).holds (event :: rest) = (!rest.isEmpty && p.holds rest) := by
  unfold holds
  rw [holdsAt_next, holdsAt_cons_succ]
  cases rest <;> simp

/-- Weak next asks for the rest of the trace, if there is an event after the first. -/
theorem holds_weakNext_cons :
    (weakNext p).holds (event :: rest) = (rest.isEmpty || p.holds rest) := by
  unfold holds
  rw [holdsAt_weakNext, holdsAt_cons_succ]
  cases rest <;> simp

/-- `until` holds now if its goal does, or if it can be put off by one event. -/
theorem holds_until_cons : («until» p q).holds (event :: rest) =
    (q.holds (event :: rest) || (p.holds (event :: rest) && («until» p q).holds rest)) := by
  unfold holds
  simp only [holdsAt_until, List.length_cons, positions_zero_succ, List.any_cons,
    List.any_map, List.all_cons, List.all_map, Function.comp_def, holdsAt_cons_succ,
    positions_of_le (Nat.le_refl 0), List.all_nil, Bool.and_true]
  congr 1
  rw [Bool.eq_iff_iff]
  simp only [List.any_eq_true, Bool.and_eq_true]
  grind

/-- `release` holds now if its invariant does and it is released now or after one event. -/
theorem holds_release_cons : (release p q).holds (event :: rest) =
    (q.holds (event :: rest) && (p.holds (event :: rest) || (release p q).holds rest)) := by
  unfold holds
  simp only [holdsAt_release, List.length_cons, positions_zero_succ, List.any_cons,
    List.any_map, List.all_cons, List.all_map, Function.comp_def, holdsAt_cons_succ,
    positions_of_le (Nat.le_refl 0), List.any_nil, Bool.or_false]
  congr 1
  rw [Bool.eq_iff_iff]
  simp only [List.all_eq_true, Bool.or_eq_true]
  grind

end Unfolding

/-- Only the propositions of an event matter. -/
theorem holds_cons_congr {event event' : Event} (h : ∀ p, p ∈ event ↔ p ∈ event')
    (rest : Trace) (f : Nnf) : f.holds (event :: rest) = f.holds (event' :: rest) := by
  induction f with
  | literal negated name =>
      have hc : event.contains name = event'.contains name := by
        rw [Bool.eq_iff_iff, List.contains_iff_mem, List.contains_iff_mem]
        exact h name
      change (event.contains name != negated) = (event'.contains name != negated)
      rw [hc]
  | const value => rfl
  | and p q ihp ihq => rw [holds_and, holds_and, ihp, ihq]
  | or p q ihp ihq => rw [holds_or, holds_or, ihp, ihq]
  | next p ih => rw [holds_next_cons, holds_next_cons]
  | weakNext p ih => rw [holds_weakNext_cons, holds_weakNext_cons]
  | «until» p q ihp ihq => rw [holds_until_cons, holds_until_cons, ihp, ihq]
  | release p q ihp ihq => rw [holds_release_cons, holds_release_cons, ihp, ihq]

end ProcessLogic.Nnf
