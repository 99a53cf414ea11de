import ProcessLogic.Proofs.Constraint.Expansion
import ProcessLogic.Proofs.Formula.NormalForm

/-!
# Templates that count

A formula that asks for an `a` after which another comes, and so on, holds if `a` occurs often
enough. So each of the templates that count looks at nothing but the number of events with its
activation.
-/

namespace ProcessLogic

open Formula Text

namespace Nnf

/-- Something holds at some time if it holds now or at some time after one event. -/
theorem holds_eventually_cons (p : Nnf) (event : Event) (rest : Trace) :
    p.eventually.holds (event :: rest) = (p.holds (event :: rest) || p.eventually.holds rest) := by
  rw [eventually, holds_until_cons]
  rfl

end Nnf

namespace Template

/-- An `a` that is followed by `n` more. -/
def repeated (a : Formula) : Nat → Formula
  | 0 => formula.someTime a
  | n + 1 => formula.someTime (.binary .and a (.unary .next (repeated a n)))

/-- The number of events with a proposition. -/
def count (name : String) (events : Trace) : Nat := events.countP fun event => event.contains name

theorem count_cons (name : String) (event : Event) (rest : Trace) :
    count name (event :: rest) = count name rest + if event.contains name then 1 else 0 :=
  List.countP_cons

section Repeated

variable {name : String} {n : Nat} {event : Event} {rest events : Trace}

/-- Once: in the first event or later. -/
theorem holds_nnf_repeated_zero_cons : (repeated (.prop name) 0).nnf.holds (event :: rest) =
    (event.contains name || (repeated (.prop name) 0).nnf.holds rest) := by
  rw [← Bool.bne_false (event.contains name)]
  exact Nnf.holds_eventually_cons _ event rest

/-- Once more: in the first event with the others after it, or all of them later. -/
theorem holds_nnf_repeated_succ_cons : (repeated (.prop name) (n + 1)).nnf.holds (event :: rest) =
    ((event.contains name && (!rest.isEmpty && (repeated (.prop name) n).nnf.holds rest)) ||
      (repeated (.prop name) (n + 1)).nnf.holds rest) := by
  rw [← Bool.bne_false (event.contains name), ← Nnf.holds_next_cons _ event]
  exact Nnf.holds_eventually_cons _ event rest

/-- An event with the proposition is followed by `n` more exactly if there are more than `n`. -/
theorem holds_nnf_repeated_iff :
    (repeated (.prop name) n).nnf.holds events = true ↔ n < count name events := by
  induction events generalizing n with
  | nil => cases n <;> exact iff_of_false Bool.false_ne_true (Nat.not_lt_zero _)
  | cons event rest ih =>
      cases n with
      | zero =>
          rw [holds_nnf_repeated_zero_cons, Bool.or_eq_true, ih, count_cons]
          cases event.contains name <;> simp
      | succ n =>
          have hmore : n < count name rest → (!rest.isEmpty) = true := by
            cases rest with
            | nil => exact fun h => absurd h (Nat.not_lt_zero n)
            | cons event rest => exact fun _ => rfl
          rw [holds_nnf_repeated_succ_cons, Bool.or_eq_true, Bool.and_eq_true, Bool.and_eq_true, ih,
            ih, and_iff_right_of_imp hmore, count_cons]
          cases event.contains name with
          | false => simp
          | true =>
              rw [if_pos rfl, and_iff_right rfl]
              omega

/-- An `a` that is followed by `n` more asks for more than `n` events with it. -/
theorem holds_repeated_iff :
    Holds events (repeated (.prop name) n) 0 ↔ n < count name events := by
  rw [← holdsAt_normal_true_iff]
  exact holds_nnf_repeated_iff

/-- Its negation allows at most `n` of them. -/
theorem holds_not_repeated_iff :
    Holds events (.unary .not (repeated (.prop name) n)) 0 ↔ count name events < n + 1 := by
  rw [Holds, holds_repeated_iff]
  omega

end Repeated

/-- What a template that counts demands of the number of events with its activation. -/
def tally? : Template → Option (Nat → Prop)
  | existence => some fun c => 1 ≤ c
  | existence2 => some fun c => 2 ≤ c
  | existence3 => some fun c => 3 ≤ c
  | absence => some fun c => c < 1
  | absence2 => some fun c => c < 2
  | absence3 => some fun c => c < 3
  | exactly1 => some fun c => c = 1
  | exactly2 => some fun c => c = 2
  | _ => none

theorem arity_of_tally? {t : Template} {demand : Nat → Prop} (h : t.tally? = some demand) :
    t.arity = 1 := by
  cases t with
  | existence | existence2 | existence3 | absence | absence2 | absence3 | exactly1 | exactly2 => rfl
  | _ => exact nomatch h

/-- The formula of a template that counts holds exactly for the numbers that it demands. -/
theorem holds_formula_iff_tally {t : Template} {demand : Nat → Prop} (h : t.tally? = some demand)
    (events : Trace) (a : String) (b : Formula) :
    Holds events (t.formula (.prop a) b) 0 ↔ demand (count a events) := by
  cases t with
  | existence =>
      obtain rfl := Option.some.inj h
      exact holds_repeated_iff (n := 0)
  | existence2 =>
      obtain rfl := Option.some.inj h
      exact holds_repeated_iff (n := 1)
  | existence3 =>
      obtain rfl := Option.some.inj h
      exact holds_repeated_iff (n := 2)
  | absence =>
      obtain rfl := Option.some.inj h
      exact holds_not_repeated_iff (n := 0)
  | absence2 =>
      obtain rfl := Option.some.inj h
      exact holds_not_repeated_iff (n := 1)
  | absence3 =>
      obtain rfl := Option.some.inj h
      exact holds_not_repeated_iff (n := 2)
  | exactly1 =>
      obtain rfl := Option.some.inj h
      refine (and_congr (holds_repeated_iff (n := 0)) (holds_not_repeated_iff (n := 1))).trans ?_
      omega
  | exactly2 =>
      obtain rfl := Option.some.inj h
      refine (and_congr (holds_repeated_iff (n := 1)) (holds_not_repeated_iff (n := 2))).trans ?_
      omega
  | _ => exact nomatch h

/-- A template that counts, over an activity of any name, expands to a text that is read as a
formula which holds for a trace exactly if the number of events with the proposition of the
activity is as the template demands. -/
theorem counts_events {t : Template} {demand : Nat → Prop} (h : t.tally? = some demand)
    (name activity : String) (hname : trimmed name = t.name) :
    ∃ r f, Requirement.expand name [activity] = .ok r ∧ parse r.formula = .ok f ∧
      ∀ events : Trace, f.nnf.holds events = true ↔
        demand (events.countP fun event => event.contains (proposition activity)) := by
  have hlength : [activity].length = t.arity := (arity_of_tally? h).symm
  refine ⟨_, _, Requirement.expand_of_trimmed hname hlength, t.parse_requirement _, ?_⟩
  intro events
  exact (holdsAt_normal_true_iff events _ 0).trans (holds_formula_iff_tally h events _ _)

/-- Two events of four have the proposition, one of them with another; one event is too few. -/
theorem counts_events_twice : ∃ r f, Requirement.expand " Exactly2" ["2 x"] = .ok r ∧
    parse r.formula = .ok f ∧ f.nnf.holds [["_2x"], [], ["a", "_2x"], ["x"]] = true ∧
    ¬ f.nnf.holds [["_2x"]] = true := by
  have hproposition : proposition "2 x" = "_2x" := by decide
  obtain ⟨r, f, hexpand, hf, hcounts⟩ :=
    counts_events (t := .exactly2) rfl " Exactly2" "2 x" (by decide)
  rw [hproposition] at hcounts
  exact ⟨r, f, hexpand, hf, (hcounts _).mpr (by decide),
    fun h => absurd ((hcounts _).mp h) (by decide)⟩

end Template

end ProcessLogic
