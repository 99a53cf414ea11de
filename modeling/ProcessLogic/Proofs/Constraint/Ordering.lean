import ProcessLogic.Proofs.Constraint.Expansion
import ProcessLogic.Proofs.Formula.NormalForm

/-!
# Templates about order

Most templates about two activities relate the positions at which their activation occurs to those
at which their target does. The relation is stated here with quantifiers over positions and no
temporal operators, and the formula of the template is shown to demand it of every trace.
-/

namespace ProcessLogic

open Formula Text

/-- A demand on the positions of an activation and those of a target. -/
abbrev Placement := (Nat → Prop) → (Nat → Prop) → Prop

namespace Placement

/-- Every `a` has a `b` at its position or later. -/
def response : Placement := fun a b => ∀ i, a i → ∃ k, i ≤ k ∧ b k

/-- Every `a` has a later `b` with no `a` strictly between them. -/
def alternateResponse : Placement := fun a b =>
  ∀ i, a i → ∃ k, i < k ∧ b k ∧ ∀ j, i < j → j < k → ¬ a j

/-- Every `a` has a `b` at the next position. -/
def chainResponse : Placement := fun a b => ∀ i, a i → b (i + 1)

/-- Every `b` has an `a` at its position or earlier. -/
def precedence : Placement := fun a b => ∀ k, b k → ∃ j, j ≤ k ∧ a j

/-- Every `b` has an `a` at its position or earlier, with no other `b` from that `a` on. -/
def alternatePrecedence : Placement := fun a b =>
  ∀ k, b k → ∃ j, j ≤ k ∧ a j ∧ ∀ i, j ≤ i → i < k → ¬ b i

/-- Every `b` has an `a` at the position before. -/
def chainPrecedence : Placement := fun a b => ∀ k, b k → 0 < k ∧ a (k - 1)

/-- No `a` has a `b` at its position or later. -/
def notSuccession : Placement := fun a b => ∀ i, a i → ¬ ∃ k, i ≤ k ∧ b k

/-- No `a` has a `b` at the next position. -/
def notChainSuccession : Placement := fun a b => ∀ i, a i → ¬ b (i + 1)

/-- Both of two demands. -/
def both (first second : Placement) : Placement := fun a b => first a b ∧ second a b

/-- Either nothing comes before a position, or something comes last before it. -/
theorem none_or_exists_last (p : Nat → Prop) (k : Nat) :
    (∀ i, i < k → ¬ p i) ∨ ∃ m, m < k ∧ p m ∧ ∀ i, m < i → i < k → ¬ p i := by
  induction k with
  | zero => exact Or.inl fun i hi => absurd hi (Nat.not_lt_zero i)
  | succ k ih =>
      by_cases hk : p k
      · exact Or.inr ⟨k, Nat.lt_succ_self k, hk, fun i hlow hhigh => by omega⟩
      -- what is last before `k` stays so, for `k` itself is no candidate
      have hstep : ∀ i, i < k + 1 → (i < k → ¬ p i) → ¬ p i := by
        intro i hi h
        rcases Nat.lt_succ_iff_lt_or_eq.mp hi with hlt | rfl
        · exact h hlt
        · exact hk
      rcases ih with hnone | ⟨m, hm, hpm, hlast⟩
      · exact Or.inl fun i hi => hstep i hi (hnone i)
      · exact Or.inr ⟨m, Nat.lt_succ_of_lt hm, hpm, fun i hmi hi => hstep i hi (hlast i hmi)⟩

/-- Alternate precedence is precedence from the start, and again after every `b`. -/
theorem alternatePrecedence_iff {a b : Nat → Prop} : alternatePrecedence a b ↔
    precedence a b ∧
      ∀ m, b m → ∀ k, m + 1 ≤ k → b k → ∃ j, m + 1 ≤ j ∧ j ≤ k ∧ a j := by
  constructor
  · intro h
    refine ⟨fun k hk => ?_, fun m hm k hmk hk => ?_⟩
    · obtain ⟨j, hjk, hj, -⟩ := h k hk
      exact ⟨j, hjk, hj⟩
    · obtain ⟨j, hjk, hj, hbetween⟩ := h k hk
      refine ⟨j, Nat.lt_of_not_le fun hjm => ?_, hjk, hj⟩
      exact hbetween m hjm hmk hm
  · rintro ⟨hstart, hagain⟩ k hk
    rcases none_or_exists_last b k with hnone | ⟨m, hmk, hm, hlast⟩
    · obtain ⟨j, hjk, hj⟩ := hstart k hk
      exact ⟨j, hjk, hj, fun i _ hik => hnone i hik⟩
    · obtain ⟨j, hmj, hjk, hj⟩ := hagain m hm k hmk hk
      exact ⟨j, hjk, hj, fun i hji hik => hlast i (Nat.lt_of_lt_of_le hmj hji) hik⟩

end Placement

namespace Formula

section Shapes

-- the shapes of formulas that the templates about order are made of

variable {events : Trace} {a b : String} {p q : Formula} {i : Nat}

/-- A proposition holds eventually if it occurs at the position or later. -/
theorem holds_eventually_prop_iff :
    Holds events (.unary .eventually (.prop b)) i ↔ ∃ k, i ≤ k ∧ Occurs events b k := by
  simp only [Holds]
  exact exists_congr fun k => and_congr_right fun _ => and_iff_right_of_imp Occurs.lt

/-- A proposition holds next if it occurs at the next position. -/
theorem holds_next_prop_iff :
    Holds events (.unary .next (.prop b)) i ↔ Occurs events b (i + 1) := by
  simp only [Holds]
  exact and_iff_right_of_imp Occurs.lt

/-- What is demanded whenever something holds that holds only at positions of the trace. -/
theorem holds_always_implies_iff (hp : ∀ i, Holds events p i → i < events.length) :
    Holds events (.unary .always (.binary .implies p q)) 0 ↔
      ∀ i, Holds events p i → Holds events q i := by
  simp only [Holds]
  constructor
  · exact fun h i hi => h i (Nat.zero_le i) (hp i hi) hi
  · exact fun h i _ _ hi => h i hi

/-- A formula follows a proposition always if it holds wherever that occurs. -/
theorem holds_always_prop_implies_iff :
    Holds events (.unary .always (.binary .implies (.prop a) q)) 0 ↔
      ∀ i, Occurs events a i → Holds events q i :=
  holds_always_implies_iff fun _ => Occurs.lt

/-- A formula holds before a proposition always if it holds wherever that occurs next. -/
theorem holds_always_next_implies_iff :
    Holds events (.unary .always (.binary .implies (.unary .next (.prop b)) q)) 0 ↔
      ∀ i, Occurs events b (i + 1) → Holds events q i := by
  have hlt : ∀ i, Holds events (.unary .next (.prop b)) i → i < events.length :=
    fun i h => Nat.lt_of_succ_lt (holds_next_prop_iff.mp h).lt
  simp only [holds_always_implies_iff hlt, holds_next_prop_iff]

end Shapes

end Formula

namespace Template

section Meaning

variable {events : Trace} {a b : String} {i : Nat}

/-- The formula of responses demands a response to every activation. -/
theorem holds_responseFormula_iff :
    Holds events (formula.responseFormula (.prop a) (.prop b)) 0 ↔
      Placement.response (Occurs events a) (Occurs events b) := by
  rw [formula.responseFormula, holds_always_prop_implies_iff]
  exact forall₂_congr fun i _ => holds_eventually_prop_iff

/-- From the next position on there is no `a` until a `b` comes. -/
theorem holds_alternateResponseFormula_iff :
    Holds events (formula.alternateResponseFormula (.prop a) (.prop b)) 0 ↔
      Placement.alternateResponse (Occurs events a) (Occurs events b) := by
  rw [formula.alternateResponseFormula, holds_always_prop_implies_iff]
  refine forall₂_congr fun i _ => ?_
  simp only [Holds]
  constructor
  · rintro ⟨-, k, hik, -, hk, hbetween⟩
    exact ⟨k, hik, hk, hbetween⟩
  · rintro ⟨k, hik, hk, hbetween⟩
    exact ⟨Nat.lt_of_le_of_lt hik hk.lt, k, hik, hk.lt, hk, hbetween⟩

/-- The formula of chain responses demands one at the next position. -/
theorem holds_chainResponseFormula_iff :
    Holds events (formula.chainResponseFormula (.prop a) (.prop b)) 0 ↔
      Placement.chainResponse (Occurs events a) (Occurs events b) := by
  rw [formula.chainResponseFormula, holds_always_prop_implies_iff]
  exact forall₂_congr fun i _ => holds_next_prop_iff

/-- Precedence from a position on: no `b` comes until an `a` does, which may never come. -/
theorem holds_beforeFormula_iff :
    Holds events (formula.beforeFormula (.prop a) (.prop b)) i ↔
      ∀ k, i ≤ k → Occurs events b k → ∃ j, i ≤ j ∧ j ≤ k ∧ Occurs events a j := by
  simp only [formula.beforeFormula, Holds]
  rw [weakUntil_iff_release]
  constructor
  · intro h k hik hb
    rcases h k hik hb.lt with (hnot | ha) | ⟨j, hij, hjk, ha⟩
    · exact absurd hb hnot
    · exact ⟨k, hik, Nat.le_refl k, ha⟩
    · exact ⟨j, hij, Nat.le_of_lt hjk, ha⟩
  · intro h k hik _
    by_cases hb : Occurs events b k
    · obtain ⟨j, hij, hjk, ha⟩ := h k hik hb
      rcases Nat.lt_or_eq_of_le hjk with hlt | rfl
      · exact Or.inr ⟨j, hij, hlt, ha⟩
      · exact Or.inl (Or.inr ha)
    · exact Or.inl (Or.inl hb)

/-- The formula of precedence demands an activation no later than every target. -/
theorem holds_beforeFormula_zero_iff :
    Holds events (formula.beforeFormula (.prop a) (.prop b)) 0 ↔
      Placement.precedence (Occurs events a) (Occurs events b) := by
  rw [holds_beforeFormula_iff]
  simp only [Nat.zero_le, true_and, forall_const]
  rfl

/-- After a `b` at the last position nothing is left to precede. -/
theorem holds_alternatePrecedenceFormula_iff :
    Holds events (formula.alternatePrecedenceFormula (.prop a) (.prop b)) 0 ↔
      Placement.alternatePrecedence (Occurs events a) (Occurs events b) := by
  rw [Placement.alternatePrecedence_iff, formula.alternatePrecedenceFormula, Holds,
    holds_beforeFormula_zero_iff, holds_always_prop_implies_iff]
  refine and_congr_right fun _ => forall₂_congr fun m _ => ?_
  rw [Holds, holds_beforeFormula_iff]
  constructor
  · exact fun h k hmk hk => h (Nat.lt_of_le_of_lt hmk hk.lt) k hmk hk
  · exact fun h _ => h

/-- The formula of chain precedence demands one at the position before. -/
theorem holds_chainPrecedenceFormula_iff :
    Holds events (formula.chainPrecedenceFormula (.prop a) (.prop b)) 0 ↔
      Placement.chainPrecedence (Occurs events a) (Occurs events b) := by
  rw [formula.chainPrecedenceFormula, Holds, holds_always_next_implies_iff]
  constructor
  · rintro ⟨hnext, hfirst⟩ k hk
    cases k with
    | zero => exact absurd hk hfirst
    | succ k => exact ⟨Nat.succ_pos k, hnext k hk⟩
  · intro h
    exact ⟨fun i hi => (h (i + 1) hi).2, fun hfirst => absurd (h 0 hfirst).1 (Nat.lt_irrefl 0)⟩

/-- The formula of no succession forbids a target from an activation on. -/
theorem holds_notSuccession_iff :
    Holds events (notSuccession.formula (.prop a) (.prop b)) 0 ↔
      Placement.notSuccession (Occurs events a) (Occurs events b) := by
  rw [formula, holds_always_prop_implies_iff]
  exact forall₂_congr fun i _ => not_congr holds_eventually_prop_iff

/-- The formula of no chain succession forbids a target right after an activation. -/
theorem holds_notChainSuccession_iff :
    Holds events (notChainSuccession.formula (.prop a) (.prop b)) 0 ↔
      Placement.notChainSuccession (Occurs events a) (Occurs events b) := by
  rw [formula, holds_always_prop_implies_iff]
  exact forall₂_congr fun i _ => not_congr holds_next_prop_iff

/-- The formula that looks from a `b` back to the position before it demands the same. -/
theorem holds_notChainPrecedence_iff :
    Holds events (notChainPrecedence.formula (.prop a) (.prop b)) 0 ↔
      Placement.notChainSuccession (Occurs events a) (Occurs events b) := by
  rw [formula, holds_always_next_implies_iff]
  exact forall_congr' fun i => imp_not_comm

/-- Both of two demands hold if two formulas do that make them. -/
theorem holds_both_iff {p q : Formula} {first second : Placement}
    (hp : Holds events p 0 ↔ first (Occurs events a) (Occurs events b))
    (hq : Holds events q 0 ↔ second (Occurs events a) (Occurs events b)) :
    Holds events (.binary .and p q) 0 ↔
      Placement.both first second (Occurs events a) (Occurs events b) := by
  rw [Holds, hp, hq]
  rfl

end Meaning

/-- What a template about order demands of the positions of its activation and its target. -/
def placement? : Template → Option Placement
  | response => some .response
  | alternateResponse => some .alternateResponse
  | chainResponse => some .chainResponse
  | precedence => some .precedence
  | alternatePrecedence => some .alternatePrecedence
  | chainPrecedence => some .chainPrecedence
  | succession => some (.both .response .precedence)
  | alternateSuccession => some (.both .alternateResponse .alternatePrecedence)
  | chainSuccession => some (.both .chainResponse .chainPrecedence)
  | notResponse | notPrecedence | notSuccession => some .notSuccession
  | notChainResponse | notChainPrecedence | notChainSuccession => some .notChainSuccession
  | _ => none

theorem arity_of_placement? {t : Template} {placement : Placement}
    (h : t.placement? = some placement) : t.arity = 2 := by
  cases t with
  | response | alternateResponse | chainResponse | precedence | alternatePrecedence
  | chainPrecedence | succession | alternateSuccession | chainSuccession | notResponse
  | notPrecedence | notSuccession | notChainResponse | notChainPrecedence
  | notChainSuccession => rfl
  | _ => exact nomatch h

/-- The formula of a template about order demands its placement. -/
theorem holds_formula_iff_placement {t : Template} {placement : Placement}
    (h : t.placement? = some placement) (events : Trace) (a b : String) :
    Holds events (t.formula (.prop a) (.prop b)) 0 ↔
      placement (Occurs events a) (Occurs events b) := by
  cases t with
  | response =>
      obtain rfl := Option.some.inj h
      exact holds_responseFormula_iff
  | alternateResponse =>
      obtain rfl := Option.some.inj h
      exact holds_alternateResponseFormula_iff
  | chainResponse =>
      obtain rfl := Option.some.inj h
      exact holds_chainResponseFormula_iff
  | precedence =>
      obtain rfl := Option.some.inj h
      exact holds_beforeFormula_zero_iff
  | alternatePrecedence =>
      obtain rfl := Option.some.inj h
      exact holds_alternatePrecedenceFormula_iff
  | chainPrecedence =>
      obtain rfl := Option.some.inj h
      exact holds_chainPrecedenceFormula_iff
  | succession =>
      obtain rfl := Option.some.inj h
      exact holds_both_iff holds_responseFormula_iff holds_beforeFormula_zero_iff
  | alternateSuccession =>
      obtain rfl := Option.some.inj h
      exact holds_both_iff holds_alternateResponseFormula_iff holds_alternatePrecedenceFormula_iff
  | chainSuccession =>
      obtain rfl := Option.some.inj h
      exact holds_both_iff holds_chainResponseFormula_iff holds_chainPrecedenceFormula_iff
  | notResponse | notPrecedence | notSuccession =>
      obtain rfl := Option.some.inj h
      exact holds_notSuccession_iff
  | notChainResponse | notChainSuccession =>
      obtain rfl := Option.some.inj h
      exact holds_notChainSuccession_iff
  | notChainPrecedence =>
      obtain rfl := Option.some.inj h
      exact holds_notChainPrecedence_iff
  | _ => exact nomatch h

/-- A template about order, over activities of any names, expands to a text that is read as a
formula which holds for a trace exactly if the positions of the propositions of the activities are
placed as the template demands. -/
theorem orders_positions {t : Template} {placement : Placement}
    (h : t.placement? = some placement) (name x y : String) (hname : trimmed name = t.name) :
    ∃ r f, Requirement.expand name [x, y] = .ok r ∧ parse r.formula = .ok f ∧
      ∀ events : Trace, f.nnf.holds events = true ↔
        placement (Occurs events (proposition x)) (Occurs events (proposition y)) := by
  have hlength : [x, y].length = t.arity := (arity_of_placement? h).symm
  refine ⟨_, _, Requirement.expand_of_trimmed hname hlength, t.parse_requirement _, ?_⟩
  intro events
  exact (holdsAt_normal_true_iff events _ 0).trans (holds_formula_iff_placement h events _ _)

/-- Each of two `b` has an `a` of its own, the second one at its own position; without this `a`
the first `b` stands between the second and its `a`. -/
theorem orders_positions_alternate : ∃ r f,
    Requirement.expand "Alternate Precedence" ["A", "B"] = .ok r ∧ parse r.formula = .ok f ∧
    f.nnf.holds [["a"], ["b"], [], ["a", "b"]] = true ∧
    ¬ f.nnf.holds [["a"], ["b"], [], ["b"]] = true := by
  have ha : proposition "A" = "a" := by decide
  have hb : proposition "B" = "b" := by decide
  obtain ⟨r, f, hexpand, hf, hholds⟩ :=
    orders_positions (t := .alternatePrecedence) rfl "Alternate Precedence" "A" "B" (by decide)
  rw [ha, hb] at hholds
  have hplaced : ∀ k, k < 4 → Occurs [["a"], ["b"], [], ["a", "b"]] "b" k →
      ∃ j, j ≤ k ∧ Occurs [["a"], ["b"], [], ["a", "b"]] "a" j ∧
        ∀ i, j ≤ i → i < k → ¬ Occurs [["a"], ["b"], [], ["a", "b"]] "b" i := by
    decide
  refine ⟨r, f, hexpand, hf, (hholds _).mpr fun k hk => hplaced k hk.lt hk, fun h => ?_⟩
  have hcrossed : ¬ ∃ j, j ≤ 3 ∧ Occurs [["a"], ["b"], [], ["b"]] "a" j ∧
      ∀ i, j ≤ i → i < 3 → ¬ Occurs [["a"], ["b"], [], ["b"]] "b" i := by
    decide
  exact hcrossed ((hholds _).mp h 3 (by decide))

end Template

end ProcessLogic
