import Mathlib.Data.Nat.Find
import Mathlib.Tactic.Tauto
import ProcessLogic.Formula.Semantics
import ProcessLogic.Proofs.Collection.Sorted
import ProcessLogic.Proofs.Formula.Evaluation

/-!
# Normal forms keep the meaning

The normal form of a formula holds exactly where the formula does, and the normal form of its
negation exactly where it does not. The duality of the two is proved first: after that only the
normal forms of plain formulas have to be compared with the meaning. All this is true past the
end of the trace as well.
-/

namespace ProcessLogic

namespace Nnf

/-- The propositions as they occur from left to right. -/
def occurrences : Nnf → List String
  | .literal _ name => [name]
  | .const _ => []
  | .until p q => p.occurrences ++ q.occurrences
  | .release p q => p.occurrences ++ q.occurrences
  | .or p q => p.occurrences ++ q.occurrences
  | .and p q => p.occurrences ++ q.occurrences
  | .next p => p.occurrences
  | .weakNext p => p.occurrences

/-- Only the propositions of a formula matter: others can be dropped from all events. -/
theorem holdsAt_map_filter {f : Nnf} {keep : String → Bool}
    (h : ∀ p ∈ f.occurrences, keep p = true) (events : Trace) (i : Nat) :
    f.holdsAt (events.map (List.filter keep)) i = f.holdsAt events i := by
  induction f generalizing i with
  | literal negated name =>
      have hname := h name List.mem_cons_self
      rw [holdsAt_literal, holdsAt_literal, List.getElem?_map]
      cases events[i]? with
      | none => rfl
      | some event => simp [hname]
  | const value => rfl
  | and p q ihp ihq =>
      obtain ⟨hp, hq⟩ := List.forall_mem_append.mp h
      rw [holdsAt_and, holdsAt_and, ihp hp, ihq hq]
  | or p q ihp ihq =>
      obtain ⟨hp, hq⟩ := List.forall_mem_append.mp h
      rw [holdsAt_or, holdsAt_or, ihp hp, ihq hq]
  | next p ih => rw [holdsAt_next, holdsAt_next, ih h, List.length_map]
  | weakNext p ih => rw [holdsAt_weakNext, holdsAt_weakNext, ih h, List.length_map]
  | «until» p q ihp ihq =>
      obtain ⟨hp, hq⟩ := List.forall_mem_append.mp h
      simp only [holdsAt_until, ihp hp, ihq hq, List.length_map]
  | release p q ihp ihq =>
      obtain ⟨hp, hq⟩ := List.forall_mem_append.mp h
      simp only [holdsAt_release, ihp hp, ihq hq, List.length_map]

section Meaning

variable {events : Trace} {p q : Nnf} {i : Nat}

/-- A plain literal holds where its proposition occurs. -/
theorem holdsAt_literal_iff {name : String} :
    (literal false name).holdsAt events i = true ↔ Formula.Occurs events name i := by
  rw [holdsAt_literal, Formula.Occurs]
  cases events[i]? <;> simp

/-- Until: the second holds at some position from here on, the first until then. -/
theorem holdsAt_until_iff : («until» p q).holdsAt events i = true ↔
    ∃ k, i ≤ k ∧ k < events.length ∧ q.holdsAt events k = true ∧
      ∀ j, i ≤ j → j < k → p.holdsAt events j = true := by
  simp only [holdsAt_until, List.any_eq_true, List.all_eq_true, Bool.and_eq_true, mem_positions,
    and_assoc, and_imp]

/-- Release: the second holds at every position up to one where the first holds. -/
theorem holdsAt_release_iff : (release p q).holdsAt events i = true ↔
    ∀ k, i ≤ k → k < events.length → q.holdsAt events k = true ∨
      ∃ j, i ≤ j ∧ j < k ∧ p.holdsAt events j = true := by
  simp only [holdsAt_release, List.any_eq_true, List.all_eq_true, Bool.or_eq_true, mem_positions,
    and_assoc, and_imp]

/-- Eventually: at some position from here on. -/
theorem holdsAt_eventually_iff : p.eventually.holdsAt events i = true ↔
    ∃ k, i ≤ k ∧ k < events.length ∧ p.holdsAt events k = true := by
  rw [eventually, holdsAt_until_iff]
  simp [holdsAt_const]

/-- Always: at every position from here on. -/
theorem holdsAt_always_iff : p.always.holdsAt events i = true ↔
    ∀ k, i ≤ k → k < events.length → p.holdsAt events k = true := by
  rw [always, holdsAt_release_iff]
  simp [holdsAt_const]

end Meaning

section Duality

variable {after : Nat → Option Nat} {events : Trace} {p q : Nnf} {i : Nat}

/-- One normal form is evaluated to the negation of the other, and stops where the other does. -/
structure DualAt (after : Nat → Option Nat) (events : Trace) (p p' : Nnf) (i : Nat) : Prop where
  eq_not : p'.evaluate after events i = (p.evaluate after events i).map (!·)

variable {p' q' : Nnf}

theorem DualAt.symm (h : DualAt after events p p' i) : DualAt after events p' p i where
  eq_not := by
    rw [h.eq_not, map_not_map_not]

/-- Where the machine finds what is meant, negations are meant. -/
theorem DualAt.holdsAt_eq {events : Trace} {i : Nat}
    (h : DualAt (fun k => some (k + 1)) events p p' i) :
    p'.holdsAt events i = !p.holdsAt events i := by
  have hsame : ∀ f : Nnf, f.evaluate (fun k => some (k + 1)) events i = some (f.holdsAt events i) :=
    fun f => evaluate_eq_holdsAt (fun _ _ => rfl) (Nat.le_add_right _ (i + 1)) f (by omega)
  have heq := h.eq_not
  rwa [hsame, hsame, Option.map_some, Option.some.injEq] at heq

theorem dualAt_const (value : Bool) (i : Nat) :
    DualAt after events (const value) (const !value) i :=
  ⟨rfl⟩

theorem dualAt_literal (name : String) (i : Nat) :
    DualAt after events (literal false name) (literal true name) i where
  eq_not := by
    rw [evaluate, evaluate]
    cases events[i]? <;> simp

/-- A disjunction is dual to the conjunction of the duals. -/
theorem dualAt_or_and (hp : DualAt after events p p' i) (hq : DualAt after events q q' i) :
    DualAt after events (or p q) (and p' q') i where
  eq_not := by
    rw [evaluate_and, evaluate_or, hp.eq_not, hq.eq_not]
    rcases p.evaluate after events i with _ | _ | _ <;> rfl

theorem dualAt_and_or (hp : DualAt after events p p' i) (hq : DualAt after events q q' i) :
    DualAt after events (and p q) (or p' q') i :=
  (dualAt_or_and hp.symm hq.symm).symm

/-- Strong and weak next are dual, whatever position comes next. -/
theorem dualAt_next_weakNext (h : ∀ k, DualAt after events p p' k) :
    DualAt after events (next p) (weakNext p') i where
  eq_not := by
    rw [evaluate_weakNext, evaluate_next]
    rcases after i with _ | k
    · rfl
    · rw [Option.bind_some, Option.bind_some, (h k).eq_not]
      by_cases hlt : k < events.length
      · rw [if_pos hlt, if_neg (Nat.not_le.mpr hlt)]
      · rw [if_neg hlt, if_pos (Nat.le_of_not_lt hlt)]
        rfl

/-- Until is dual to the release of the duals. -/
theorem dualAt_until_release (hp : ∀ j, DualAt after events p p' j)
    (hq : ∀ j, DualAt after events q q' j) (i : Nat) :
    DualAt after events («until» p q) (release p' q') i where
  eq_not := by
    rw [evaluate_release, evaluate_until]
    refine allM_not fun k => ?_
    have hbefore : ∀ items : List Nat, (items.anyM fun j => p'.evaluate after events j) =
        (items.allM fun j => p.evaluate after events j).map (!·) := by
      intro items
      rw [allM_not fun j => (hp j).symm.eq_not, map_not_map_not]
    rw [(hq k).eq_not, hbefore]
    rcases q.evaluate after events k with _ | _ | _ <;> rfl

end Duality

end Nnf

namespace Formula

open Nnf

instance (events : Trace) (name : String) (i : Nat) : Decidable (Occurs events name i) :=
  decidable_of_iff (∃ event ∈ events[i]?, name ∈ event) Iff.rfl

/-- What occurs at a position occurs in the trace. -/
theorem Occurs.lt {events : Trace} {name : String} {i : Nat} (h : Occurs events name i) :
    i < events.length := by
  obtain ⟨event, hevent, -⟩ := h
  exact (List.getElem?_eq_some_iff.mp hevent).1

/-- Either sign of a normal form speaks of the propositions of the formula only. -/
theorem occurrences_normal_subset (positive : Bool) (f : Formula) :
    (f.normal positive).occurrences ⊆ f.occurrences := by
  induction f generalizing positive with
  | const value => simp [normal, Nnf.occurrences]
  | prop name => simp [normal, Nnf.occurrences, occurrences]
  | unary op p ih =>
      cases op <;> cases positive <;>
        simpa [normal, Nnf.occurrences, occurrences, always, eventually] using ih _
  | binary op p q ihp ihq =>
      cases op <;> cases positive <;>
        simp [normal, Nnf.occurrences, occurrences, ihp, ihq,
          List.subset_append_of_subset_left, List.subset_append_of_subset_right]

/-- A trace satisfies a formula if it does without the propositions of no concern to it. -/
theorem holds_map_filter {f : Formula} {keep : String → Bool}
    (h : ∀ p ∈ f.occurrences, keep p = true) (events : Trace) :
    f.nnf.holds (events.map (List.filter keep)) = f.nnf.holds events :=
  holdsAt_map_filter (fun p hp => h p (occurrences_normal_subset true f hp)) events 0

/-- The normal form of the negation is the complement of the normal form, at every position. -/
theorem dualAt_normal (after : Nat → Option Nat) (events : Trace) (f : Formula) (i : Nat) :
    DualAt after events (f.normal true) (f.normal false) i := by
  induction f generalizing i with
  | const value => cases value <;> exact ⟨rfl⟩
  | prop name => exact dualAt_literal name i
  | unary op p ih =>
      have ih' : ∀ j, DualAt after events (p.normal false) (p.normal true) j := fun j => (ih j).symm
      cases op with
      | not => exact ih' i
      | next => exact dualAt_next_weakNext ih
      | weakNext => exact (dualAt_next_weakNext ih').symm
      | always => exact (dualAt_until_release (dualAt_const true) ih' i).symm
      | eventually => exact dualAt_until_release (dualAt_const true) ih i
  | binary op p q ihp ihq =>
      have ihp' : ∀ j, DualAt after events (p.normal false) (p.normal true) j := fun j => (ihp j).symm
      have ihq' : ∀ j, DualAt after events (q.normal false) (q.normal true) j := fun j => (ihq j).symm
      cases op with
      | and => exact dualAt_and_or (ihp i) (ihq i)
      | or => exact dualAt_or_and (ihp i) (ihq i)
      | implies => exact dualAt_or_and (ihp' i) (ihq i)
      | equiv =>
          exact dualAt_and_or (dualAt_or_and (ihp' i) (ihq i)) (dualAt_or_and (ihp i) (ihq' i))
      | «until» => exact dualAt_until_release ihp ihq i
      | release => exact (dualAt_until_release ihp' ihq' i).symm
      | weakUntil =>
          exact (dualAt_until_release ihq' (fun j => dualAt_and_or (ihp' j) (ihq' j)) i).symm

/-- Weak until is a release: either the goal comes, and the first time it does it releases what
was demanded until then, or it never comes. -/
theorem weakUntil_iff_release {P Q : Nat → Prop} {i n : Nat} :
    ((∃ k, i ≤ k ∧ k < n ∧ Q k ∧ ∀ j, i ≤ j → j < k → P j) ∨ ∀ k, i ≤ k → k < n → P k) ↔
      ∀ k, i ≤ k → k < n → (P k ∨ Q k) ∨ ∃ j, i ≤ j ∧ j < k ∧ Q j := by
  constructor
  · rintro (⟨m, him, hmn, hm, hbefore⟩ | hall) k hik hkn
    · rcases Nat.lt_trichotomy k m with hlt | rfl | hgt
      · exact Or.inl (Or.inl (hbefore k hik hlt))
      · exact Or.inl (Or.inr hm)
      · exact Or.inr ⟨m, him, hgt, hm⟩
    · exact Or.inl (Or.inl (hall k hik hkn))
  · intro h
    by_cases hgoal : ∃ k, i ≤ k ∧ k < n ∧ Q k
    · classical
      obtain ⟨him, hmn, hm⟩ := Nat.find_spec hgoal
      refine Or.inl ⟨Nat.find hgoal, him, hmn, hm, fun j hij hjm => ?_⟩
      have hnotyet : ∀ l, i ≤ l → l ≤ j → ¬ Q l := fun l hil hlj hl =>
        Nat.find_min hgoal (Nat.lt_of_le_of_lt hlj hjm) ⟨hil, by omega, hl⟩
      rcases h j hij (by omega) with (hp | hq) | ⟨l, hil, hlj, hl⟩
      · exact hp
      · exact absurd hq (hnotyet j hij (Nat.le_refl j))
      · exact absurd hl (hnotyet l hil (Nat.le_of_lt hlj))
    · refine Or.inr fun k hik hkn => ?_
      have hnever : ∀ j, i ≤ j → j < n → ¬ Q j := fun j hij hjn hj => hgoal ⟨j, hij, hjn, hj⟩
      rcases h k hik hkn with (hp | hq) | ⟨j, hij, hjk, hj⟩
      · exact hp
      · exact absurd hq (hnever k hik hkn)
      · exact absurd hj (hnever j hij (by omega))

/-- The normal form holds exactly where the formula does. -/
theorem holdsAt_normal_true_iff (events : Trace) (f : Formula) (i : Nat) :
    (f.normal true).holdsAt events i = true ↔ Holds events f i := by
  have hfalse : ∀ (f : Formula) (j : Nat),
      (f.normal false).holdsAt events j = true ↔ ¬ (f.normal true).holdsAt events j = true := by
    intro f j
    rw [(dualAt_normal _ events f j).holdsAt_eq, Bool.not_eq_true', Bool.not_eq_true]
  induction f generalizing i with
  | const value => cases value <;> simp [normal, holdsAt_const, Holds]
  | prop name => exact holdsAt_literal_iff
  | unary op p ih =>
      cases op with
      | not => simp only [normal, Bool.not_true, hfalse, ih, Holds]
      | next => simp [normal, holdsAt_next, Holds, ih]
      | weakNext =>
          simp only [normal, holdsAt_weakNext, Holds, Bool.or_eq_true, decide_eq_true_eq, ih,
            ← Nat.not_lt, imp_iff_not_or]
      | always => simp only [normal, holdsAt_always_iff, ih, Holds]
      | eventually => simp only [normal, holdsAt_eventually_iff, ih, Holds]
  | binary op p q ihp ihq =>
      cases op with
      | and => simp [normal, holdsAt_and, Holds, ihp, ihq]
      | or => simp [normal, holdsAt_or, Holds, ihp, ihq]
      | implies => simp only [normal, holdsAt_or, Holds, Bool.or_eq_true, hfalse, ihp, ihq,
          imp_iff_not_or]
      | equiv =>
          simp only [normal, holdsAt_or, holdsAt_and, Holds, Bool.or_eq_true, Bool.and_eq_true,
            hfalse, ihp, ihq]
          tauto
      | «until» => simp only [normal, holdsAt_until_iff, Holds, ihp, ihq]
      | release => simp only [normal, holdsAt_release_iff, Holds, ihp, ihq]
      | weakUntil =>
          rw [normal, holdsAt_release_iff, Holds, weakUntil_iff_release]
          simp only [holdsAt_or, Bool.or_eq_true, ihp, ihq]

end Formula

end ProcessLogic
