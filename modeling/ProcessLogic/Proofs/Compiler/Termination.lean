import ProcessLogic.Proofs.Compiler.Stages
import ProcessLogic.Proofs.Residual.Subformulas

/-!
# Exploration ends without a limit

The obligations of a formula are two for each subformula, and what is left of the formula is a set
of sets of them. So the search ends after as many rounds as there are stages, and a limit above the
number of all such sets is never met.
-/

namespace ProcessLogic

open Search

namespace Nnf

/-- A formula has a node for each of its different subformulas. -/
theorem size_stored (f : Nnf) : f.stored.size = f.subformulas.card := Store.size_intern_empty f

/-- The numbers stand for the subformulas. -/
theorem lt_card_subformulas_iff {f : Nnf} {i : Nat} :
    i < f.subformulas.card ↔ ∃ g ∈ f.subformulas, f.stored.Denotes i g := by
  rw [← size_stored]
  constructor
  · intro hi
    obtain ⟨g, hg⟩ := f.interned.closed.exists_denotes hi
    have honly := (Store.holdsOnly_empty f.subformulas).intern Store.closed_empty
      (Finset.Subset.refl _)
    exact ⟨g, honly i g hg, hg⟩
  · rintro ⟨g, -, hg⟩
    exact hg.lt_size

end Nnf

namespace Compiler

/-- Two obligations for each subformula are all of which residuals consist. The search finds the
stages in as many rounds as there are, whatever more it is allowed, and a limit that leaves room for
all sets of sets of obligations and the first stage is kept. -/
theorem exploration_ends (c : Compiler) (f : Formula)
    (hallows : c.semantics.allows (c.propositions f).length = true) :
    let m := f.nnf.subformulas.card
    let p := c.progression f
    (∃ obligations : List Obligation, obligations.Nodup ∧ obligations.length = 2 * m ∧
        (∀ o, o ∈ obligations ↔ ∃ g ∈ f.nnf.subformulas, f.nnf.stored.Denotes o.formula g) ∧
        ∀ d, Reaches p.letters p.step .initial (.residual d) →
          d.clauses.Nodup ∧ ∀ clause ∈ d.clauses, clause.Nodup ∧ clause ⊆ obligations) ∧
      (∃ search : Search Stage Letter, search.found.size ≤ 1 + 2 ^ 2 ^ (2 * m) ∧
        (∀ stage, stage ∈ search.found.toList ↔ Reaches p.letters p.step .initial stage) ∧
        ∀ limit rounds, search.found.size ≤ limit → search.found.size ≤ rounds →
          runFrom p.letters p.step (fun _ => false) limit rounds 0 (start .initial) =
            some (search, none)) ∧
      ∀ limit, 1 + 2 ^ 2 ^ (2 * m) ≤ limit →
        ∃ a, automaton { c with maxStates := limit } f = .ok a := by
  intro m p
  have hwithin : ∀ d, Reaches p.letters p.step .initial (.residual d) → d.Within m := by
    intro d hd
    have hstored := Progression.within_of_reaches hd
    rwa [Nnf.size_stored] at hstored
  have hbelow : ∀ stage, Reaches p.letters p.step .initial stage → stage ∈ Stage.below m := by
    intro stage hstage
    have hmem := Progression.mem_below_of_reaches hstage
    rwa [Nnf.size_stored] at hmem
  have hlength := Stage.length_below_le m
  refine ⟨⟨Obligation.below m, Obligation.nodup_below m, Obligation.length_below m, ?_, ?_⟩, ?_, ?_⟩
  · exact fun o => Obligation.mem_below.trans Nnf.lt_card_subformulas_iff
  · intro d hd
    refine ⟨(hwithin d hd).increasing.nodup, fun clause hclause => ?_⟩
    have hcl := (hwithin d hd).clause clause hclause
    exact ⟨hcl.ordered.nodup, fun o ho => Obligation.mem_below.mpr (hcl.formula_lt o ho)⟩
  · obtain ⟨stages, hnodup, hstages⟩ := exists_reached hbelow
    obtain ⟨search, hsize, hfound, hrun⟩ :
        ∃ search : Search Stage Letter, search.found.size = stages.length ∧ _ :=
      exists_search_of_reached hnodup hstages
    have hle := hnodup.length_le_of_subset fun stage hs => hbelow stage ((hstages stage).mp hs)
    exact ⟨search, hsize ▸ Nat.le_trans hle hlength, hfound, hsize ▸ hrun⟩
  · intro limit hlimit
    apply exists_automaton (c := { c with maxStates := limit }) hallows
    apply not_exceeds_of_mem (Stage.below m) _ hbelow
    exact Nat.le_trans (Nat.le_trans hlength hlimit) (Nat.le_max_right 1 limit)

/-- `a U b` has three subformulas and six obligations, so `1 + 2 ^ 64` states are always enough. -/
theorem exploration_ends_until :
    let c : Compiler := { declared := ["d"] }
    let f : Formula := .binary .until (.prop "a") (.prop "b")
    f.nnf.subformulas.card = 3 ∧
      (∃ obligations : List Obligation, obligations.length = 6 ∧
        ∀ d, Reaches (c.progression f).letters (c.progression f).step .initial (.residual d) →
          ∀ clause ∈ d.clauses, clause ⊆ obligations) ∧
      ∀ limit, 18446744073709551617 ≤ limit →
        ∃ a, automaton { c with maxStates := limit } f = .ok a := by
  intro c f
  have hcard : f.nnf.subformulas.card = 3 := rfl
  have hallows : c.semantics.allows (c.propositions f).length = true :=
    decide_eq_true (Nat.le_trans (length_propositions_le c f) (by decide))
  obtain ⟨⟨obligations, -, hlength, -, hclauses⟩, -, hlimit⟩ := exploration_ends c f hallows
  rw [hcard] at hlength hlimit
  exact ⟨hcard, ⟨obligations, hlength, fun d hd clause hc => ((hclauses d hd).2 clause hc).2⟩, hlimit⟩

end Compiler

end ProcessLogic
