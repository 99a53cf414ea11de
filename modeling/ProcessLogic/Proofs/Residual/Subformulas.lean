import Mathlib.Combinatorics.Enumerative.DoubleCounting
import ProcessLogic.Proofs.Residual.Store

/-!
# The numbers of a store are the subformulas

Interning a formula stores its subformulas and nothing else. Equal formulas have equal numbers, so a
store that was empty before holds as many nodes as the formula has subformulas.
-/

namespace ProcessLogic

/-- The formula and all its parts. -/
def Nnf.subformulas : Nnf → Finset Nnf
  | .literal negated name => {.literal negated name}
  | .const value => {.const value}
  | .until p q => insert (.until p q) (p.subformulas ∪ q.subformulas)
  | .release p q => insert (.release p q) (p.subformulas ∪ q.subformulas)
  | .or p q => insert (.or p q) (p.subformulas ∪ q.subformulas)
  | .and p q => insert (.and p q) (p.subformulas ∪ q.subformulas)
  | .next p => insert (.next p) p.subformulas
  | .weakNext p => insert (.weakNext p) p.subformulas

theorem Nnf.self_mem_subformulas (f : Nnf) : f ∈ f.subformulas := by
  cases f <;> simp [subformulas]

namespace Store

variable {store : Store} {f g : Nnf} {i j : Nat}

/-- With a formula its parts are stored. -/
theorem Denotes.forall_mem_subformulas (h : Denotes store i f) :
    ∀ g ∈ f.subformulas, ∃ j, Denotes store j g := by
  induction h with
  | literal hi => exact fun g hg => ⟨_, (Finset.mem_singleton.mp hg).symm ▸ Denotes.literal hi⟩
  | const hi => exact fun g hg => ⟨_, (Finset.mem_singleton.mp hg).symm ▸ Denotes.const hi⟩
  | «until» hi hp hq ihp ihq =>
      exact (Finset.forall_mem_insert _ _ _).mpr
        ⟨⟨_, .until hi hp hq⟩, Finset.forall_mem_union.mpr ⟨ihp, ihq⟩⟩
  | release hi hp hq ihp ihq =>
      exact (Finset.forall_mem_insert _ _ _).mpr
        ⟨⟨_, .release hi hp hq⟩, Finset.forall_mem_union.mpr ⟨ihp, ihq⟩⟩
  | or hi hp hq ihp ihq =>
      exact (Finset.forall_mem_insert _ _ _).mpr
        ⟨⟨_, .or hi hp hq⟩, Finset.forall_mem_union.mpr ⟨ihp, ihq⟩⟩
  | and hi hp hq ihp ihq =>
      exact (Finset.forall_mem_insert _ _ _).mpr
        ⟨⟨_, .and hi hp hq⟩, Finset.forall_mem_union.mpr ⟨ihp, ihq⟩⟩
  | next hi hp ih => exact (Finset.forall_mem_insert _ _ _).mpr ⟨⟨_, .next hi hp⟩, ih⟩
  | weakNext hi hp ih => exact (Finset.forall_mem_insert _ _ _).mpr ⟨⟨_, .weakNext hi hp⟩, ih⟩

/-- A formula has at most one number. -/
theorem Denotes.number_unique (hw : store.WellFormed) (hi : Denotes store i f)
    (hj : Denotes store j f) : i = j := by
  induction hi generalizing j with
  | literal hi => cases hj with | literal hj => exact hw.get?_inj hi hj
  | const hi => cases hj with | const hj => exact hw.get?_inj hi hj
  | «until» hi _ _ ihp ihq =>
      cases hj with
      | «until» hj hp hq => exact hw.get?_inj hi (ihp hp ▸ ihq hq ▸ hj)
  | release hi _ _ ihp ihq =>
      cases hj with
      | release hj hp hq => exact hw.get?_inj hi (ihp hp ▸ ihq hq ▸ hj)
  | or hi _ _ ihp ihq =>
      cases hj with
      | or hj hp hq => exact hw.get?_inj hi (ihp hp ▸ ihq hq ▸ hj)
  | and hi _ _ ihp ihq =>
      cases hj with
      | and hj hp hq => exact hw.get?_inj hi (ihp hp ▸ ihq hq ▸ hj)
  | next hi _ ih => cases hj with | next hj hp => exact hw.get?_inj hi (ih hp ▸ hj)
  | weakNext hi _ ih => cases hj with | weakNext hj hp => exact hw.get?_inj hi (ih hp ▸ hj)

/-- Only formulas of the set are stored. -/
def HoldsOnly (gs : Finset Nnf) (store : Store) : Prop := ∀ i g, Denotes store i g → g ∈ gs

theorem holdsOnly_empty (gs : Finset Nnf) : HoldsOnly gs {} :=
  fun _ _ h => absurd h.lt_size (Nat.not_lt_zero _)

variable {gs : Finset Nnf}

/-- One more node stores one more formula at most. -/
theorem HoldsOnly.intern_node (h : HoldsOnly gs store) (hcl : Closed store) {node : Node}
    (hden : Denotes (Roster.intern store node).2 (Roster.intern store node).1 f) (hf : f ∈ gs) :
    HoldsOnly gs (Roster.intern store node).2 := by
  intro i g hi
  obtain ⟨other, hother⟩ := Roster.exists_get?_of_lt hi.lt_size
  rcases Roster.get?_intern_cases hother with hold | ⟨-, -, rfl⟩
  · obtain ⟨g', hg'⟩ := hcl.exists_denotes (Roster.lt_size_of_get? hold)
    rw [hi.unique (hg'.extends (Roster.extends_intern store node))]
    exact h i g' hg'
  · obtain rfl := (hcl.wellFormed.intern other).get?_inj hother (hcl.wellFormed.get?_intern other)
    rwa [hi.unique hden]

/-- Interning a formula stores nothing but its parts. -/
theorem HoldsOnly.intern (h : HoldsOnly gs store) (hcl : Closed store) (hf : f.subformulas ⊆ gs) :
    HoldsOnly gs (intern store f).2 := by
  have hself := hf f.self_mem_subformulas
  have hden := (interned_intern hcl f).denotes
  induction f generalizing store with
  | literal negated name => exact h.intern_node hcl hden hself
  | const value => exact h.intern_node hcl hden hself
  | «until» p q ihp ihq | release p q ihp ihq | or p q ihp ihq | and p q ihp ihq =>
      obtain ⟨hp, hq⟩ := Finset.union_subset_iff.mp ((Finset.subset_insert _ _).trans hf)
      have hclp := interned_intern hcl p
      have hclq := interned_intern hclp.closed q
      have hleft := ihp h hcl hp (hp p.self_mem_subformulas) hclp.denotes
      have hright := ihq hleft hclp.closed hq (hq q.self_mem_subformulas) hclq.denotes
      exact hright.intern_node hclq.closed hden hself
  | next p ih | weakNext p ih =>
      have hp := (Finset.subset_insert _ _).trans hf
      have hclp := interned_intern hcl p
      have hbody := ih h hcl hp (hp p.self_mem_subformulas) hclp.denotes
      exact hbody.intern_node hclp.closed hden hself

/-- The numbers of an empty store after a formula has been interned are those of its subformulas. -/
theorem size_intern_empty (f : Nnf) : (intern {} f).2.size = f.subformulas.card := by
  obtain ⟨hcl, -, hden⟩ := interned_intern closed_empty f
  have honly := (holdsOnly_empty f.subformulas).intern closed_empty (Finset.Subset.refl _)
  rw [← Finset.card_range (intern {} f).2.size]
  apply Nat.le_antisymm
  · refine Finset.card_le_card_of_forall_subsingleton (Denotes (intern {} f).2) ?_ ?_
    · intro i hi
      obtain ⟨g, hg⟩ := hcl.exists_denotes (Finset.mem_range.mp hi)
      exact ⟨g, honly i g hg, hg⟩
    · intro g _ i hi j hj
      exact hi.2.number_unique hcl.wellFormed hj.2
  · refine Finset.card_le_card_of_forall_subsingleton' (Denotes (intern {} f).2) ?_ ?_
    · intro g hg
      obtain ⟨i, hi⟩ := hden.forall_mem_subformulas g hg
      exact ⟨i, Finset.mem_range.mpr hi.lt_size, hi⟩
    · intro i _ g hg g' hg'
      exact hg.2.unique hg'.2

end Store

end ProcessLogic
