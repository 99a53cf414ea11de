import Mathlib.Data.List.Permutation
import ProcessLogic.Proofs.Automaton.CompletedLanguage
import ProcessLogic.Proofs.Automaton.Equivalence
import ProcessLogic.Proofs.Search.WordOrder

/-!
# The counterexample is canonical

Comparison tries the labels of the first automaton in their order and then the others of the second.
It answers with the first word, by length and then by that order, that exactly one of the automata
accepts. So the answer depends only on the two languages and on the order of the labels.
-/

namespace ProcessLogic.Automaton

open Search

/-- The labels of both automata: those of `a` in their order, then the others of `b` in theirs. -/
def labelOrder (a b : Automaton) : List Label :=
  a.alphabet.toList ++ b.alphabet.toList.filter fun label => decide (label ∉ a.alphabet.toList)

/-- One label stands before another in a list. -/
def Precedes (order : List Label) (first second : Label) : Prop :=
  order.idxOf first < order.idxOf second

instance (order : List Label) : Std.Asymm (Precedes order) where
  asymm _ _ h := Nat.lt_asymm h

/-- Standing before another label in a list is transitive. -/
theorem Precedes.trans {order : List Label} (l m n : Label) (hlm : Precedes order l m)
    (hmn : Precedes order m n) : Precedes order l n :=
  Nat.lt_trans hlm hmn

/-- In a list without repeats each label stands before all later ones. -/
theorem pairwise_precedes {order : List Label} (h : order.Nodup) :
    order.Pairwise (Precedes order) := by
  rw [List.pairwise_iff_getElem]
  intro i j hi hj hij
  rw [Precedes, h.idxOf_getElem i hi, h.idxOf_getElem j hj]
  exact hij

section Letters

variable {a b : Automaton} (ha : a.WellFormed) (hb : b.WellFormed)
include ha hb

/-- The letters of a comparison are the labels of both automata, in their order. -/
theorem labels_jointLabels : (jointLabels a b).map (·.label) = labelOrder a b := by
  have hlabels := ha.alphabet_wellFormed.toList_insertMany hb.alphabet_wellFormed.nodup
  rw [labelOrder, ← hlabels, jointLabels, List.map_map]
  exact List.map_id _

/-- The search tries the labels in their order. -/
theorem pairwise_jointLabels :
    (jointLabels a b).Pairwise fun l m => Precedes (labelOrder a b) l.label m.label := by
  have hnodup : (labelOrder a b).Nodup := by
    rw [labelOrder, ← ha.alphabet_wellFormed.toList_insertMany hb.alphabet_wellFormed.nodup]
    exact (ha.alphabet_wellFormed.insertMany _).nodup
  have hlabels := pairwise_precedes hnodup
  rw [← labels_jointLabels ha hb, List.pairwise_map] at hlabels
  rwa [← labels_jointLabels ha hb]

end Letters

/-- Exactly one of the automata accepts `word`, and it is the first word of which that holds. -/
structure FirstSeparating (a b : Automaton) (word : List Label) : Prop where
  separates : a.accepts word ≠ b.accepts word
  first : ∀ other, a.accepts other ≠ b.accepts other →
    NoLater (Precedes (labelOrder a b)) word other

/-- A counterexample is the first separating word. -/
theorem firstSeparating_of_counterexample {a b : Automaton} (ha : a.WellFormed)
    (hb : b.WellFormed) {word : List Label} (h : counterexample a b = .ok (some word)) :
    FirstSeparating a b word := by
  refine ⟨accepts_ne_of_counterexample_some ha hb h, fun other hother => ?_⟩
  obtain ⟨search, stopped, hrun, he⟩ := exists_pairSearch ha hb
  rw [he, Except.ok.injEq, Option.map_eq_some_iff] at h
  obtain ⟨k, rfl, rfl⟩ := h
  obtain ⟨letters, pair, hletters, rfl, hwalk, hseparates⟩ :=
    exists_walk_of_accepts_ne ha.alphabet_wellFormed hb.alphabet_wellFormed hother
  have htrans : ∀ l m n : JointLabel, Precedes (labelOrder a b) l.label m.label →
      Precedes (labelOrder a b) m.label n.label → Precedes (labelOrder a b) l.label n.label :=
    fun _ _ _ => Precedes.trans _ _ _
  have hordered := treatedInOrder_of_run htrans (pairwise_jointLabels ha hb) hrun
  exact ((finished_of_run hrun).noLater_of_stop htrans hordered hletters hwalk hseparates).map

/-- The first separating word is determined by the languages and the order of the labels. -/
theorem FirstSeparating.unique {a b a' b' : Automaton} {word word' : List Label}
    (h : FirstSeparating a b word) (h' : FirstSeparating a' b' word')
    (ha : ∀ w, a'.accepts w = a.accepts w) (hb : ∀ w, b'.accepts w = b.accepts w)
    (horder : labelOrder a' b' = labelOrder a b) : word' = word := by
  have hword : NoLater (Precedes (labelOrder a b)) word' word := by
    rw [← horder]
    refine h'.first word ?_
    rw [ha, hb]
    exact h.separates
  have hword' : NoLater (Precedes (labelOrder a b)) word word' := by
    refine h.first word' ?_
    rw [← ha, ← hb]
    exact h'.separates
  exact hword.antisymm hword'

/-- A comparison depends on the two languages and the order of labels only. -/
theorem counterexample_congr {a b a' b' : Automaton} (ha : a.WellFormed) (hb : b.WellFormed)
    (ha' : a'.WellFormed) (hb' : b'.WellFormed) (hleft : ∀ w, a'.accepts w = a.accepts w)
    (hright : ∀ w, b'.accepts w = b.accepts w) (horder : labelOrder a' b' = labelOrder a b) :
    counterexample a' b' = counterexample a b := by
  obtain ⟨answer, he, hnone⟩ := exists_counterexample ha hb
  obtain ⟨answer', he', hnone'⟩ := exists_counterexample ha' hb'
  simp only [hleft, hright] at hnone'
  rw [he, he']
  cases answer with
  | none => rw [hnone'.mpr (hnone.mp rfl)]
  | some word =>
      cases answer' with
      | none => exact absurd (hnone.mpr (hnone'.mp rfl)) (Option.some_ne_none word)
      | some word' =>
          have hfirst := firstSeparating_of_counterexample ha hb he
          have hfirst' := firstSeparating_of_counterexample ha' hb' he'
          rw [hfirst.unique hfirst' hleft hright horder]

/-- A counterexample is the first of the shortest words that exactly one of the automata accepts,
in the lexicographic order in which the labels of the first automaton come in their order and then
the others of the second. Automata with the same languages and labels in the same order have the
same counterexample, whatever their states. -/
theorem counterexample_canonical {a b : Automaton} (ha : a.WellFormed) (hb : b.WellFormed) :
    (∀ word, counterexample a b = .ok (some word) → a.accepts word ≠ b.accepts word ∧
      ∀ other, a.accepts other ≠ b.accepts other → word.length ≤ other.length ∧
        (other.length = word.length →
          other = word ∨ List.Lex (Precedes (labelOrder a b)) word other)) ∧
    ∀ a' b' : Automaton, a'.WellFormed → b'.WellFormed →
      (∀ w, a'.accepts w = a.accepts w) → (∀ w, b'.accepts w = b.accepts w) →
      labelOrder a' b' = labelOrder a b → counterexample a' b' = counterexample a b := by
  refine ⟨fun word he => ?_, fun a' b' ha' hb' => counterexample_congr ha hb ha' hb'⟩
  have hfirst := firstSeparating_of_counterexample ha hb he
  refine ⟨hfirst.separates, fun other hother => ?_⟩
  have hnolater := hfirst.first other hother
  refine ⟨hnolater.length_le, fun hlength => ?_⟩
  rcases hnolater with rfl | hshortlex
  · exact Or.inl rfl
  · exact Or.inr ((List.shortlex_iff_lex hlength.symm).mp hshortlex)

/-- Of two words of one label the one is found whose label is used first, also if the first
automaton gets one more state. -/
theorem counterexample_canonical_tie : ∃ a b,
    build ["p", "r"] [⟨"p", "y", "p"⟩, ⟨"p", "x", "p"⟩, ⟨"r", "x", "r"⟩] "p" ["p"] = .ok a ∧
    build ["q"] [] "q" ["q"] = .ok b ∧ a.WellFormed ∧ b.WellFormed ∧
    counterexample a b = .ok (some ["y"]) ∧ a.accepts ["x"] ≠ b.accepts ["x"] ∧
    List.Lex (Precedes (labelOrder a b)) ["y"] ["x"] ∧
    counterexample (a.complete []) b = .ok (some ["y"]) := by
  have hfits : Fits ["p", "r"] [⟨"p", "y", "p"⟩, ⟨"p", "x", "p"⟩, ⟨"r", "x", "r"⟩] "p" ["p"] :=
    ⟨by decide, by decide, by decide, by decide, by decide, by decide⟩
  obtain ⟨a, ha⟩ := exists_build hfits
  have hfits' : Fits ["q"] [] "q" ["q"] :=
    ⟨by decide, by decide, by decide, by decide, by decide, by decide⟩
  obtain ⟨b, hb⟩ := exists_build hfits'
  have hwella := (built_of_build ha).wellFormed
  have hwellb := (built_of_build hb).wellFormed
  have hcomputed : (do
      let a ← build ["p", "r"] [⟨"p", "y", "p"⟩, ⟨"p", "x", "p"⟩, ⟨"r", "x", "r"⟩] "p" ["p"]
      let b ← build ["q"] [] "q" ["q"]
      return (counterexample a b, a.accepts ["x"], b.accepts ["x"])) =
        .ok (.ok (some ["y"]), true, false) := by cbv
  rw [ha, hb] at hcomputed
  obtain ⟨hanswer, haccepts⟩ := Prod.mk.inj (Except.ok.inj hcomputed)
  obtain ⟨hax, hbx⟩ := Prod.mk.inj haccepts
  have hne : a.accepts ["x"] ≠ b.accepts ["x"] := by
    rw [hax, hbx]
    decide
  obtain ⟨hcanonical, hindependent⟩ := counterexample_canonical hwella hwellb
  obtain ⟨-, hfirst⟩ := hcanonical ["y"] hanswer
  obtain ⟨-, hlex⟩ := hfirst ["x"] hne
  have horder : labelOrder (a.complete []) b = labelOrder a b := by
    rw [labelOrder, alphabet_complete]
    rfl
  have hsame := hindependent (a.complete []) b (hwella.complete []) hwellb hwella.accepts_complete
    (fun _ => rfl) horder
  exact ⟨a, b, ha, hb, hwella, hwellb, hanswer, hne, (hlex rfl).resolve_left (by decide),
    hsame.trans hanswer⟩

end ProcessLogic.Automaton
