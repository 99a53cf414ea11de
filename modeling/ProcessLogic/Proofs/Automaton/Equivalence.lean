import Mathlib.Data.List.ProdSigma
import ProcessLogic.Automaton.Comparison
import ProcessLogic.Proofs.Automaton.Build
import ProcessLogic.Proofs.Automaton.Run
import ProcessLogic.Proofs.Search.Outcome

/-!
# Comparison decides equality of languages

The search over pairs of states follows both automata along every word over their joint
labels, until both are in the sink. All pairs fit the bound, so the search is never refused;
it stops at a nearest pair that separates the languages, and if it does not stop there is none.
-/

namespace ProcessLogic.Automaton

open Search

/-- Where a word leads both automata, from states or from the sinks. -/
def pairRun (a b : Automaton) (pair : Pair) (word : List Label) : Pair :=
  (pair.1.bind fun s => a.run s word, pair.2.bind fun t => b.run t word)

/-- A letter of a comparison is a label of either automaton, with its place in both. -/
theorem mem_jointLabels {a b : Automaton} (ha : a.alphabet.WellFormed)
    {l : JointLabel} : l ∈ jointLabels a b ↔
      (l.label ∈ a.alphabet.toList ∨ l.label ∈ b.alphabet.toList) ∧
      l.left = a.alphabet.rank? l.label ∧ l.right = b.alphabet.rank? l.label := by
  simp only [jointLabels, List.mem_map, ha.mem_insertMany]
  constructor
  · rintro ⟨label, hm, rfl⟩
    exact ⟨hm, rfl, rfl⟩
  · rintro ⟨hm, hl, hr⟩
    refine ⟨l.label, hm, ?_⟩
    rw [← hl, ← hr]

/-- Following the place of a label is the step on the label, and leads to the sink without one. -/
theorem follow_rank? (a : Automaton) (s : Option Nat) (label : Label) :
    a.follow s (a.alphabet.rank? label) = s.bind fun s => a.step s label := by
  cases s <;> rfl

/-- One step of the pair search is one step of both automata, unless both meet the sink. -/
theorem pairStep_eq {a b : Automaton} (ha : a.alphabet.WellFormed) {l : JointLabel}
    (hl : l ∈ jointLabels a b) (pair : Pair) :
    pairStep a b pair l =
      if pairRun a b pair [l.label] = (none, none) then none
      else some (pairRun a b pair [l.label]) := by
  obtain ⟨_, hleft, hright⟩ := (mem_jointLabels ha).mp hl
  have hrun : pairRun a b pair [l.label] =
      (a.follow pair.1 l.left, b.follow pair.2 l.right) := by
    rw [hleft, hright, follow_rank?, follow_rank?]
    rcases pair with ⟨_ | s, _ | t⟩ <;> simp [pairRun, run]
  rw [hrun, pairStep]
  split
  · rename_i h₁ h₂
    rw [h₁, h₂, if_pos rfl]
  · rename_i hne
    rw [if_neg fun he => hne (Prod.mk.inj he).1 (Prod.mk.inj he).2]

/-- Two automata read a word letter by letter. -/
theorem pairRun_cons (a b : Automaton) (pair : Pair) (label : Label) (word : List Label) :
    pairRun a b pair (label :: word) = pairRun a b (pairRun a b pair [label]) word := by
  rcases pair with ⟨_ | s, _ | t⟩ <;>
    simp [pairRun, run]

/-- Neither automaton leaves its sink. -/
theorem pairRun_sinks (a b : Automaton) (word : List Label) :
    pairRun a b (none, none) word = (none, none) := rfl

/-- The search follows both automata. -/
theorem pairRun_of_walk {a b : Automaton} (ha : a.alphabet.WellFormed) {ls : List JointLabel}
    (hls : ∀ l ∈ ls, l ∈ jointLabels a b) {pair target : Pair}
    (h : walk (pairStep a b) pair ls = some target) :
    pairRun a b pair (ls.map (·.label)) = target := by
  induction ls generalizing pair with
  | nil =>
      obtain rfl := Option.some.inj h
      rcases pair with ⟨_ | s, _ | t⟩ <;> rfl
  | cons l ls ih =>
      have hl := hls l List.mem_cons_self
      rw [walk_cons, pairStep_eq ha hl] at h
      obtain ⟨next, hnext, hrest⟩ := Option.bind_eq_some_iff.mp h
      split at hnext
      · exact absurd hnext (by simp)
      · obtain rfl := Option.some.inj hnext
        rw [List.map_cons, pairRun_cons]
        exact ih (fun l' hl' => hls l' (List.mem_cons_of_mem l hl')) hrest

/-- The search follows both automata as long as one of them is not in its sink. -/
theorem walk_of_pairRun {a b : Automaton} (ha : a.alphabet.WellFormed) {ls : List JointLabel}
    (hls : ∀ l ∈ ls, l ∈ jointLabels a b) {pair : Pair}
    (h : pairRun a b pair (ls.map (·.label)) ≠ (none, none)) :
    walk (pairStep a b) pair ls = some (pairRun a b pair (ls.map (·.label))) := by
  induction ls generalizing pair with
  | nil => rcases pair with ⟨_ | s, _ | t⟩ <;> rfl
  | cons l ls ih =>
      have hl := hls l List.mem_cons_self
      rw [List.map_cons, pairRun_cons] at h ⊢
      have hne : pairRun a b pair [l.label] ≠ (none, none) := by
        intro he
        rw [he, pairRun_sinks] at h
        exact h rfl
      rw [walk_cons, pairStep_eq ha hl, if_neg hne]
      exact ih (fun l' hl' => hls l' (List.mem_cons_of_mem l hl')) h

/-- A word over the joint labels is a word of letters of the search. -/
theorem exists_jointLabels {a b : Automaton} (ha : a.alphabet.WellFormed) {word : List Label}
    (hw : ∀ label ∈ word, label ∈ a.alphabet.toList ∨ label ∈ b.alphabet.toList) :
    ∃ ls : List JointLabel, (∀ l ∈ ls, l ∈ jointLabels a b) ∧ ls.map (·.label) = word := by
  refine ⟨word.map fun label => ⟨label, a.alphabet.rank? label, b.alphabet.rank? label⟩, ?_, ?_⟩
  · intro l hl
    obtain ⟨label, hm, rfl⟩ := List.mem_map.mp hl
    exact (mem_jointLabels ha).mpr ⟨hw label hm, rfl, rfl⟩
  · rw [List.map_map]
    exact List.map_id word

/-- The pair that a word leads to separates the automata iff exactly one accepts the word. -/
theorem separates_pairRun (a b : Automaton) (word : List Label) :
    separates a b (pairRun a b (some a.initial, some b.initial) word) =
      (a.accepts word != b.accepts word) := by
  rw [accepts_eq_any, accepts_eq_any]
  rfl

/-- A word with a label that neither automaton knows is accepted by neither. -/
theorem accepts_eq_of_unknown {a b : Automaton} (ha : a.alphabet.WellFormed)
    (hb : b.alphabet.WellFormed) {word : List Label} {label : Label} (hm : label ∈ word)
    (hna : label ∉ a.alphabet.toList) (hnb : label ∉ b.alphabet.toList) :
    a.accepts word = b.accepts word := by
  rw [accepts_eq_any, accepts_eq_any, run_eq_none_of_mem hm (ha.rank?_eq_none_iff.mpr hna),
    run_eq_none_of_mem hm (hb.rank?_eq_none_iff.mpr hnb)]
  rfl

/-- A word that separates the automata leads the search to a pair that does. -/
theorem exists_walk_of_accepts_ne {a b : Automaton} (ha : a.alphabet.WellFormed)
    (hb : b.alphabet.WellFormed) {word : List Label} (hne : a.accepts word ≠ b.accepts word) :
    ∃ (ls : List JointLabel) (pair : Pair), (∀ l ∈ ls, l ∈ jointLabels a b) ∧
      ls.map (·.label) = word ∧
      walk (pairStep a b) (some a.initial, some b.initial) ls = some pair ∧
      separates a b pair = true := by
  have hknown : ∀ label ∈ word, label ∈ a.alphabet.toList ∨ label ∈ b.alphabet.toList := by
    intro label hm
    by_cases hna : label ∈ a.alphabet.toList
    · exact Or.inl hna
    · by_cases hnb : label ∈ b.alphabet.toList
      · exact Or.inr hnb
      · exact absurd (accepts_eq_of_unknown ha hb hm hna hnb) hne
  obtain ⟨ls, hls, rfl⟩ := exists_jointLabels ha hknown
  have hsep := separates_pairRun a b (ls.map (·.label))
  rw [bne_iff_ne.mpr hne] at hsep
  refine ⟨ls, _, hls, rfl, walk_of_pairRun ha hls ?_, hsep⟩
  intro he
  rw [he] at hsep
  exact absurd hsep (by simp [separates, acceptsAt])

/-- The states of an automaton and its sink. -/
def statesAndSink (a : Automaton) : List (Option Nat) := none :: (List.range a.size).map some

/-- With the sink there is one place more than there are states. -/
theorem length_statesAndSink (a : Automaton) : (statesAndSink a).length = a.size + 1 := by
  simp [statesAndSink]

/-- Every word leads to a state or to the sink. -/
theorem WellFormed.run_mem_statesAndSink {a : Automaton} (h : a.WellFormed)
    (word : List Label) : a.run a.initial word ∈ statesAndSink a := by
  cases hr : a.run a.initial word with
  | none => exact List.mem_cons_self
  | some s =>
      have hlt := h.run_lt h.initial_lt hr
      exact List.mem_cons_of_mem _ (List.mem_map.mpr ⟨s, List.mem_range.mpr hlt, rfl⟩)

/-- The pairs that the search can meet fit its bound. -/
theorem pairSearch_ne_none {a b : Automaton} (ha : a.WellFormed) (hb : b.WellFormed) :
    Search.run (jointLabels a b) (pairStep a b) (separates a b)
      ((a.size + 1) * (b.size + 1)) (some a.initial, some b.initial) ≠ none := by
  intro h
  obtain ⟨pairs, hnodup, hlen, hreach⟩ := exceeds_of_run h
  have hsub : pairs ⊆ statesAndSink a ×ˢ statesAndSink b := by
    intro pair hpair
    obtain ⟨ls, hls, hw⟩ := hreach pair hpair
    rw [← pairRun_of_walk ha.alphabet_wellFormed hls hw]
    exact List.mem_product.mpr ⟨ha.run_mem_statesAndSink _, hb.run_mem_statesAndSink _⟩
  have hle := hnodup.length_le_of_subset hsub
  rw [hlen, List.length_product, length_statesAndSink, length_statesAndSink] at hle
  omega

/-- The answer is the word on which the search over pairs was stopped. -/
theorem exists_pairSearch {a b : Automaton} (ha : a.WellFormed) (hb : b.WellFormed) :
    ∃ search stopped,
      Search.run (jointLabels a b) (pairStep a b) (separates a b) ((a.size + 1) * (b.size + 1))
        (some a.initial, some b.initial) = some (search, stopped) ∧
      counterexample a b =
        .ok (stopped.map fun k => (search.trail k).reverse.map (·.label)) := by
  cases h : Search.run (jointLabels a b) (pairStep a b) (separates a b)
      ((a.size + 1) * (b.size + 1)) (some a.initial, some b.initial) with
  | none => exact absurd h (pairSearch_ne_none ha hb)
  | some result =>
      obtain ⟨search, stopped⟩ := result
      refine ⟨search, stopped, rfl, ?_⟩
      rw [counterexample, h]
      rfl

/-- How the comparison reads off its answer. -/
theorem counterexample_cases {a b : Automaton} (ha : a.WellFormed) (hb : b.WellFormed) :
    ∃ search stopped,
      Finished (jointLabels a b) (pairStep a b) (separates a b) ((a.size + 1) * (b.size + 1))
        (some a.initial, some b.initial) search stopped ∧
      counterexample a b =
        .ok (stopped.map fun k => (search.trail k).reverse.map (·.label)) := by
  obtain ⟨search, stopped, hrun, he⟩ := exists_pairSearch ha hb
  exact ⟨search, stopped, finished_of_run hrun, he⟩

/-- Automata without a counterexample accept the same words. -/
theorem accepts_eq_of_counterexample_none {a b : Automaton} (ha : a.WellFormed)
    (hb : b.WellFormed) (h : counterexample a b = .ok none) (word : List Label) :
    a.accepts word = b.accepts word := by
  obtain ⟨search, stopped, hfin, he⟩ := counterexample_cases ha hb
  rw [he, Except.ok.injEq, Option.map_eq_none_iff] at h
  subst h
  by_cases hne : a.accepts word = b.accepts word
  · exact hne
  · obtain ⟨ls, pair, hls, -, hw, hsep⟩ :=
      exists_walk_of_accepts_ne ha.alphabet_wellFormed hb.alphabet_wellFormed hne
    rw [hfin.not_stop_of_reaches ⟨ls, hls, hw⟩] at hsep
    exact absurd hsep (by simp)

/-- A counterexample is accepted by exactly one of the automata. -/
theorem accepts_ne_of_counterexample_some {a b : Automaton} (ha : a.WellFormed)
    (hb : b.WellFormed) {word : List Label} (h : counterexample a b = .ok (some word)) :
    a.accepts word ≠ b.accepts word := by
  obtain ⟨search, stopped, hfin, he⟩ := counterexample_cases ha hb
  rw [he, Except.ok.injEq, Option.map_eq_some_iff] at h
  obtain ⟨k, rfl, rfl⟩ := h
  obtain ⟨pair, hk, hsep⟩ := hfin.stopped_at k rfl
  have hrun := pairRun_of_walk ha.alphabet_wellFormed
    (fun l hl => hfin.valid.trail_mem k l (List.mem_reverse.mp hl))
    (hfin.valid.trail_leads k pair hk)
  rw [← hrun, separates_pairRun] at hsep
  exact bne_iff_ne.mp hsep

/-- No shorter word than a counterexample separates the automata. -/
theorem length_le_of_counterexample_some {a b : Automaton} (ha : a.WellFormed)
    (hb : b.WellFormed) {word other : List Label} (h : counterexample a b = .ok (some word))
    (hne : a.accepts other ≠ b.accepts other) : word.length ≤ other.length := by
  obtain ⟨search, stopped, hfin, he⟩ := counterexample_cases ha hb
  rw [he, Except.ok.injEq, Option.map_eq_some_iff] at h
  obtain ⟨k, rfl, rfl⟩ := h
  obtain ⟨ls, pair, hls, rfl, hw, hsep⟩ :=
    exists_walk_of_accepts_ne ha.alphabet_wellFormed hb.alphabet_wellFormed hne
  have hle := hfin.trail_le_of_stop hls hw hsep
  simpa using hle

/-- Comparison always answers; it finds no counterexample exactly if the languages are equal. -/
theorem exists_counterexample {a b : Automaton} (ha : a.WellFormed) (hb : b.WellFormed) :
    ∃ answer, counterexample a b = .ok answer ∧
      (answer = none ↔ ∀ word, a.accepts word = b.accepts word) := by
  obtain ⟨search, stopped, -, he⟩ := counterexample_cases ha hb
  refine ⟨_, he, fun hnone => ?_, fun hsame => ?_⟩
  · rw [hnone] at he
    exact accepts_eq_of_counterexample_none ha hb he
  · cases hstop : stopped with
    | none => rfl
    | some k =>
        rw [hstop] at he
        exact absurd (hsame _) (accepts_ne_of_counterexample_some ha hb he)

/-- Comparison of well-formed automata decides equality of their languages over all strings:
it never fails, finds nothing exactly if the languages are equal, and otherwise finds a word
of least length that exactly one of them accepts. -/
theorem counterexample_decides {a b : Automaton} (ha : a.WellFormed) (hb : b.WellFormed) :
    ∃ answer : Option (List Label), counterexample a b = .ok answer ∧
      (answer = none ↔ ∀ word, a.accepts word = b.accepts word) ∧
      (∀ word, answer = some word → a.accepts word ≠ b.accepts word ∧
        ∀ shorter : List Label, shorter.length < word.length →
          a.accepts shorter = b.accepts shorter) ∧
      ∃ same, equivalent a b = .ok same ∧
        (same = true ↔ ∀ word, a.accepts word = b.accepts word) := by
  obtain ⟨answer, he, hnone⟩ := exists_counterexample ha hb
  refine ⟨answer, he, hnone, ?_, answer.isNone, ?_, ?_⟩
  · rintro word rfl
    refine ⟨accepts_ne_of_counterexample_some ha hb he, fun shorter hlt => ?_⟩
    by_cases hs : a.accepts shorter = b.accepts shorter
    · exact hs
    · exact absurd (length_le_of_counterexample_some ha hb he hs) (Nat.not_le_of_lt hlt)
  · rw [equivalent, he]
    rfl
  · rw [Option.isNone_iff_eq_none]
    exact hnone

/-- The automaton of all words over one label. -/
theorem exists_loop (label : Label) : ∃ a, build ["p"] [⟨"p", label, "p"⟩] "p" ["p"] = .ok a ∧
    a.WellFormed ∧ ∀ word, a.accepts word = true ↔ ∀ l ∈ word, l = label := by
  have hfits : Fits ["p"] [⟨"p", label, "p"⟩] "p" ["p"] :=
    ⟨by decide, by simp, by simp, by simp, by simp, by simp⟩
  obtain ⟨a, ha⟩ := exists_build hfits
  have hb := built_of_build ha
  have hzero : a.states.rank? "p" = some a.initial := hb.rank_initial
  have hstep : ∀ (l : Label) (t : Nat),
      a.step a.initial l = some t ↔ l = label ∧ t = a.initial := by
    intro l t
    rw [hb.step_iff]
    simp [hzero, eq_comm]
  refine ⟨a, ha, hb.wellFormed, fun word => ?_⟩
  rw [accepts_iff]
  induction word with
  | nil => simpa [run] using (hb.isFinal_iff a.initial).mpr ⟨"p", by simp, hzero⟩
  | cons l word ih =>
      rw [run_cons]
      cases hl : a.step a.initial l with
      | none =>
          have hne : l ≠ label := by
            rintro rfl
            exact absurd ((hstep l a.initial).mpr ⟨rfl, rfl⟩) (by simp [hl])
          simp [hne]
      | some t =>
          obtain ⟨rfl, rfl⟩ := (hstep l t).mp hl
          simpa using ih

/-- Automata over different labels that both accept the empty word differ on a word of one
label. -/
theorem counterexample_decides_loops :
    ∃ a b : Automaton, a.WellFormed ∧ b.WellFormed ∧ a.accepts [] = b.accepts [] ∧
      ∃ label, counterexample a b = .ok (some [label]) ∧
        a.accepts [label] ≠ b.accepts [label] := by
  obtain ⟨a, -, ha, hax⟩ := exists_loop "x"
  obtain ⟨b, -, hb, hby⟩ := exists_loop "y"
  have hempty : a.accepts [] = b.accepts [] := by
    rw [(hax []).mpr (by simp), (hby []).mpr (by simp)]
  have hax : a.accepts ["x"] = true := (hax _).mpr (by simp)
  have hbx : b.accepts ["x"] = false := by
    rw [Bool.eq_false_iff, ne_eq, hby]
    decide
  obtain ⟨answer, he, hnone, hsome, -⟩ := counterexample_decides ha hb
  refine ⟨a, b, ha, hb, hempty, ?_⟩
  cases answer with
  | none =>
      have := hnone.mp rfl ["x"]
      rw [hax, hbx] at this
      exact nomatch this
  | some word =>
      obtain ⟨hne, hleast⟩ := hsome word rfl
      match word with
      | [] => exact absurd hempty hne
      | [label] => exact ⟨label, he, hne⟩
      | _ :: _ :: _ =>
          have := hleast ["x"] (by simp)
          rw [hax, hbx] at this
          exact nomatch this

end ProcessLogic.Automaton
