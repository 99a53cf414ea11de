import ProcessLogic.Proofs.Compiler.Correctness
import ProcessLogic.Proofs.Compiler.Limits
import ProcessLogic.Proofs.Residual.Finite
import ProcessLogic.Proofs.Search.Limit

/-!
# The states of a compiled automaton

A formula reaches finitely many stages, and they are the states of its automaton. Whether there is
an automaton depends on the limit by their number alone, and what automaton it is does not depend
on the limit.
-/

namespace ProcessLogic

open Search

/-- The first stage, and all stages with obligations for the first `n` formulas. -/
def Stage.below (n : Nat) : List Stage := .initial :: (Dnf.below n).map .residual

/-- The stages with obligations for `n` formulas are at most doubly exponentially many. -/
theorem Stage.length_below_le (n : Nat) : (below n).length ≤ 1 + 2 ^ 2 ^ (2 * n) := by
  rw [below, List.length_cons, List.length_map, Nat.add_comm]
  exact Nat.add_le_add_left (Dnf.length_below_le n) 1

namespace Progression

variable {f : Nnf} {props : List String} {events : List Event}

/-- Whatever was due before an event, what is left after it speaks of stored formulas. -/
theorem within_after (stage : Stage) (event : Event) :
    ((ofNnf f props events).after (letterOf f props event) stage).Within f.stored.size := by
  have hknown := Progress.within_ofStore f.interned.closed event
  cases stage with
  | initial => exact hknown f.number
  | residual obligations => exact Progress.within_successor hknown obligations

/-- Every stage that is reached has obligations for stored formulas only. -/
theorem within_of_reaches {d : Dnf}
    (h : Reaches (ofNnf f props events).letters (ofNnf f props events).step .initial
      (.residual d)) : d.Within f.stored.size := by
  refine invariant_of_reaches (P := fun stage => ∀ d, stage = .residual d → d.Within f.stored.size)
    (fun _ hd => nomatch hd) ?_ h d rfl
  intro s _ event _ d hd
  obtain rfl := Stage.residual.inj hd
  exact within_after s event

/-- The stages of a formula are among finitely many. -/
theorem mem_below_of_reaches {stage : Stage}
    (h : Reaches (ofNnf f props events).letters (ofNnf f props events).step .initial stage) :
    stage ∈ Stage.below f.stored.size := by
  cases stage with
  | initial => exact List.mem_cons_self
  | residual obligations =>
      exact List.mem_cons_of_mem _ (List.mem_map_of_mem (within_of_reaches h).mem_below)

/-- Obligations that cannot be met are no stage. -/
theorem isBottom_of_reaches {p : Progression} {d : Dnf}
    (h : Reaches p.letters p.step .initial (.residual d)) : d.isBottom = false := by
  refine h.invariant (P := fun stage => ∀ d, stage = .residual d → d.isBottom = false)
    ?_ ?_ d rfl
  · exact fun d hd => nomatch hd
  · intro s _ letter _ t ht d hd
    obtain ⟨hbottom, rfl⟩ := step_eq_some_iff.mp ht
    rwa [← Stage.residual.inj hd]

/-- An event with the proposition leaves nothing of it to check. -/
theorem reaches_top_of_mem {name : String} {event : Event} (hevent : event ∈ events)
    (hname : name ∈ event) :
    Reaches (ofNnf (.literal false name) props events).letters
      (ofNnf (.literal false name) props events).step .initial (.residual .top) := by
  have hf := Nnf.interned (.literal false name)
  refine ⟨[letterOf (.literal false name) props event], ?_, ?_⟩
  · exact List.forall_mem_singleton.mpr (mem_letters.mpr ⟨event, hevent, rfl⟩)
  · cases hf.denotes with
    | literal hroot =>
        have hof := (Progress.ofStore_spec hf.closed event).2 _ (Roster.lt_size_of_get? hroot) _ hroot
        have hafter : (ofNnf (.literal false name) props events).after
            (letterOf (.literal false name) props event) .initial = .top := by
          rw [after_initial, hof, Node.progress, List.contains_iff_mem.mpr hname]
          rfl
        rw [walk_cons, step_eq_some_iff.mpr ⟨congrArg Dnf.isBottom hafter, rfl⟩, hafter]
        rfl

section Numbering

variable {p : Progression} {search : Search Stage Letter} {a : Automaton} {limit : Nat}

/-- The automaton has a state for every stage found. -/
theorem BuiltFrom.size_eq (h : p.BuiltFrom search a) : a.size = search.found.size := by
  rw [Automaton.size, h.states_eq, ← Roster.length_toList,
    Roster.toList_ofList_of_nodup (nodup_stateNumbers _), List.length_map, List.length_range,
    Roster.length_toList]

/-- Where letters lead from a stage, their labels lead from its state. -/
theorem BuiltFrom.exists_run_of_walk (h : p.BuiltFrom search a)
    (hf : Finished p.letters p.step (fun _ => false) limit .initial search none)
    {word : List Letter} (hword : ∀ letter ∈ word, letter ∈ p.letters) {i : Nat}
    {stage stage' : Stage} (hi : search.found.get? i = some stage)
    (hwalk : walk p.step stage word = some stage') :
    ∃ j, search.found.get? j = some stage' ∧ a.run i (word.map (·.label)) = some j := by
  induction word generalizing i stage with
  | nil =>
      obtain rfl := Option.some.inj hwalk
      exact ⟨i, hi, rfl⟩
  | cons letter word ih =>
      rw [walk_cons] at hwalk
      obtain ⟨next, hnext, hrest⟩ := Option.bind_eq_some_iff.mp hwalk
      have hletter := hword letter List.mem_cons_self
      obtain ⟨k, hk, hmove, -⟩ :=
        hf.covered i (Roster.lt_size_of_get? hi) letter hletter stage next hi hnext
      have hstep : a.step i letter.label = some k :=
        (h.step_iff_move hf.valid).mpr ⟨letter, hmove, rfl⟩
      obtain ⟨j, hj, hrun⟩ := ih (fun l hl => hword l (List.mem_cons_of_mem letter hl)) hk hrest
      refine ⟨j, hj, ?_⟩
      rw [List.map_cons, Automaton.run_cons, hstep]
      exact hrun

/-- The trail that found a stage leads to its state. -/
theorem BuiltFrom.exists_run_initial (h : p.BuiltFrom search a)
    (hf : Finished p.letters p.step (fun _ => false) limit .initial search none) {i : Nat}
    (hi : i < a.size) : ∃ word, a.run a.initial word = some i := by
  rw [h.size_eq] at hi
  obtain ⟨stage, hstage⟩ := Roster.exists_get?_of_lt hi
  have htrail := hf.valid.trail_leads i stage hstage
  have hletters : ∀ letter ∈ (search.trail i).reverse, letter ∈ p.letters :=
    fun letter hl => hf.valid.trail_mem i letter (List.mem_reverse.mp hl)
  obtain ⟨j, hj, hrun⟩ := h.exists_run_of_walk hf hletters hf.valid.found_start htrail
  obtain rfl := hf.valid.wellFormed.get?_inj hj hstage
  rw [h.initial_eq]
  exact ⟨_, hrun⟩

end Numbering

end Progression

namespace Compiler

variable {c : Compiler} {f : Formula} {a a' : Automaton} {limit limit' : Nat}

/-- Two limits that allow an automaton allow the same. -/
theorem automaton_unique (h : automaton { c with maxStates := limit } f = .ok a)
    (h' : automaton { c with maxStates := limit' } f = .ok a') : a = a' := by
  obtain ⟨-, search, stopped, hrun, hbuild⟩ := automaton_eq_ok_iff.mp h
  obtain ⟨-, search', stopped', hrun', hbuild'⟩ := automaton_eq_ok_iff.mp h'
  obtain ⟨rfl, -⟩ := Prod.mk.inj (run_unique hrun hrun')
  exact Except.ok.inj (hbuild.symm.trans hbuild')

/-- The states are as many as the stages. -/
theorem size_eq_of_reached (h : c.automaton f = .ok a) {stages : List Stage}
    (hnodup : stages.Nodup) (hstages : ∀ stage, stage ∈ stages ↔
      Reaches (c.progression f).letters (c.progression f).step .initial stage) :
    a.size = stages.length := by
  obtain ⟨search, hbuilt, hfinished⟩ := automaton_cases h
  rw [hbuilt.size_eq, hfinished.size_found hnodup hstages]

/-- With the stages of a formula counted, compilation is decided for every limit: it succeeds
exactly if there are no more stages than allowed, where at least one is, and then gives an
automaton that has the stages as its states, can reach them all, and is the same for every such
limit. -/
theorem automaton_of_limit (c : Compiler) (f : Formula)
    (h : ∀ count most, c.automaton f ≠ .error (.tooManyPropositions count most)) :
    ∃ (stages : List Stage) (a : Automaton),
      (stages.Nodup ∧
        (∀ stage, stage ∈ stages ↔
          Reaches (c.progression f).letters (c.progression f).step .initial stage) ∧
        .initial ∈ stages ∧ ∀ d, .residual d ∈ stages → d.isBottom = false) ∧
      a.size = stages.length ∧ (∀ s < a.size, ∃ word, a.run a.initial word = some s) ∧
      ∀ limit, automaton { c with maxStates := limit } f =
        if stages.length ≤ max 1 limit then .ok a else .error (.tooManyStates f limit) := by
  have hallows : c.semantics.allows (c.propositions f).length = true := by
    by_contra hnot
    exact h _ _ (automaton_eq_error_iff.mpr (Or.inl ⟨Bool.eq_false_iff.mpr hnot, rfl⟩))
  obtain ⟨stages, hnodup, hstages⟩ : ∃ stages : List Stage, stages.Nodup ∧ ∀ stage,
      stage ∈ stages ↔ Reaches (c.progression f).letters (c.progression f).step .initial stage :=
    exists_reached fun _ => Progression.mem_below_of_reaches
  have hexceeds : ∀ limit, Exceeds (c.progression f).letters (c.progression f).step limit
      .initial ↔ max 1 limit < stages.length := fun limit => exceeds_iff hnodup hstages
  have hroom : ∀ limit, stages.length ≤ max 1 limit →
      ∃ a, automaton { c with maxStates := limit } f = .ok a := by
    intro limit hle
    apply exists_automaton (c := { c with maxStates := limit }) hallows
    exact fun hmore => Nat.not_lt_of_le hle ((hexceeds limit).mp hmore)
  obtain ⟨a, ha⟩ := hroom stages.length (Nat.le_max_right 1 _)
  refine ⟨stages, a, ⟨hnodup, hstages, ?_, ?_⟩, ?_, ?_, fun limit => ?_⟩
  · exact (hstages _).mpr ⟨[], List.forall_mem_nil _, rfl⟩
  · exact fun d hd => Progression.isBottom_of_reaches ((hstages _).mp hd)
  · exact size_eq_of_reached ha hnodup hstages
  · obtain ⟨search, hbuilt, hfinished⟩ := automaton_cases ha
    exact fun s hs => hbuilt.exists_run_initial hfinished hs
  · by_cases hle : stages.length ≤ max 1 limit
    · obtain ⟨a', ha'⟩ := hroom limit hle
      rw [if_pos hle, ha', automaton_unique ha' ha]
    · rw [if_neg hle]
      apply automaton_eq_error_iff.mpr
      exact Or.inr ⟨hallows, (hexceeds limit).mpr (Nat.lt_of_not_le hle), rfl⟩

/-- A proposition has two stages: with a limit of 2 there is an automaton of two states, and with
0 or 1 there is none. -/
theorem automaton_of_limit_prop :
    let c : Compiler := { semantics := .single, maxStates := 2 }
    (∃ a, c.automaton (.prop "a") = .ok a ∧ a.size = 2) ∧ ∀ limit ≤ 1,
      automaton { c with maxStates := limit } (.prop "a") =
        .error (.tooManyStates (.prop "a") limit) := by
  intro c
  obtain ⟨stages, a, ⟨hnodup, hstages, -, -⟩, hsize, -, hlimit⟩ :=
    automaton_of_limit c (.prop "a") fun count most herror => by
      obtain ⟨a, ha⟩ := exists_automaton_of_isImmediate (c := c) (f := .prop "a") rfl rfl
        (Nat.le_refl 2)
      exact nomatch ha.symm.trans herror
  have hevent : ["a"] ∈ c.semantics.events (c.propositions (.prop "a")) := by
    refine List.mem_append_left _ (List.mem_map_of_mem ((c.mem_propositions _ "a").mpr ?_))
    rw [Formula.propositions, Sorted.mem_distinctStrings]
    exact Or.inr List.mem_cons_self
  have hperm : stages.Perm [.initial, .residual .top] := by
    rw [List.perm_ext_iff_of_nodup hnodup (by decide)]
    intro stage
    rw [hstages]
    constructor
    · exact Progression.mem_stages_of_isImmediate rfl
    · intro hm
      rcases List.mem_pair.mp hm with rfl | rfl
      · exact ⟨[], List.forall_mem_nil _, rfl⟩
      · exact Progression.reaches_top_of_mem hevent List.mem_cons_self
  rw [hperm.length_eq] at hsize hlimit
  refine ⟨⟨a, hlimit 2, hsize⟩, fun limit hle => ?_⟩
  have hfew : ¬ 2 ≤ max 1 limit := by omega
  exact (hlimit limit).trans (if_neg hfew)

end Compiler

end ProcessLogic
