import ProcessLogic.Proofs.Compiler.Simulation

/-!
# Compilation succeeds within its limits

The letters of one label are letters of one event, so they lead to one stage and the automaton
of a search is deterministic. Hence a formula over few enough propositions has an automaton
unless its progression has more stages than allowed.
-/

namespace ProcessLogic

open Search

/-- No state gets the name of the marker. -/
theorem stateNumber_ne_initialMarker (n : Nat) : stateNumber n ≠ Automaton.initialMarker := by
  intro h
  have hmem : 'i' ∈ (stateNumber n).toList := by
    rw [h]
    decide
  rw [stateNumber, Nat.toString_eq_repr, Nat.toList_repr] at hmem
  exact absurd (Nat.isDigit_of_mem_toDigits (by omega) (by omega) hmem) (by decide)

namespace Progression

variable {semantics : EventSemantics} {f : Nnf} {props : List String} {limit : Nat}
  {search : Search Stage Letter}

/-- Letters with one label are one letter. -/
theorem letter_eq_of_label_eq {letter letter' : Letter}
    (h : letter ∈ (ofNnf f props (semantics.events props)).letters)
    (h' : letter' ∈ (ofNnf f props (semantics.events props)).letters)
    (hlabel : letter.label = letter'.label) : letter = letter' := by
  obtain ⟨event, hlisted, rfl⟩ := mem_letters.mp h
  obtain ⟨event', hlisted', rfl⟩ := mem_letters.mp h'
  have hsame := Event.mem_iff_of_label_eq (EventSemantics.admits_of_mem_events hlisted)
    (EventSemantics.admits_of_mem_events hlisted') hlabel
  simp only [letterOf, Event.label_congr hsame, Progress.ofStore_congr hsame]

/-- Moves with one source and one label have one target. -/
theorem target_eq_of_moves
    (hv : Valid (ofNnf f props (semantics.events props)).letters
      (ofNnf f props (semantics.events props)).step limit .initial search)
    {i j j' : Nat} {letter letter' : Letter} (h : (i, letter, j) ∈ search.moves)
    (h' : (i, letter', j') ∈ search.moves) (hlabel : letter.label = letter'.label) :
    j = j' := by
  obtain ⟨hmem, s, t, hs, ht, hstep⟩ := hv.move_sound i letter j h
  obtain ⟨hmem', s', t', hs', ht', hstep'⟩ := hv.move_sound i letter' j' h'
  obtain rfl := letter_eq_of_label_eq hmem hmem' hlabel
  obtain rfl := Option.some.inj (hs.symm.trans hs')
  obtain rfl := Option.some.inj (hstep.symm.trans hstep')
  exact hv.wellFormed.get?_inj ht ht'

theorem stateNumber_mem_iff {i n : Nat} :
    stateNumber i ∈ (List.range n).map stateNumber ↔ i < n := by
  rw [List.mem_map]
  constructor
  · rintro ⟨j, hj, he⟩
    rw [← stateNumber_injective he]
    exact List.mem_range.mp hj
  · intro hi
    exact ⟨i, List.mem_range.mpr hi, rfl⟩

/-- A search of a progression always makes an automaton. -/
theorem exists_automaton
    (hv : Valid (ofNnf f props (semantics.events props)).letters
      (ofNnf f props (semantics.events props)).step limit .initial search) :
    ∃ a, (ofNnf f props (semantics.events props)).automaton search = .ok a := by
  refine Automaton.exists_build ⟨?_, ?_, ?_, ?_, ?_, ?_⟩
  · intro hm
    obtain ⟨n, -, hn⟩ := List.mem_map.mp hm
    exact stateNumber_ne_initialMarker n hn
  · rw [stateNumber_mem_iff, Roster.length_toList]
    exact Roster.lt_size_of_get? hv.found_start
  · intro name hm
    obtain ⟨⟨stage, n⟩, hz, hname⟩ := List.mem_filterMap.mp hm
    rw [List.mk_mem_zipIdx_iff_getElem?, Roster.getElem?_toList] at hz
    simp only [Option.ite_none_right_eq_some, Option.some.injEq] at hname
    rw [← hname.2, stateNumber_mem_iff, Roster.length_toList]
    exact Roster.lt_size_of_get? hz
  · intro tr htr
    obtain ⟨⟨i, letter, j⟩, hmove, rfl⟩ := List.mem_map.mp htr
    obtain ⟨-, s, t, hs, -, -⟩ := hv.move_sound i letter j (Array.mem_toList_iff.mp hmove)
    rw [stateNumber_mem_iff, Roster.length_toList]
    exact Roster.lt_size_of_get? hs
  · intro tr htr
    obtain ⟨⟨i, letter, j⟩, hmove, rfl⟩ := List.mem_map.mp htr
    obtain ⟨-, s, t, -, ht, -⟩ := hv.move_sound i letter j (Array.mem_toList_iff.mp hmove)
    rw [stateNumber_mem_iff, Roster.length_toList]
    exact Roster.lt_size_of_get? ht
  · intro tr htr tr' htr' hsource hlabel
    obtain ⟨⟨i, letter, j⟩, hmove, rfl⟩ := List.mem_map.mp htr
    obtain ⟨⟨i', letter', j'⟩, hmove', rfl⟩ := List.mem_map.mp htr'
    obtain rfl := stateNumber_injective hsource
    rw [target_eq_of_moves hv (Array.mem_toList_iff.mp hmove) (Array.mem_toList_iff.mp hmove')
      hlabel]

/-- What holds of the first stage, and of what is left after an event whenever it holds before,
holds of all stages. -/
theorem invariant_of_reaches {events : List Event} {P : Stage → Prop} (hstart : P .initial)
    (hstep : ∀ stage, P stage → ∀ event,
      ((ofNnf f props events).after (letterOf f props event) stage).isBottom = false →
        P (.residual ((ofNnf f props events).after (letterOf f props event) stage)))
    {stage : Stage}
    (hreach : Reaches (ofNnf f props events).letters (ofNnf f props events).step .initial stage) :
    P stage := by
  apply hreach.invariant hstart
  intro s hs letter hletter t ht
  obtain ⟨event, -, rfl⟩ := mem_letters.mp hletter
  obtain ⟨hbottom, rfl⟩ := step_eq_some_iff.mp ht
  exact hstep s hs event hbottom

/-- The stages of `X p`: nothing read, `p` due next, and done. -/
theorem exists_stages_next (negated : Bool) (name : String) (props : List String)
    (events : List Event) :
    ∃ stages : List Stage, stages.length = 3 ∧ ∀ stage,
      Reaches (ofNnf (.next (.literal negated name)) props events).letters
        (ofNnf (.next (.literal negated name)) props events).step .initial stage →
      stage ∈ stages := by
  have hf := Nnf.interned (.next (.literal negated name))
  have hcl := hf.closed
  cases hf.denotes with
  | next hroot hbody =>
      rename_i m
      cases hbody with
      | literal hleaf =>
          refine ⟨[.initial, .residual (.ofObligation (.next m)), .residual .top], rfl, ?_⟩
          refine fun stage => invariant_of_reaches List.mem_cons_self ?_
          intro s hs event hbottom
          have hof := (Progress.ofStore_spec hcl event).2
          simp only [List.mem_cons, List.not_mem_nil, or_false] at hs ⊢
          rcases hs with rfl | rfl | rfl
          · rw [after_initial, hof _ (Roster.lt_size_of_get? hroot) _ hroot]
            exact Or.inr (Or.inl rfl)
          · have hthen := Progress.successor_ofObligation (o := .next m)
              (hof _ (Roster.lt_size_of_get? hleaf) _ hleaf)
            rw [after_residual, hthen] at hbottom ⊢
            cases hvalue : event.contains name != negated with
            | true => exact Or.inr (Or.inr rfl)
            | false =>
                rw [hvalue] at hbottom
                exact nomatch hbottom
          · rw [after_residual, Progress.successor_top]
            exact Or.inr (Or.inr rfl)

/-- The stages of a formula without temporal operators: nothing read, and done. -/
theorem mem_stages_of_isImmediate {events : List Event} (h : f.isImmediate = true) {stage : Stage}
    (hreach : Reaches (ofNnf f props events).letters (ofNnf f props events).step .initial stage) :
    stage ∈ [.initial, .residual .top] := by
  refine invariant_of_reaches List.mem_cons_self ?_ hreach
  intro s hs event hbottom
  refine List.mem_cons_of_mem _ (List.mem_singleton.mpr (congrArg Stage.residual ?_))
  simp only [List.mem_cons, List.not_mem_nil, or_false] at hs
  rcases hs with rfl | rfl
  · obtain ⟨value, hvalue⟩ := Progress.exists_of_eq_of_isImmediate f.interned.closed event
      f.interned.denotes h
    rw [after_initial, hvalue] at hbottom ⊢
    cases value with
    | true => rfl
    | false => exact nomatch hbottom
  · rw [after_residual, Progress.successor_top]

end Progression

namespace Compiler

variable {c : Compiler} {f : Formula}

/-- A compiler knows at most the declared propositions and those that occur. -/
theorem length_propositions_le (c : Compiler) (f : Formula) :
    (c.propositions f).length ≤ c.declared.length + f.occurrences.length := by
  have hown := Sorted.length_distinct_le Sorted.linear_string f.occurrences
  have hall := Sorted.length_distinct_le Sorted.linear_string (c.declared ++ f.propositions)
  rw [List.length_append] at hall
  exact Nat.le_trans hall (Nat.add_le_add_left hown _)

/-- With few enough propositions only too many stages prevent an automaton. -/
theorem exists_automaton (hallows : c.semantics.allows (c.propositions f).length = true)
    (hroom : ¬ Exceeds (c.progression f).letters (c.progression f).step c.maxStates .initial) :
    ∃ a, c.automaton f = .ok a := by
  cases hrun : run (c.progression f).letters (c.progression f).step (fun _ => false)
      c.maxStates .initial with
  | none => exact absurd (exceeds_of_run hrun) hroom
  | some result =>
      obtain ⟨search, stopped⟩ := result
      obtain ⟨a, ha⟩ : ∃ a, (c.progression f).automaton search = .ok a :=
        Progression.exists_automaton (finished_of_run hrun).valid
      exact ⟨a, automaton_eq_ok_iff.mpr ⟨hallows, search, stopped, hrun, ha⟩⟩

/-- Three states are enough for `X p`. -/
theorem exists_automaton_next_prop (name : String)
    (hallows : c.semantics.allows (c.propositions (.unary .next (.prop name))).length = true)
    (hlimit : 3 ≤ c.maxStates) : ∃ a, c.automaton (.unary .next (.prop name)) = .ok a := by
  obtain ⟨stages, hlen, hstages⟩ := Progression.exists_stages_next false name
    (c.propositions (.unary .next (.prop name)))
    (c.semantics.events (c.propositions (.unary .next (.prop name))))
  exact exists_automaton hallows (not_exceeds_of_mem stages (by omega) hstages)

/-- Two states are enough for a formula without temporal operators. -/
theorem exists_automaton_of_isImmediate
    (hallows : c.semantics.allows (c.propositions f).length = true)
    (h : f.nnf.isImmediate = true) (hlimit : 2 ≤ c.maxStates) :
    ∃ a, c.automaton f = .ok a :=
  exists_automaton hallows (not_exceeds_of_mem _ (Nat.le_trans hlimit (Nat.le_max_right _ _))
    fun _ => Progression.mem_stages_of_isImmediate h)

end Compiler

end ProcessLogic
