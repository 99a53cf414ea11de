import Std.Data.String.ToNat
import ProcessLogic.Automaton.Completion
import ProcessLogic.Proofs.Automaton.Run

/-!
# Universal and completed automata

Both are assembled without the checks of `build`, so that they are well-formed has to be shown.
Completion keeps all states with their edges, and adds edges to a sink where some are missing. The
sink has a name of its own, because of `n + 1` different names one is not among `n` others.
-/

namespace ProcessLogic.Automaton

/-- What a table of edges holds after some slots have been filled by a rule. -/
theorem getElem?_foldl_insert (value : Nat × Nat → Nat) (slots : List (Nat × Nat))
    (edges : Std.HashMap (Nat × Nat) Nat) (slot : Nat × Nat) :
    (slots.foldl (fun edges slot => edges.insert slot (value slot)) edges)[slot]? =
      if slot ∈ slots then some (value slot) else edges[slot]? := by
  induction slots generalizing edges with
  | nil => simp
  | cons first slots ih =>
      rw [List.foldl_cons, ih, Std.HashMap.getElem?_insert]
      by_cases hlater : slot ∈ slots
      · simp [hlater]
      · by_cases hfirst : first = slot
        · simp [hfirst]
        · have hne : slot ≠ first := fun he => hfirst he.symm
          simp [hlater, hfirst, hne]

/-- The same for the slots of one state, filled with one target. -/
theorem getElem?_foldl_insert_range (source target count : Nat)
    (edges : Std.HashMap (Nat × Nat) Nat) (s l : Nat) :
    ((List.range count).foldl (fun edges l => edges.insert (source, l) target) edges)[(s, l)]? =
      if s = source ∧ l < count then some target else edges[(s, l)]? := by
  have hslots := getElem?_foldl_insert (fun _ => target) ((List.range count).map (source, ·))
    edges (s, l)
  rw [List.foldl_map] at hslots
  rw [hslots]
  have hmem : (s, l) ∈ (List.range count).map (source, ·) ↔ s = source ∧ l < count := by
    simp only [List.mem_map, List.mem_range, Prod.mk.injEq]
    constructor
    · rintro ⟨k, hk, rfl, rfl⟩
      exact ⟨rfl, hk⟩
    · rintro ⟨rfl, hl⟩
      exact ⟨l, hl, rfl, rfl⟩
  simp only [hmem]

/-! ### The universal automaton -/

/-- The universal automaton stays in its only state on each of its labels. -/
theorem stepAt_universal (labels : List Label) (s l : Nat) :
    (universal labels).stepAt s l =
      if s = 0 ∧ l < (Roster.ofList labels).size then some 0 else none := by
  have hedges := getElem?_foldl_insert_range 0 0 (Roster.ofList labels).size {} s l
  rw [Std.HashMap.getElem?_empty] at hedges
  exact hedges

/-- The universal automaton is well-formed, even over no labels. -/
theorem wellFormed_universal (labels : List Label) : (universal labels).WellFormed := by
  have hsize : (universal labels).states.size = 1 := by
    rw [← Roster.length_toList]
    exact congrArg List.length (Roster.toList_ofList_singleton "0")
  have hmarker : (universal labels).states.contains initialMarker = false := by
    have hnot : initialMarker ∉ ["0"] := by decide
    exact Bool.eq_false_iff.mpr fun hc => hnot (Roster.contains_ofList.mp hc)
  refine ⟨Roster.wellFormed_ofList _, Roster.wellFormed_ofList labels, ?_, hsize.symm, hmarker,
    ?_, ?_⟩
  · rw [hsize]
    exact Nat.zero_lt_one
  · intro s l t he
    have hstep := stepAt_universal labels s l
    rw [stepAt, he] at hstep
    split at hstep
    · rename_i hslot
      obtain ⟨rfl, hl⟩ := hslot
      obtain rfl := Option.some.inj hstep
      rw [hsize]
      exact ⟨Nat.zero_lt_one, hl, Nat.zero_lt_one⟩
    · exact nomatch hstep
  · intro l hl
    exact ⟨0, 0, (stepAt_universal labels 0 l).trans (if_pos ⟨rfl, hl⟩)⟩

/-! ### A name that is not taken -/

/-- The names among which a fresh one is looked for. -/
def candidates (base : String) (count : Nat) : List String :=
  base :: (List.range count).map fun n => base ++ toString (n + 1)

/-- There is one candidate more than names that may be taken. -/
theorem length_candidates (base : String) (count : Nat) :
    (candidates base count).length = count + 1 := by
  simp [candidates]

/-- Every candidate starts with the name that was asked for. -/
theorem exists_suffix_of_mem_candidates {base name : String} {count : Nat}
    (h : name ∈ candidates base count) : ∃ suffix, name = base ++ suffix := by
  rcases List.mem_cons.mp h with rfl | h
  · exact ⟨"", String.append_empty.symm⟩
  · obtain ⟨n, -, rfl⟩ := List.mem_map.mp h
    exact ⟨_, rfl⟩

/-- The candidates differ from each other. -/
theorem nodup_candidates (base : String) (count : Nat) : (candidates base count).Nodup := by
  refine List.nodup_cons.mpr ⟨fun h => ?_, List.Pairwise.map _ ?_ List.nodup_range⟩
  · obtain ⟨n, -, he⟩ := List.mem_map.mp h
    exact Nat.repr_ne_empty (String.append_eq_left_iff.mp he)
  · intro m n hne he
    have hrepr := (String.append_right_inj base).mp he
    exact hne (Nat.succ.inj (Nat.repr_injective hrepr))

/-- There are more candidates than taken names. -/
theorem exists_candidate {taken : Roster String} (h : taken.WellFormed) (base : String) :
    ∃ name ∈ candidates base taken.size, taken.contains name = false := by
  refine Classical.byContradiction fun hnone => ?_
  have hsubset : ∀ name ∈ candidates base taken.size, name ∈ taken.toList := by
    intro name hm
    refine h.contains_iff.mp ?_
    cases hc : taken.contains name with
    | true => rfl
    | false => exact absurd ⟨name, hm, hc⟩ hnone
  have hlength := (nodup_candidates base taken.size).length_le_of_subset hsubset
  rw [length_candidates, Roster.length_toList] at hlength
  omega

/-- A fresh name is not taken, and begins with the base. -/
theorem freshName_spec {taken : Roster String} (h : taken.WellFormed) (base : String) :
    taken.contains (freshName taken base) = false ∧
      ∃ suffix, freshName taken base = base ++ suffix := by
  have hfresh : freshName taken base =
      ((candidates base taken.size).find? fun name => !taken.contains name).getD base := rfl
  obtain ⟨name, hm, hname⟩ := exists_candidate h base
  cases hfind : (candidates base taken.size).find? fun name => !taken.contains name with
  | none =>
      have htaken := List.find?_eq_none.mp hfind name hm
      rw [hname] at htaken
      exact absurd rfl htaken
  | some fresh =>
      rw [hfresh, hfind, Option.getD_some]
      have hfree := List.find?_some hfind
      rw [Bool.not_eq_true'] at hfree
      have hcandidate := List.mem_of_find?_eq_some hfind
      exact ⟨hfree, exists_suffix_of_mem_candidates hcandidate⟩

/-! ### Completion -/

section Completion

variable {a : Automaton} {extra : List Label}

/-- All states with all labels, both by place. -/
def slots (a : Automaton) (count : Nat) : List (Nat × Nat) :=
  (List.range a.size).flatMap fun s => (List.range count).map (s, ·)

/-- A slot is a state and a label, both given by place. -/
theorem mem_slots {count s l : Nat} : (s, l) ∈ a.slots count ↔ s < a.size ∧ l < count := by
  simp only [slots, List.mem_flatMap, List.mem_map, List.mem_range, Prod.mk.injEq]
  constructor
  · rintro ⟨s, hs, l, hl, rfl, rfl⟩
    exact ⟨hs, hl⟩
  · rintro ⟨hs, hl⟩
    exact ⟨s, hs, l, hl, rfl, rfl⟩

/-- Whether every state has an edge on each of so many labels. -/
def covers (a : Automaton) (count : Nat) : Bool :=
  (a.slots count).all fun (s, l) => (a.stepAt s l).isSome

/-- The test for missing edges passes exactly if none is missing. -/
theorem covers_iff {count : Nat} :
    a.covers count = true ↔ ∀ s < a.size, ∀ l < count, ∃ t, a.stepAt s l = some t := by
  rw [covers, List.all_eq_true]
  constructor
  · intro h s hs l hl
    exact Option.isSome_iff_exists.mp (h (s, l) (mem_slots.mpr ⟨hs, hl⟩))
  · rintro h ⟨s, l⟩ hm
    obtain ⟨hs, hl⟩ := mem_slots.mp hm
    exact Option.isSome_iff_exists.mpr (h s hs l hl)

/-- The edges of all states, those that are missing led to a sink. -/
def edgesToSink (a : Automaton) (count : Nat) : Std.HashMap (Nat × Nat) Nat :=
  (a.slots count).foldl
    (fun edges slot => edges.insert slot ((a.stepAt slot.1 slot.2).getD a.size)) {}

/-- The edges are kept where there are some, and lead to the sink elsewhere. -/
theorem getElem?_edgesToSink (count s l : Nat) : (a.edgesToSink count)[(s, l)]? =
    if s < a.size ∧ l < count then some ((a.stepAt s l).getD a.size) else none := by
  rw [edgesToSink, getElem?_foldl_insert, Std.HashMap.getElem?_empty]
  simp only [mem_slots]

/-- An automaton without missing edges gets nothing but further labels. -/
theorem complete_of_covers (h : a.covers (a.alphabet.insertMany extra).size = true) :
    a.complete extra =
      { a with
        alphabet := a.alphabet.insertMany extra
        edges := a.edgesToSink (a.alphabet.insertMany extra).size } :=
  if_pos h

/-- An automaton with missing edges gets a sink of a fresh name, and the edges to it. -/
theorem complete_of_not_covers (h : a.covers (a.alphabet.insertMany extra).size = false) :
    a.complete extra =
      { states := a.states.insert (freshName a.states "sink")
        alphabet := a.alphabet.insertMany extra
        edges := (List.range (a.alphabet.insertMany extra).size).foldl
          (fun edges l => edges.insert (a.size, l) a.size)
          (a.edgesToSink (a.alphabet.insertMany extra).size)
        initial := a.initial
        accepting := a.accepting.push false } :=
  if_neg (Bool.eq_false_iff.mp h)

/-- The name of the sink is not taken. -/
theorem rank?_sinkName (h : a.WellFormed) : a.states.rank? (freshName a.states "sink") = none := by
  obtain ⟨hfree, -⟩ := freshName_spec h.states_wellFormed "sink"
  exact Option.isNone_iff_eq_none.mp (Option.isSome_eq_false_iff.mp hfree)

/-- The sink is not called like the marker of the initial state. -/
theorem sinkName_ne_initialMarker (h : a.WellFormed) :
    freshName a.states "sink" ≠ initialMarker := by
  obtain ⟨-, suffix, hname⟩ := freshName_spec h.states_wellFormed "sink"
  intro he
  have hchars := congrArg String.toList (hname.symm.trans he)
  rw [String.toList_append] at hchars
  exact absurd (List.cons.inj hchars).1 (by decide)

/-- If no edge is missing, completion does not even add a state. -/
theorem WellFormed.complete_without_sink (h : a.WellFormed)
    (hcovers : a.covers (a.alphabet.insertMany extra).size = true) :
    (a.complete extra).WellFormed := by
  rw [complete_of_covers hcovers]
  refine { h with alphabet_wellFormed := h.alphabet_wellFormed.insertMany extra
                  edge_lt := ?_, label_used := ?_ }
  · intro s l t he
    rw [getElem?_edgesToSink] at he
    split at he
    · rename_i hslot
      obtain ⟨hs, hl⟩ := hslot
      obtain ⟨t', ht'⟩ := covers_iff.mp hcovers s hs l hl
      rw [ht', Option.getD_some] at he
      obtain rfl := Option.some.inj he
      exact ⟨hs, hl, h.stepAt_lt ht'⟩
    · exact nomatch he
  · intro l hl
    exact ⟨a.initial, _, (getElem?_edgesToSink _ _ _).trans (if_pos ⟨h.initial_lt, hl⟩)⟩

/-- A sink is added as the last state, with a name of its own. -/
theorem WellFormed.complete_with_sink (h : a.WellFormed)
    (hcovers : a.covers (a.alphabet.insertMany extra).size = false) :
    (a.complete extra).WellFormed := by
  have hsize : (a.states.insert (freshName a.states "sink")).size = a.size + 1 :=
    Roster.size_insert_of_rank?_eq_none (rank?_sinkName h)
  rw [complete_of_not_covers hcovers]
  refine ⟨h.states_wellFormed.insert _, h.alphabet_wellFormed.insertMany extra, ?_, ?_, ?_, ?_, ?_⟩
  · rw [hsize]
    exact Nat.lt_succ_of_lt h.initial_lt
  · rw [hsize, Array.size_push, h.accepting_size]
    rfl
  · refine Bool.eq_false_iff.mpr fun hc => ?_
    have hm := (h.states_wellFormed.insert _).contains_iff.mp hc
    rcases h.states_wellFormed.mem_insert.mp hm with hold | hnew
    · rw [← h.states_wellFormed.contains_iff, h.marker_free] at hold
      exact nomatch hold
    · exact sinkName_ne_initialMarker h hnew.symm
  · intro s l t he
    -- the loops of the sink are entered last, so they are looked up first
    rw [getElem?_foldl_insert_range, getElem?_edgesToSink] at he
    rw [hsize]
    split at he
    · rename_i hslot
      obtain ⟨rfl, hl⟩ := hslot
      obtain rfl := Option.some.inj he
      exact ⟨Nat.lt_succ_self _, hl, Nat.lt_succ_self _⟩
    · split at he
      · rename_i hslot
        obtain ⟨hs, hl⟩ := hslot
        refine ⟨Nat.lt_succ_of_lt hs, hl, ?_⟩
        obtain rfl := Option.some.inj he
        cases ht : a.stepAt s l with
        | none => exact Nat.lt_succ_self _
        | some t => exact Nat.lt_succ_of_lt (h.stepAt_lt ht)
      · exact nomatch he
  · intro l hl
    -- a label that no state knew is on the loops of the sink at least
    refine ⟨a.size, a.size, ?_⟩
    rw [getElem?_foldl_insert_range, if_pos ⟨rfl, hl⟩]

/-- Completion keeps automata well-formed, whatever labels are added and whatever states are
called. -/
theorem WellFormed.complete (h : a.WellFormed) (extra : List Label) :
    (a.complete extra).WellFormed := by
  cases hcovers : a.covers (a.alphabet.insertMany extra).size with
  | true => exact h.complete_without_sink hcovers
  | false => exact h.complete_with_sink hcovers

end Completion

end ProcessLogic.Automaton
