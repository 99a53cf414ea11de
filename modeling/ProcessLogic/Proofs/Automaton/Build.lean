import ProcessLogic.Proofs.Automaton.Run
import ProcessLogic.Proofs.Collection.Fold

/-!
# Building automata from parts

`Built` says in what way an automaton is made of the parts given to `build`: states, labels and
edges are exactly those named. Whatever `build` returns is `Built` and well-formed, and `build`
succeeds exactly on parts that fit together.
-/

namespace ProcessLogic.Automaton

open Roster

/-- A name is found at its rank among the states. -/
theorem lookup_eq_ok_iff {states : Roster String} {role : StateRole} {name : String} {s : Nat} :
    lookup states role name = .ok s ↔ states.rank? name = some s := by
  unfold lookup
  cases states.rank? name <;> simp

/-- How an automaton is made of its parts. -/
structure Built (states : List String) (transitions : List Transition) (initial : String)
    (finals : List String) (a : Automaton) : Prop where
  states_eq : a.states = Roster.ofList states
  marker_notMem : initialMarker ∉ states
  alphabet_eq : a.alphabet = Roster.ofList (transitions.map (·.label))
  rank_initial : a.states.rank? initial = some a.initial
  accepting_size : a.accepting.size = a.states.size
  isFinal_iff : ∀ s, a.isFinal s = true ↔ ∃ name ∈ finals, a.states.rank? name = some s
  declared : ∀ tr ∈ transitions, ∃ s t, a.states.rank? tr.source = some s ∧
    a.states.rank? tr.target = some t
  edge_iff : ∀ s l t, a.edges[(s, l)]? = some t ↔ ∃ tr ∈ transitions,
    a.alphabet.rank? tr.label = some l ∧ a.states.rank? tr.source = some s ∧
      a.states.rank? tr.target = some t

/-- The marks after some names have been marked. -/
structure Marked (states : Roster String) (names : List String) (marks : Array Bool) : Prop where
  size_eq : marks.size = states.size
  marked_iff : ∀ s, marks.getD s false = true ↔ ∃ name ∈ names, states.rank? name = some s

theorem marked_empty (states : Roster String) :
    Marked states [] (Array.replicate states.size false) := by
  refine ⟨Array.size_replicate, fun s => ?_⟩
  simp only [Array.getD_eq_getD_getElem?, Array.getElem?_replicate]
  split <;> simp

/-- Marking the state of one more name marks it and keeps the marks of the others. -/
theorem Marked.push {states : Roster String} (hw : states.WellFormed) {names : List String}
    {marks : Array Bool} (h : Marked states names marks) {name : String} {s : Nat}
    (hs : states.rank? name = some s) :
    Marked states (names ++ [name]) (marks.setIfInBounds s true) := by
  have hlt : s < marks.size := by
    rw [h.size_eq]
    exact rank?_lt_size hw hs
  refine ⟨by rw [Array.size_setIfInBounds, h.size_eq], fun r => ?_⟩
  have hget : (marks.setIfInBounds s true).getD r false =
      if s = r then true else marks.getD r false := by
    simp only [Array.getD_eq_getD_getElem?, Array.getElem?_setIfInBounds, hlt, if_true]
    split <;> rfl
  rw [hget]
  constructor
  · intro hr
    split at hr
    · subst r
      exact ⟨name, by simp, hs⟩
    · obtain ⟨other, hm, ho⟩ := (h.marked_iff r).mp hr
      exact ⟨other, by simp [hm], ho⟩
  · rintro ⟨other, hm, ho⟩
    rcases List.mem_append.mp hm with hm | hm
    · rw [(h.marked_iff r).mpr ⟨other, hm, ho⟩]
      simp
    · obtain rfl := List.mem_singleton.mp hm
      rw [if_pos (Option.some.inj (hs.symm.trans ho))]

/-- The alphabet and the edges after some transitions have been added. -/
structure Wired (states : Roster String) (transitions : List Transition)
    (wires : Roster Label × Std.HashMap (Nat × Nat) Nat) : Prop where
  alphabet_eq : wires.1 = Roster.ofList (transitions.map (·.label))
  declared : ∀ tr ∈ transitions, ∃ s t, states.rank? tr.source = some s ∧
    states.rank? tr.target = some t
  edge_iff : ∀ s l t, wires.2[(s, l)]? = some t ↔ ∃ tr ∈ transitions,
    wires.1.rank? tr.label = some l ∧ states.rank? tr.source = some s ∧
      states.rank? tr.target = some t

theorem wired_empty (states : Roster String) : Wired states [] ({}, {}) :=
  ⟨rfl, by simp, by simp⟩

/-- What adding one transition does: its states are declared, and the edge is new or was there
already. -/
theorem addEdge_cases {states : Roster String}
    {wires wires' : Roster Label × Std.HashMap (Nat × Nat) Nat} {tr : Transition}
    (h : addEdge states wires tr = .ok wires') :
    ∃ s t, states.rank? tr.source = some s ∧ states.rank? tr.target = some t ∧
      ((wires.2[(s, (wires.1.intern tr.label).1)]? = none ∧
        wires' = (wires.1.insert tr.label,
          wires.2.insert (s, (wires.1.intern tr.label).1) t)) ∨
      (wires.2[(s, (wires.1.intern tr.label).1)]? = some t ∧
        wires' = (wires.1.insert tr.label, wires.2))) := by
  obtain ⟨s, hs, h⟩ := Fold.bind_eq_ok_iff.mp h
  obtain ⟨t, ht, h⟩ := Fold.bind_eq_ok_iff.mp h
  refine ⟨s, t, lookup_eq_ok_iff.mp hs, lookup_eq_ok_iff.mp ht, ?_⟩
  dsimp only at h
  cases he : wires.2[(s, (wires.1.intern tr.label).1)]? with
  | none =>
      rw [he] at h
      exact Or.inl ⟨rfl, (Except.ok.inj h).symm⟩
  | some earlier =>
      rw [he] at h
      by_cases heq : earlier = t
      · simp only [heq, if_true] at h
        exact Or.inr ⟨by rw [heq], (Except.ok.inj h).symm⟩
      · simp only [heq, if_false] at h
        exact absurd h (by simp [throw, throwThe, MonadExceptOf.throw])

/-- The labels of the transitions added so far stand once each. -/
theorem Wired.alphabet_wellFormed {states : Roster String} {transitions : List Transition}
    {wires : Roster Label × Std.HashMap (Nat × Nat) Nat} (h : Wired states transitions wires) :
    wires.1.WellFormed := by
  rw [h.alphabet_eq]
  exact wellFormed_ofList _

theorem Wired.label_mem {states : Roster String} {transitions : List Transition}
    {wires : Roster Label × Std.HashMap (Nat × Nat) Nat} (h : Wired states transitions wires)
    {tr : Transition} (hm : tr ∈ transitions) : tr.label ∈ wires.1.toList := by
  rw [h.alphabet_eq, mem_ofList]
  exact List.mem_map_of_mem hm

/-- Listing the label of a new transition leaves the edges of the others where they are. -/
theorem Wired.exists_transition_iff {states : Roster String} {transitions : List Transition}
    {wires : Roster Label × Std.HashMap (Nat × Nat) Nat} (h : Wired states transitions wires)
    {tr : Transition} {s t : Nat} (hs : states.rank? tr.source = some s)
    (ht : states.rank? tr.target = some t) (s' l' t' : Nat) :
    (∃ tr' ∈ transitions ++ [tr], (wires.1.insert tr.label).rank? tr'.label = some l' ∧
        states.rank? tr'.source = some s' ∧ states.rank? tr'.target = some t') ↔
      wires.2[(s', l')]? = some t' ∨ (s = s' ∧ (wires.1.intern tr.label).1 = l' ∧ t = t') := by
  have hw := h.alphabet_wellFormed
  have hrank : (wires.1.insert tr.label).rank? tr.label = some (wires.1.intern tr.label).1 :=
    (hw.insert _).rank?_eq_some_iff.mpr (hw.get?_intern _)
  have hold : ∀ tr' ∈ transitions,
      (wires.1.insert tr.label).rank? tr'.label = wires.1.rank? tr'.label :=
    fun tr' hm => (extends_intern _ _).rank?_eq hw (hw.insert _) (h.label_mem hm)
  rw [h.edge_iff]
  constructor
  · rintro ⟨tr', hm, hl', hs', ht'⟩
    rcases List.mem_append.mp hm with hm | hm
    · exact Or.inl ⟨tr', hm, (hold tr' hm).symm.trans hl', hs', ht'⟩
    · obtain rfl := List.mem_singleton.mp hm
      exact Or.inr ⟨Option.some.inj (hs.symm.trans hs'), Option.some.inj (hrank.symm.trans hl'),
        Option.some.inj (ht.symm.trans ht')⟩
  · rintro (⟨tr', hm, hl', hs', ht'⟩ | ⟨rfl, rfl, rfl⟩)
    · exact ⟨tr', List.mem_append_left _ hm, (hold tr' hm).trans hl', hs', ht'⟩
    · exact ⟨tr, by simp, hrank, hs, ht⟩

/-- A transition that is added without an error has its edge afterwards, beside all earlier ones. -/
theorem Wired.add {states : Roster String} {transitions : List Transition}
    {wires wires' : Roster Label × Std.HashMap (Nat × Nat) Nat} {tr : Transition}
    (h : Wired states transitions wires) (hadd : addEdge states wires tr = .ok wires') :
    Wired states (transitions ++ [tr]) wires' := by
  obtain ⟨s, t, hs, ht, hcases⟩ := addEdge_cases hadd
  have hiff := h.exists_transition_iff hs ht
  have halpha : wires.1.insert tr.label =
      Roster.ofList ((transitions ++ [tr]).map (·.label)) := by
    rw [h.alphabet_eq, List.map_append, Roster.ofList, Roster.ofList, insertMany_append]
    rfl
  have hdeclared : ∀ tr' ∈ transitions ++ [tr], ∃ s t, states.rank? tr'.source = some s ∧
      states.rank? tr'.target = some t := by
    intro tr' hm
    rcases List.mem_append.mp hm with hm | hm
    · exact h.declared tr' hm
    · obtain rfl := List.mem_singleton.mp hm
      exact ⟨s, t, hs, ht⟩
  rcases hcases with ⟨hnone, rfl⟩ | ⟨hsome, rfl⟩
  · refine ⟨halpha, hdeclared, fun s' l' t' => ?_⟩
    rw [hiff, Std.HashMap.getElem?_insert]
    simp only [beq_iff_eq]
    by_cases he : (s, (wires.1.intern tr.label).1) = (s', l')
    · obtain ⟨rfl, rfl⟩ := Prod.mk.inj he
      simp [hnone]
    · rw [if_neg he]
      constructor
      · exact Or.inl
      · rintro (hedge | ⟨rfl, rfl, -⟩)
        · exact hedge
        · exact absurd rfl he
  · refine ⟨halpha, hdeclared, fun s' l' t' => ?_⟩
    rw [hiff]
    constructor
    · exact Or.inl
    · rintro (hedge | ⟨rfl, rfl, rfl⟩)
      · exact hedge
      · exact hsome

/-- A transition between declared states can be added if every transition added before with
the same source and label has the same target. -/
theorem Wired.exists_add {states : Roster String} (hw : states.WellFormed)
    {transitions : List Transition} {wires : Roster Label × Std.HashMap (Nat × Nat) Nat}
    (h : Wired states transitions wires) {tr : Transition} (hs : tr.source ∈ states.toList)
    (ht : tr.target ∈ states.toList)
    (hsame : ∀ tr' ∈ transitions, tr'.source = tr.source → tr'.label = tr.label →
      tr'.target = tr.target) :
    ∃ wires', addEdge states wires tr = .ok wires' := by
  obtain ⟨s, hs⟩ := (mem_toList_iff _ _).mp hs
  obtain ⟨t, ht⟩ := (mem_toList_iff _ _).mp ht
  have hs' := hw.rank?_eq_some_iff.mpr hs
  have ht' := hw.rank?_eq_some_iff.mpr ht
  simp only [addEdge, bind, Except.bind, pure, Except.pure, lookup_eq_ok_iff.mpr hs',
    lookup_eq_ok_iff.mpr ht']
  cases he : wires.2[(s, (wires.1.intern tr.label).1)]? with
  | none => exact ⟨_, rfl⟩
  | some earlier =>
      obtain ⟨tr', hm, hl', hsrc, htgt⟩ := (h.edge_iff _ _ _).mp he
      have hwl := h.alphabet_wellFormed
      have hlabel : tr'.label = tr.label := by
        have h₁ := extends_intern wires.1 tr.label _ _ (hwl.rank?_eq_some_iff.mp hl')
        exact Option.some.inj (h₁.symm.trans (hwl.get?_intern _))
      have hsource : tr'.source = tr.source :=
        Option.some.inj ((hw.rank?_eq_some_iff.mp hsrc).symm.trans hs)
      rw [hsame tr' hm hsource hlabel, ht'] at htgt
      exact ⟨_, if_pos (Option.some.inj htgt).symm⟩

/-- The checks of `build`, in order. -/
theorem build_eq_ok_iff {states : List String} {transitions : List Transition}
    {initial : String} {finals : List String} {a : Automaton} :
    build states transitions initial finals = .ok a ↔
      (Roster.ofList states).size ≠ 0 ∧
      (Roster.ofList states).contains initialMarker = false ∧
      a.states = Roster.ofList states ∧
      lookup a.states .initial initial = .ok a.initial ∧
      markFinals a.states finals = .ok a.accepting ∧
      transitions.foldlM (addEdge a.states) ({}, {}) = .ok (a.alphabet, a.edges) := by
  simp only [build, bind, Except.bind, pure, Except.pure, throw, throwThe,
    MonadExceptOf.throw]
  constructor
  · intro h
    split at h
    · exact absurd h (by simp)
    rename_i hsize
    split at h
    · exact absurd h (by simp)
    rename_i hmarker
    split at h
    · exact absurd h (by simp)
    rename_i s hs
    split at h
    · exact absurd h (by simp)
    rename_i marks hmarks
    split at h
    · exact absurd h (by simp)
    rename_i wires hwires
    obtain rfl := Except.ok.inj h
    exact ⟨hsize, by simpa using hmarker, rfl, hs, hmarks, hwires⟩
  · rintro ⟨hsize, hmarker, hstates, hs, hmarks, hwires⟩
    rw [hstates] at hs hmarks hwires
    rw [if_neg hsize, hmarker, hs, hmarks, hwires, ← hstates]
    simp

/-- What `build` returns is made of the parts given. -/
theorem built_of_build {states : List String} {transitions : List Transition}
    {initial : String} {finals : List String} {a : Automaton}
    (h : build states transitions initial finals = .ok a) :
    Built states transitions initial finals a := by
  obtain ⟨-, hmarker, hstates, hs, hmarks, hwires⟩ := build_eq_ok_iff.mp h
  have hw : a.states.WellFormed := by
    rw [hstates]
    exact wellFormed_ofList _
  have hmarked : Marked a.states ([] ++ finals) a.accepting := by
    refine Fold.invariant_foldlM ?_ (marked_empty a.states) hmarks
    intro names name marks marks' hm hstep
    obtain ⟨s, hs, hpush⟩ := Fold.bind_eq_ok_iff.mp hstep
    obtain rfl := Except.ok.inj hpush
    exact hm.push hw (lookup_eq_ok_iff.mp hs)
  have hwired : Wired a.states ([] ++ transitions) (a.alphabet, a.edges) :=
    Fold.invariant_foldlM (fun _ _ _ _ hwire hadd => hwire.add hadd) (wired_empty a.states) hwires
  refine ⟨hstates, ?_, hwired.alphabet_eq, lookup_eq_ok_iff.mp hs, hmarked.size_eq,
    hmarked.marked_iff, hwired.declared, hwired.edge_iff⟩
  intro hin
  rw [contains_ofList.mpr hin] at hmarker
  exact absurd hmarker (by simp)

/-- Parts fit together: the initial state, the accepting states and the ends of all transitions
are declared, no state has the reserved name, and no state has two successors on one label. -/
structure Fits (states : List String) (transitions : List Transition) (initial : String)
    (finals : List String) : Prop where
  marker_notMem : initialMarker ∉ states
  initial_mem : initial ∈ states
  finals_mem : ∀ name ∈ finals, name ∈ states
  source_mem : ∀ tr ∈ transitions, tr.source ∈ states
  target_mem : ∀ tr ∈ transitions, tr.target ∈ states
  deterministic : ∀ tr ∈ transitions, ∀ tr' ∈ transitions, tr.source = tr'.source →
    tr.label = tr'.label → tr.target = tr'.target

/-- Parts that fit together make an automaton. -/
theorem exists_build {states : List String} {transitions : List Transition}
    {initial : String} {finals : List String} (h : Fits states transitions initial finals) :
    ∃ a, build states transitions initial finals = .ok a := by
  have hw : (Roster.ofList states).WellFormed := wellFormed_ofList states
  have hlist : ∀ name ∈ states, name ∈ (Roster.ofList states).toList :=
    fun name hm => mem_ofList.mpr hm
  obtain ⟨s, hs⟩ := (mem_toList_iff _ _).mp (hlist initial h.initial_mem)
  have hmarks : ∃ marks, markFinals (Roster.ofList states) finals = .ok marks ∧
      Marked (Roster.ofList states) ([] ++ finals) marks := by
    refine Fold.exists_foldlM [] ?_ (marked_empty _)
    intro before name after marks hsplit hm
    have hname : name ∈ finals := by
      rw [List.nil_append] at hsplit
      simp [hsplit]
    obtain ⟨r, hr⟩ := (mem_toList_iff _ _).mp (hlist name (h.finals_mem name hname))
    have hr' := hw.rank?_eq_some_iff.mpr hr
    refine ⟨_, ?_, hm.push hw hr'⟩
    rw [lookup_eq_ok_iff.mpr hr']
    rfl
  have hwires : ∃ wires, transitions.foldlM (addEdge (Roster.ofList states)) ({}, {}) =
      .ok wires ∧ Wired (Roster.ofList states) ([] ++ transitions) wires := by
    refine Fold.exists_foldlM [] ?_ (wired_empty _)
    intro before tr after wires hsplit hwire
    rw [List.nil_append] at hsplit
    have htr : tr ∈ transitions := by simp [hsplit]
    obtain ⟨wires', hadd⟩ := hwire.exists_add hw (hlist _ (h.source_mem tr htr))
      (hlist _ (h.target_mem tr htr)) fun tr' hm hsrc hlab =>
        h.deterministic tr' (by simp [hsplit, hm]) tr htr hsrc hlab
    exact ⟨wires', hadd, hwire.add hadd⟩
  obtain ⟨marks, hmarks, -⟩ := hmarks
  obtain ⟨wires, hwires, -⟩ := hwires
  refine ⟨⟨Roster.ofList states, wires.1, wires.2, s, marks⟩, build_eq_ok_iff.mpr ⟨?_, ?_, rfl,
    lookup_eq_ok_iff.mpr (hw.rank?_eq_some_iff.mpr hs), hmarks, hwires⟩⟩
  · have := lt_size_of_get? hs
    omega
  · rw [Bool.eq_false_iff, ne_eq, contains_ofList]
    exact h.marker_notMem

/-- A lookup fails only for a name that is not declared. -/
theorem lookup_eq_error {states : List String} {role : StateRole} {name : String}
    (hname : name ∈ states) (v : Violation) :
    lookup (Roster.ofList states) role name ≠ .error v := by
  obtain ⟨s, hs⟩ := (mem_toList_iff _ _).mp (mem_ofList.mpr hname)
  have hrank := (wellFormed_ofList states).rank?_eq_some_iff.mpr hs
  rw [lookup_eq_ok_iff.mpr hrank]
  exact fun h => nomatch h

/-- An edge between declared states is refused only for a second successor. -/
theorem addEdge_eq_error {states : List String}
    {wires : Roster Label × Std.HashMap (Nat × Nat) Nat} {tr : Transition} {v : Violation}
    (hsource : tr.source ∈ states) (htarget : tr.target ∈ states)
    (h : addEdge (Roster.ofList states) wires tr = .error v) :
    v = .twoSuccessors tr.source tr.label := by
  simp only [addEdge, bind, Except.bind, pure, Except.pure, throw, throwThe,
    MonadExceptOf.throw] at h
  split at h
  · exact absurd ‹_› (lookup_eq_error hsource _)
  split at h
  · exact absurd ‹_› (lookup_eq_error htarget _)
  split at h
  · exact nomatch h
  split at h
  · exact nomatch h
  · exact (Except.error.inj h).symm

/-- Parts that name declared states only are refused for the reserved name or a second successor. -/
theorem build_eq_error {states : List String} {transitions : List Transition} {initial : String}
    {finals : List String} {v : Violation} (hinitial : initial ∈ states)
    (hfinals : ∀ name ∈ finals, name ∈ states)
    (hends : ∀ tr ∈ transitions, tr.source ∈ states ∧ tr.target ∈ states)
    (h : build states transitions initial finals = .error v) :
    v = .reservedName ∨ ∃ name label, v = .twoSuccessors name label := by
  have hsome : (Roster.ofList states).size ≠ 0 := by
    obtain ⟨s, hs⟩ := (mem_toList_iff _ _).mp (mem_ofList.mpr hinitial)
    have := lt_size_of_get? hs
    omega
  simp only [build, hsome, if_false, bind, Except.bind, pure, Except.pure, throw, throwThe,
    MonadExceptOf.throw] at h
  split at h
  · exact Or.inl (Except.error.inj h).symm
  split at h
  · exact absurd ‹_› (lookup_eq_error hinitial _)
  split at h
  · rename_i hmarks
    obtain ⟨name, hname, marks, hmark⟩ := Fold.exists_step_of_foldlM_eq_error hmarks
    simp only [bind, Except.bind, pure, Except.pure] at hmark
    split at hmark
    · exact absurd ‹_› (lookup_eq_error (hfinals name hname) _)
    · exact nomatch hmark
  split at h
  · rename_i hedges
    obtain rfl := Except.error.inj h
    obtain ⟨tr, htr, wires, hadd⟩ := Fold.exists_step_of_foldlM_eq_error hedges
    obtain ⟨hsource, htarget⟩ := hends tr htr
    exact Or.inr ⟨_, _, addEdge_eq_error hsource htarget hadd⟩
  · exact nomatch h

namespace Built

variable {states : List String} {transitions : List Transition} {initial : String}
  {finals : List String} {a : Automaton}

/-- The states of an automaton that has been built stand once each. -/
theorem states_wellFormed (h : Built states transitions initial finals a) :
    a.states.WellFormed := by
  rw [h.states_eq]
  exact wellFormed_ofList _

/-- So do its labels. -/
theorem alphabet_wellFormed (h : Built states transitions initial finals a) :
    a.alphabet.WellFormed := by
  rw [h.alphabet_eq]
  exact wellFormed_ofList _

/-- Its labels are those of the transitions. -/
theorem mem_alphabet (h : Built states transitions initial finals a) {label : Label} :
    label ∈ a.alphabet.toList ↔ ∃ tr ∈ transitions, tr.label = label := by
  rw [h.alphabet_eq, mem_ofList, List.mem_map]

/-- The steps of the automaton are the transitions given. -/
theorem step_iff (h : Built states transitions initial finals a) {s t : Nat} {label : Label} :
    a.step s label = some t ↔ ∃ tr ∈ transitions, tr.label = label ∧
      a.states.rank? tr.source = some s ∧ a.states.rank? tr.target = some t := by
  have hw := h.alphabet_wellFormed
  rw [step, Option.bind_eq_some_iff]
  constructor
  · rintro ⟨l, hl, he⟩
    obtain ⟨tr, hm, hl', hs, ht⟩ := (h.edge_iff s l t).mp he
    rw [hw.rank?_eq_some_iff] at hl hl'
    exact ⟨tr, hm, Option.some.inj (hl'.symm.trans hl), hs, ht⟩
  · rintro ⟨tr, hm, rfl, hs, ht⟩
    obtain ⟨l, hl⟩ := (mem_toList_iff _ _).mp (h.mem_alphabet.mpr ⟨tr, hm, rfl⟩)
    have hl' := hw.rank?_eq_some_iff.mpr hl
    exact ⟨l, hl', (h.edge_iff s l t).mpr ⟨tr, hm, hl', hs, ht⟩⟩

/-- An automaton made of parts is well-formed. -/
theorem wellFormed (h : Built states transitions initial finals a) : a.WellFormed where
  states_wellFormed := h.states_wellFormed
  alphabet_wellFormed := h.alphabet_wellFormed
  initial_lt := rank?_lt_size h.states_wellFormed h.rank_initial
  accepting_size := h.accepting_size
  marker_free := by
    rw [h.states_eq, Bool.eq_false_iff, ne_eq, contains_ofList]
    exact h.marker_notMem
  edge_lt s l t he := by
    obtain ⟨tr, -, hl, hs, ht⟩ := (h.edge_iff s l t).mp he
    exact ⟨rank?_lt_size h.states_wellFormed hs, rank?_lt_size h.alphabet_wellFormed hl,
      rank?_lt_size h.states_wellFormed ht⟩
  label_used l hl := by
    obtain ⟨label, hlabel⟩ := exists_get?_of_lt hl
    obtain ⟨tr, hm, rfl⟩ := h.mem_alphabet.mp ((mem_toList_iff _ _).mpr ⟨l, hlabel⟩)
    obtain ⟨s, t, hs, ht⟩ := h.declared tr hm
    have hl' := h.alphabet_wellFormed.rank?_eq_some_iff.mpr hlabel
    exact ⟨s, t, (h.edge_iff s l t).mpr ⟨tr, hm, hl', hs, ht⟩⟩

end Built

end ProcessLogic.Automaton
