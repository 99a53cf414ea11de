import ProcessLogic.Proofs.Search.Invariant

/-!
# What a breadth-first search finds

A search that ends has treated every state before the one it stopped at, or every state found.
Hence a word leads to a treated state by a trail that is no longer, or the search stopped at
a state no further away. A search that is refused has met more states than allowed.
-/

namespace ProcessLogic.Search

variable {σ κ : Type} [BEq σ] [Hashable σ]
variable {letters : List κ} {step : σ → κ → Option σ} {stop : σ → Bool} {limit : Nat} {s₀ : σ}

/-- The states before number `source` have been treated, and none of them was to stop the
search. -/
structure Treated (letters : List κ) (step : σ → κ → Option σ) (stop : σ → Bool) (limit : Nat)
    (s₀ : σ) (source : Nat) (search : Search σ κ) : Prop where
  valid : Valid letters step limit s₀ search
  near : source < search.found.size → Near source search
  covered : ∀ i < source, ∀ l ∈ letters, Covered step search i l
  passed : ∀ (i : Nat) (s : σ), i < source → search.found.get? i = some s → stop s = false
  source_le : source ≤ search.found.size

/-- How a search may end: all states before the one it stopped at have been treated. A search
that did not stop has treated all states found. -/
structure Finished (letters : List κ) (step : σ → κ → Option σ) (stop : σ → Bool) (limit : Nat)
    (s₀ : σ) (search : Search σ κ) (stopped : Option Nat) : Prop extends
    Treated letters step stop limit s₀ (stopped.getD search.found.size) search where
  stopped_at : ∀ k, stopped = some k → ∃ s, search.found.get? k = some s ∧ stop s = true

/-- A word of letters leads to a state. -/
def Reaches (letters : List κ) (step : σ → κ → Option σ) (s₀ s : σ) : Prop :=
  ∃ word : List κ, (∀ l ∈ word, l ∈ letters) ∧ walk step s₀ word = some s

omit [Hashable σ] [BEq σ] in
/-- One letter more leads from a reached state to a reached state. -/
theorem Reaches.concat {s t : σ} {l : κ} (h : Reaches letters step s₀ s) (hl : l ∈ letters)
    (ht : step s l = some t) : Reaches letters step s₀ t := by
  obtain ⟨word, hw, hr⟩ := h
  refine ⟨word ++ [l], ?_, ?_⟩
  · intro l' hl'
    rcases List.mem_append.mp hl' with hl' | hl'
    · exact hw l' hl'
    · rw [List.mem_singleton.mp hl']
      exact hl
  · rw [walk_concat, hr]
    exact ht

omit [Hashable σ] [BEq σ] in
/-- What holds at the start and is kept by every step holds wherever a word leads. -/
theorem Reaches.invariant {P : σ → Prop} (hstart : P s₀)
    (hstep : ∀ s, P s → ∀ l ∈ letters, ∀ t, step s l = some t → P t) {t : σ}
    (h : Reaches letters step s₀ t) : P t := by
  obtain ⟨word, hm, hw⟩ := h
  induction word generalizing s₀ with
  | nil =>
      obtain rfl := Option.some.inj hw
      exact hstart
  | cons l word ih =>
      rw [walk_cons] at hw
      obtain ⟨s, hs, hrest⟩ := Option.bind_eq_some_iff.mp hw
      exact ih (hstep s₀ hstart l (hm l List.mem_cons_self) s hs)
        (fun l' hl' => hm l' (List.mem_cons_of_mem l hl')) hrest

omit [Hashable σ] [BEq σ] in
/-- If every letter goes the way of some letter of another alphabet, so do the words. -/
theorem Reaches.map {κ' : Type} {letters' : List κ'} {step' : σ → κ' → Option σ}
    (hletters : ∀ l ∈ letters, ∃ l' ∈ letters', ∀ s, step s l = step' s l') {s : σ}
    (h : Reaches letters step s₀ s) : Reaches letters' step' s₀ s := by
  refine h.invariant ⟨[], List.forall_mem_nil _, rfl⟩ fun t ht l hl u hu => ?_
  obtain ⟨l', hl', hsame⟩ := hletters l hl
  exact ht.concat hl' ((hsame t).symm.trans hu)

/-- The trail of a state found is a way to it. -/
theorem Valid.reaches {search : Search σ κ} (hv : Valid letters step limit s₀ search) {i : Nat}
    {s : σ} (hi : search.found.get? i = some s) : Reaches letters step s₀ s :=
  ⟨(search.trail i).reverse, fun l hl => hv.trail_mem i l (List.mem_reverse.mp hl),
    hv.trail_leads i s hi⟩

/-- Every way to a state is at least as long as the trail of a state treated, or leads past a
state found and not yet treated that is no further away. -/
theorem Treated.found_or_frontier {source : Nat} {search : Search σ κ}
    (h : Treated letters step stop limit s₀ source search) {trail : List κ} {t : σ}
    (hm : ∀ l ∈ trail, l ∈ letters) (hw : walk step s₀ trail.reverse = some t) :
    (∃ i < source, search.found.get? i = some t ∧ (search.trail i).length ≤ trail.length) ∨
      ∃ i, source ≤ i ∧ i < search.found.size ∧ (search.trail i).length ≤ trail.length := by
  induction trail generalizing t with
  | nil =>
      obtain rfl := Option.some.inj hw
      have h0 := h.valid.found_start
      have hlen : (search.trail 0).length ≤ 0 := by rw [h.valid.trail_start]; exact Nat.le_refl _
      by_cases hs : 0 < source
      · exact Or.inl ⟨0, hs, h0, hlen⟩
      · exact Or.inr ⟨0, by omega, Roster.lt_size_of_get? h0, hlen⟩
  | cons l trail ih =>
      rw [List.reverse_cons, walk_concat] at hw
      obtain ⟨s, hs, ht⟩ := Option.bind_eq_some_iff.mp hw
      rw [List.length_cons]
      rcases ih (fun l' hl' => hm l' (List.mem_cons_of_mem l hl')) hs with
        ⟨i, hi, hfound, hlen⟩ | ⟨i, hi, hlt, hlen⟩
      · obtain ⟨j, hj, _, hjlen⟩ := h.covered i hi l (hm l List.mem_cons_self) s t hfound ht
        by_cases hjs : j < source
        · exact Or.inl ⟨j, hjs, hj, by omega⟩
        · exact Or.inr ⟨j, by omega, Roster.lt_size_of_get? hj, by omega⟩
      · exact Or.inr ⟨i, hi, hlt, by omega⟩

/-- A search that did not stop has found every state that can be reached, by a shortest way. -/
theorem Finished.found_of_walk {search : Search σ κ}
    (h : Finished letters step stop limit s₀ search none) {word : List κ} {t : σ}
    (hm : ∀ l ∈ word, l ∈ letters) (hw : walk step s₀ word = some t) :
    ∃ i, search.found.get? i = some t ∧ (search.trail i).length ≤ word.length := by
  rw [← List.reverse_reverse word] at hw
  have hm' : ∀ l ∈ word.reverse, l ∈ letters := fun l hl => hm l (List.mem_reverse.mp hl)
  rcases h.toTreated.found_or_frontier hm' hw with ⟨i, _, hi, hlen⟩ | ⟨i, hi, hlt, _⟩
  · exact ⟨i, hi, by simpa using hlen⟩
  · rw [Option.getD_none] at hi
    omega

/-- A search that did not stop has found exactly the states that can be reached. -/
theorem Finished.mem_found_iff {search : Search σ κ}
    (h : Finished letters step stop limit s₀ search none) {t : σ} :
    t ∈ search.found.toList ↔ Reaches letters step s₀ t := by
  rw [Roster.mem_toList_iff]
  constructor
  · rintro ⟨i, hi⟩
    exact h.valid.reaches hi
  · rintro ⟨word, hm, hw⟩
    obtain ⟨i, hi, _⟩ := h.found_of_walk hm hw
    exact ⟨i, hi⟩

/-- A search that did not stop has found as many states as can be reached. -/
theorem Finished.size_found {search : Search σ κ}
    (h : Finished letters step stop limit s₀ search none) {reached : List σ}
    (hnodup : reached.Nodup) (hreached : ∀ t, t ∈ reached ↔ Reaches letters step s₀ t) :
    search.found.size = reached.length := by
  rw [← Roster.length_toList]
  refine Nat.le_antisymm ?_ ?_
  · apply h.valid.wellFormed.nodup.length_le_of_subset
    exact fun t ht => (hreached t).mpr (h.mem_found_iff.mp ht)
  · apply hnodup.length_le_of_subset
    exact fun t ht => h.mem_found_iff.mpr ((hreached t).mp ht)

/-- A search that did not stop has met no state that was to stop it. -/
theorem Finished.not_stop_of_reaches {search : Search σ κ}
    (h : Finished letters step stop limit s₀ search none) {t : σ}
    (ht : Reaches letters step s₀ t) : stop t = false := by
  obtain ⟨i, hi⟩ := (Roster.mem_toList_iff _ _).mp (h.mem_found_iff.mpr ht)
  exact h.passed i t (Roster.lt_size_of_get? hi) hi

/-- The state that stops a search is one of the nearest that would. -/
theorem Finished.trail_le_of_stop {search : Search σ κ} {k : Nat}
    (h : Finished letters step stop limit s₀ search (some k)) {word : List κ} {t : σ}
    (hm : ∀ l ∈ word, l ∈ letters) (hw : walk step s₀ word = some t) (ht : stop t = true) :
    (search.trail k).length ≤ word.length := by
  rw [← List.reverse_reverse word] at hw
  have hm' : ∀ l ∈ word.reverse, l ∈ letters := fun l hl => hm l (List.mem_reverse.mp hl)
  rcases h.toTreated.found_or_frontier hm' hw with ⟨i, hi, hfound, _⟩ | ⟨i, hi, hlt, hlen⟩
  · rw [h.passed i t hi hfound] at ht
    exact absurd ht (by simp)
  · have hle := h.valid.trail_le k i hi hlt
    rw [List.length_reverse] at hlen
    omega

/-- With as many states treated as allowed, no state is left. -/
theorem Treated.get?_eq_none {source : Nat} {search : Search σ κ}
    (h : Treated letters step stop limit s₀ source search) (hfull : source = max 1 limit) :
    search.found.get? source = none := by
  rw [Roster.get?_eq_none_iff, hfull]
  exact h.valid.size_le

/-- A search that has no state left has treated all. -/
theorem Treated.finished_of_get?_eq_none {source : Nat} {search : Search σ κ}
    (h : Treated letters step stop limit s₀ source search)
    (hnone : search.found.get? source = none) :
    Finished letters step stop limit s₀ search none := by
  obtain rfl : source = search.found.size :=
    Nat.le_antisymm h.source_le ((Roster.get?_eq_none_iff _ _).mp hnone)
  exact ⟨h, fun _ hk => nomatch hk⟩

section Growth

variable [LawfulBEq σ]

theorem treated_start : Treated letters step stop limit s₀ 0 (start s₀ : Search σ κ) := by
  refine ⟨valid_start, ?_, by simp, by simp, Nat.zero_le _⟩
  intro hlt j hj
  have hz : (start s₀ : Search σ κ).found.size = 1 := by
    rw [← Roster.length_toList]
    exact congrArg List.length (Roster.toList_ofList_singleton s₀)
  obtain rfl : j = 0 := by omega
  omega

/-- Treating one more state. -/
theorem Treated.succ {source : Nat} {search next : Search σ κ} {s : σ}
    (h : Treated letters step stop limit s₀ source search)
    (hs : search.found.get? source = some s) (hstop : stop s = false)
    (he : search.expand letters step limit source s = some next) :
    Treated letters step stop limit s₀ (source + 1) next := by
  have hlt := Roster.lt_size_of_get? hs
  obtain ⟨hv, hg, hn, hc⟩ := expand_spec (fun _ hl => hl) h.valid (h.near hlt) hs he
  have hsize := hg.found.size_le
  refine ⟨hv, ?_, ?_, ?_, by omega⟩
  · intro hlt' j hj
    have h₁ := hn j hj
    have h₂ := hv.trail_le source (source + 1) (by omega) hlt'
    omega
  · intro i hi l hl
    by_cases his : i = source
    · rw [his]
      exact hc l hl
    · exact (h.covered i (by omega) l hl).grows hg (by omega)
  · intro i r hi hr
    obtain ⟨r', hr'⟩ := Roster.exists_get?_of_lt (r := search.found) (i := i) (by omega)
    obtain rfl := Option.some.inj ((hg.found i r' hr').symm.trans hr)
    by_cases his : i = source
    · subst his
      obtain rfl := Option.some.inj (hs.symm.trans hr')
      exact hstop
    · exact h.passed i r' (by omega) hr'

/-- A run from treated states ends as a search may end. -/
theorem Treated.finished {source fuel : Nat} {search result : Search σ κ}
    {stopped : Option Nat} (h : Treated letters step stop limit s₀ source search)
    (hfuel : source + fuel = max 1 limit)
    (hrun : runFrom letters step stop limit fuel source search = some (result, stopped)) :
    Finished letters step stop limit s₀ result stopped := by
  induction fuel generalizing source search with
  | zero =>
      obtain ⟨rfl, rfl⟩ := Prod.mk.inj (Option.some.inj hrun)
      exact h.finished_of_get?_eq_none (h.get?_eq_none hfuel)
  | succ fuel ih =>
      rcases runFrom_cases hrun with
        ⟨hnone, he⟩ | ⟨s, hs, ⟨hstop, he⟩ | ⟨-, -, he⟩ | ⟨next, hstop, hnext, hrest⟩⟩
      · obtain ⟨rfl, rfl⟩ := Prod.mk.inj (Option.some.inj he)
        exact h.finished_of_get?_eq_none hnone
      · obtain ⟨rfl, rfl⟩ := Prod.mk.inj (Option.some.inj he)
        refine ⟨h, fun k hk => ?_⟩
        obtain rfl := Option.some.inj hk
        exact ⟨s, hs, hstop⟩
      · exact nomatch he
      · exact ih (h.succ hs hstop hnext) (by omega) hrest

/-- A search that is not refused ends as described. -/
theorem finished_of_run {result : Search σ κ} {stopped : Option Nat}
    (h : run letters step stop limit s₀ = some (result, stopped)) :
    Finished letters step stop limit s₀ result stopped :=
  treated_start.finished (Nat.zero_add _) h

/-- Nothing stops a search that nothing is to stop. -/
theorem stopped_eq_none_of_run {result : Search σ κ} {stopped : Option Nat}
    (h : run letters step (fun _ => false) limit s₀ = some (result, stopped)) :
    stopped = none := by
  cases stopped with
  | none => rfl
  | some k =>
      obtain ⟨_, _, hstop⟩ := (finished_of_run h).stopped_at k rfl
      exact nomatch hstop

/-- A search that nothing is to stop finds all that can be reached. -/
theorem finished_of_run_unstopped {result : Search σ κ} {stopped : Option Nat}
    (h : run letters step (fun _ => false) limit s₀ = some (result, stopped)) :
    Finished letters step (fun _ => false) limit s₀ result none :=
  stopped_eq_none_of_run h ▸ finished_of_run h

/-- The states of a refused search and the one refused are more than allowed, and all of them
can be reached. -/
def Exceeds (letters : List κ) (step : σ → κ → Option σ) (limit : Nat) (s₀ : σ) : Prop :=
  ∃ states : List σ, states.Nodup ∧ states.length = max 1 limit + 1 ∧
    ∀ s ∈ states, Reaches letters step s₀ s

omit [Hashable σ] [BEq σ] [LawfulBEq σ] in
/-- A search is not refused if all states that can be reached are among a few. -/
theorem not_exceeds_of_mem (states : List σ) (hlen : states.length ≤ max 1 limit)
    (h : ∀ s, Reaches letters step s₀ s → s ∈ states) : ¬ Exceeds letters step limit s₀ := by
  rintro ⟨found, hnodup, hfound, hreach⟩
  have := hnodup.length_le_of_subset fun s hs => h s (hreach s hs)
  omega

omit [LawfulBEq σ] in
/-- A search that nothing stopped has found all states that can be reached, and not too many. -/
theorem Finished.not_exceeds {search : Search σ κ}
    (h : Finished letters step stop limit s₀ search none) : ¬ Exceeds letters step limit s₀ :=
  not_exceeds_of_mem search.found.toList h.valid.size_le fun _ hs => h.mem_found_iff.mpr hs

/-- An expansion that is refused has found more states than allowed. -/
theorem exceeds_of_expand {k : Nat} {s : σ} {ls : List κ} (hls : ∀ l ∈ ls, l ∈ letters)
    {search : Search σ κ} (hv : Valid letters step limit s₀ search)
    (hn : Near k search) (hk : search.found.get? k = some s)
    (h : search.expand ls step limit k s = none) : Exceeds letters step limit s₀ := by
  induction ls generalizing search with
  | nil => simp [expand] at h
  | cons l ls ih =>
      have hl : l ∈ letters := hls l List.mem_cons_self
      have hls' : ∀ l' ∈ ls, l' ∈ letters := fun l' hl' => hls l' (List.mem_cons_of_mem l hl')
      cases ht : step s l with
      | none =>
          rw [expand_cons_of_eq_none ht] at h
          exact ih hls' hv hn hk h
      | some t =>
          rw [expand_cons_of_eq_some ht] at h
          cases hvisit : search.visit limit k l t with
          | some next =>
              rw [hvisit, Option.bind_some] at h
              obtain ⟨hv', hg, hn', -⟩ := visit_spec hv hn hk hl ht hvisit
              exact ih hls' hv' hn' (hg.found k s hk) h
          | none =>
              obtain ⟨hnew, hroom⟩ := visit_eq_none hvisit
              have hpos := Roster.lt_size_of_get? hk
              have hle := hv.size_le
              refine ⟨t :: search.found.toList, ?_, ?_, ?_⟩
              · exact List.nodup_cons.mpr
                  ⟨hv.wellFormed.rank?_eq_none_iff.mp hnew, hv.wellFormed.nodup⟩
              · rw [List.length_cons, Roster.length_toList]
                omega
              · intro r hr
                rcases List.mem_cons.mp hr with rfl | hr
                · exact Reaches.concat (hv.reaches hk) hl ht
                · obtain ⟨i, hi⟩ := (Roster.mem_toList_iff _ _).mp hr
                  exact hv.reaches hi

/-- A run that is refused has found more states than allowed. -/
theorem Treated.exceeds {source fuel : Nat} {search : Search σ κ}
    (h : Treated letters step stop limit s₀ source search)
    (hrun : runFrom letters step stop limit fuel source search = none) :
    Exceeds letters step limit s₀ := by
  induction fuel generalizing source search with
  | zero => exact nomatch hrun
  | succ fuel ih =>
      rcases runFrom_cases hrun with
        ⟨-, he⟩ | ⟨s, hs, ⟨-, he⟩ | ⟨-, hrefused, -⟩ | ⟨next, hstop, hnext, hrest⟩⟩
      · exact nomatch he
      · exact nomatch he
      · exact exceeds_of_expand (fun _ hl => hl) h.valid (h.near (Roster.lt_size_of_get? hs)) hs
          hrefused
      · exact ih (h.succ hs hstop hnext) hrest

/-- A search is refused only if more states can be reached than are allowed. -/
theorem exceeds_of_run (h : run letters step stop limit s₀ = none) :
    Exceeds letters step limit s₀ :=
  treated_start.exceeds h

end Growth

end ProcessLogic.Search
