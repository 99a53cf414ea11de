import Mathlib.Data.List.Dedup
import ProcessLogic.Proofs.Search.Outcome

/-!
# The limit of a breadth-first search

The limit decides only whether a search is refused. With more room a search that was not refused
makes the same moves, and it is refused exactly if more states can be reached than allowed. If
finitely many can be reached it ends by itself.
-/

namespace ProcessLogic.Search

variable {σ κ : Type} {letters : List κ} {step : σ → κ → Option σ} {stop : σ → Bool}
  {limit limit' : Nat} {s s₀ : σ}

section Counting

/-- Of states that hold all reachable ones, some are the reachable ones, each once. -/
theorem exists_reached {states : List σ} (h : ∀ t, Reaches letters step s₀ t → t ∈ states) :
    ∃ reached : List σ, reached.Nodup ∧ ∀ t, t ∈ reached ↔ Reaches letters step s₀ t := by
  classical
  refine ⟨states.dedup.filter fun t => decide (Reaches letters step s₀ t), ?_, fun t => ?_⟩
  · exact (List.nodup_dedup states).filter _
  · rw [List.mem_filter, List.mem_dedup, decide_eq_true_eq]
    exact ⟨fun hm => hm.2, fun hreach => ⟨h t hreach, hreach⟩⟩

/-- More states can be reached than allowed exactly if there are more of them. -/
theorem exceeds_iff {reached : List σ} (hnodup : reached.Nodup)
    (hreached : ∀ t, t ∈ reached ↔ Reaches letters step s₀ t) :
    Exceeds letters step limit s₀ ↔ max 1 limit < reached.length := by
  constructor
  · intro hexceeds
    by_contra hle
    exact not_exceeds_of_mem reached (Nat.le_of_not_lt hle) (fun t => (hreached t).mpr) hexceeds
  · intro hlt
    refine ⟨reached.take (max 1 limit + 1), ?_, ?_, fun t ht => ?_⟩
    · exact hnodup.sublist (List.take_sublist _ _)
    · rw [List.length_take]
      omega
    · exact (hreached t).mp (List.mem_of_mem_take ht)

end Counting

section Room

variable [BEq σ] [Hashable σ] {source : Nat} {search next : Search σ κ}

/-- A visit that is allowed is so under a larger limit, with the same result. -/
theorem visit_mono (hlimit : limit ≤ limit') {letter : κ} {target : σ}
    (h : search.visit limit source letter target = some next) :
    search.visit limit' source letter target = some next := by
  unfold visit at h ⊢
  cases hrank : search.found.rank? target with
  | some rank =>
      rw [hrank] at h
      exact h
  | none =>
      rw [hrank] at h
      by_cases hfull : limit ≤ search.found.size
      · simp [hfull] at h
      · have hroom : ¬ limit' ≤ search.found.size := by omega
        simp only [hfull, hroom, if_false] at h ⊢
        exact h

/-- An expansion that is allowed is so under a larger limit, with the same result. -/
theorem expand_mono (hlimit : limit ≤ limit')
    (h : search.expand letters step limit source s = some next) :
    search.expand letters step limit' source s = some next := by
  induction letters generalizing search with
  | nil => exact h
  | cons letter letters ih =>
      cases ht : step s letter with
      | none =>
          rw [expand_cons_of_eq_none ht] at h ⊢
          exact ih h
      | some target =>
          rw [expand_cons_of_eq_some ht] at h ⊢
          obtain ⟨mid, hmid, hrest⟩ := Option.bind_eq_some_iff.mp h
          exact Option.bind_eq_some_iff.mpr ⟨mid, visit_mono hlimit hmid, ih hrest⟩

variable [LawfulBEq σ]

/-- A search that ends with some fuel and room ends in the same way with more of both. -/
theorem Treated.runFrom_mono {fuel fuel' : Nat} {result : Search σ κ × Option Nat}
    (h : Treated letters step stop limit s₀ source search) (hfuel : source + fuel = max 1 limit)
    (hlimit : limit ≤ limit') (hfuel' : fuel ≤ fuel')
    (hrun : runFrom letters step stop limit fuel source search = some result) :
    runFrom letters step stop limit' fuel' source search = some result := by
  induction fuel generalizing source search fuel' with
  | zero =>
      -- no fuel is left because all states found have been treated
      rw [runFrom_of_get?_eq_none fuel' (h.get?_eq_none hfuel)]
      exact hrun
  | succ fuel ih =>
      obtain ⟨fuel', rfl⟩ : ∃ k, fuel' = k + 1 := ⟨fuel' - 1, by omega⟩
      rcases runFrom_cases hrun with
        ⟨hnone, he⟩ | ⟨s, hs, ⟨hstop, he⟩ | ⟨-, -, he⟩ | ⟨next, hstop, hnext, hrest⟩⟩
      · rw [runFrom_of_get?_eq_none _ hnone, he]
      · rw [runFrom_of_stop hs hstop, he]
      · exact nomatch he
      · rw [runFrom_of_expand hs hstop (expand_mono hlimit hnext)]
        exact ih (h.succ hs hstop hnext) (by omega) (by omega) hrest

/-- What a search finds it finds with a higher limit too, in the same order. -/
theorem run_mono (hlimit : limit ≤ limit') {result : Search σ κ × Option Nat}
    (h : run letters step stop limit s₀ = some result) :
    run letters step stop limit' s₀ = some result :=
  treated_start.runFrom_mono (Nat.zero_add _) hlimit (by omega) h

/-- The limit does not matter for what a search finds. -/
theorem run_unique {result result' : Search σ κ × Option Nat}
    (h : run letters step stop limit s₀ = some result)
    (h' : run letters step stop limit' s₀ = some result') : result = result' := by
  rcases Nat.le_total limit limit' with hle | hle
  · exact Option.some.inj ((run_mono hle h).symm.trans h')
  · exact Option.some.inj (h.symm.trans (run_mono hle h'))

/-- A search that nothing is to stop ends by itself: with room for all states that can be reached
and as many rounds it finds them, and with more of both it does the same. -/
theorem exists_search_of_reached {reached : List σ} (hnodup : reached.Nodup)
    (hreached : ∀ t, t ∈ reached ↔ Reaches letters step s₀ t) :
    ∃ search : Search σ κ, search.found.size = reached.length ∧
      (∀ t, t ∈ search.found.toList ↔ Reaches letters step s₀ t) ∧
      ∀ limit fuel, reached.length ≤ limit → reached.length ≤ fuel →
        runFrom letters step (fun _ => false) limit fuel 0 (start s₀) = some (search, none) := by
  have hpos : 0 < reached.length :=
    List.length_pos_of_mem ((hreached s₀).mpr ⟨[], List.forall_mem_nil _, rfl⟩)
  cases hrun : (run letters step (fun _ => false) reached.length s₀ :
      Option (Search σ κ × Option Nat)) with
  | none =>
      have hroom := not_exceeds_of_mem reached (Nat.le_max_right 1 _) fun t => (hreached t).mpr
      exact absurd (exceeds_of_run hrun) hroom
  | some result =>
      obtain ⟨search, stopped⟩ := result
      obtain rfl := stopped_eq_none_of_run hrun
      have hfinished := finished_of_run hrun
      refine ⟨search, hfinished.size_found hnodup hreached, fun t => hfinished.mem_found_iff, ?_⟩
      intro limit fuel hlimit hfuel
      exact treated_start.runFrom_mono (Nat.zero_add _) hlimit (by omega) hrun

end Room

end ProcessLogic.Search
