import Mathlib.Data.List.Nodup
import Mathlib.Data.Prod.Basic
import ProcessLogic.Proofs.Search.Invariant

/-!
# A search makes each move once

The states are treated one after the other and each with every letter once. So if a key tells the
letters of the alphabet apart, no two moves have one source and one key.
-/

namespace ProcessLogic.Search

variable {σ κ β : Type} [BEq σ] [Hashable σ]

/-- The source and the key of every move, in the order in which the moves were made. -/
def drawn (key : κ → β) (search : Search σ κ) : List (Nat × β) :=
  search.moves.toList.map fun (source, letter, _) => (source, key letter)

variable {key : κ → β} {letters : List κ} {step : σ → κ → Option σ} {stop : σ → Bool}
  {limit source : Nat} {s : σ} {search search' : Search σ κ}

/-- A visit adds one move. -/
theorem drawn_visit {letter : κ} {target : σ}
    (h : search.visit limit source letter target = some search') :
    search'.drawn key = search.drawn key ++ [(source, key letter)] := by
  rcases visit_cases h with ⟨rank, -, rfl⟩ | ⟨-, -, rfl⟩
  · simp [drawn, recorded]
  · simp [drawn, discovered]

/-- The treatment of a state makes one move by every letter that leads anywhere. -/
theorem drawn_expand (h : search.expand letters step limit source s = some search') :
    search'.drawn key = search.drawn key ++
      (letters.filter fun letter => (step s letter).isSome).map fun letter =>
        (source, key letter) := by
  induction letters generalizing search with
  | nil =>
      obtain rfl : search = search' := Option.some.inj h
      simp
  | cons letter letters ih =>
      cases ht : step s letter with
      | none =>
          rw [expand_cons_of_eq_none ht] at h
          rw [ih h, List.filter_cons_of_neg (by simp [ht])]
      | some target =>
          rw [expand_cons_of_eq_some ht] at h
          obtain ⟨next, hnext, hrest⟩ := Option.bind_eq_some_iff.mp h
          rw [ih hrest, drawn_visit hnext, List.filter_cons_of_pos (by simp [ht]), List.map_cons,
            List.append_assoc, List.singleton_append]

/-- Moves out of states that were treated, each made once. -/
structure DrawnOnce (key : κ → β) (source : Nat) (search : Search σ κ) : Prop where
  nodup : (search.drawn key).Nodup
  source_lt : ∀ move ∈ search.drawn key, move.1 < source

/-- Expanding a state whose letters differ by key adds no move twice. -/
theorem DrawnOnce.succ (hletters : (letters.map key).Nodup) (hd : DrawnOnce key source search)
    (h : search.expand letters step limit source s = some search') :
    DrawnOnce key (source + 1) search' := by
  have hmoves : search'.drawn key = search.drawn key ++ _ := drawn_expand h
  have hsource : ∀ move ∈ (letters.filter fun letter => (step s letter).isSome).map
      (fun letter => (source, key letter)), move.1 = source := by
    intro move hm
    obtain ⟨letter, -, rfl⟩ := List.mem_map.mp hm
    rfl
  constructor
  · rw [hmoves, List.nodup_append]
    refine ⟨hd.nodup, ?_, ?_⟩
    · have hkeys : ((letters.filter fun letter => (step s letter).isSome).map key).Nodup :=
        hletters.sublist (List.filter_sublist.map key)
      have hpairs := List.Nodup.map (Prod.mk_right_injective source) hkeys
      rwa [List.map_map] at hpairs
    · intro move hm move' hm' he
      have hlt := hd.source_lt move hm
      rw [he, hsource move' hm'] at hlt
      exact absurd hlt (Nat.lt_irrefl source)
  · intro move hm
    rw [hmoves, List.mem_append] at hm
    rcases hm with hm | hm
    · exact Nat.lt_succ_of_lt (hd.source_lt move hm)
    · exact Nat.lt_succ_of_le (Nat.le_of_eq (hsource move hm))

/-- A whole search makes no move twice. -/
theorem DrawnOnce.runFrom (hletters : (letters.map key).Nodup) {fuel : Nat} {stopped : Option Nat}
    (hd : DrawnOnce key source search)
    (h : runFrom letters step stop limit fuel source search = some (search', stopped)) :
    (search'.drawn key).Nodup := by
  induction fuel generalizing source search with
  | zero =>
      obtain ⟨rfl, -⟩ := Prod.mk.inj (Option.some.inj h)
      exact hd.nodup
  | succ fuel ih =>
      rcases runFrom_cases h with
        ⟨-, he⟩ | ⟨s, -, ⟨-, he⟩ | ⟨-, -, he⟩ | ⟨next, -, hnext, hrest⟩⟩
      · obtain ⟨rfl, -⟩ := Prod.mk.inj (Option.some.inj he)
        exact hd.nodup
      · obtain ⟨rfl, -⟩ := Prod.mk.inj (Option.some.inj he)
        exact hd.nodup
      · exact nomatch he
      · exact ih (hd.succ hletters hnext) hrest

/-- If the key tells letters apart, no two moves have one source and one key. -/
theorem nodup_drawn_of_run (hletters : (letters.map key).Nodup) {stopped : Option Nat}
    (h : run letters step stop limit s = some (search, stopped)) : (search.drawn key).Nodup := by
  have hstart : DrawnOnce key 0 (start s : Search σ κ) := by
    constructor <;> simp [drawn, start]
  exact hstart.runFrom hletters h

end ProcessLogic.Search
