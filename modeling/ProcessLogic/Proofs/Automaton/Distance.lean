import Mathlib.Data.List.Permutation
import ProcessLogic.Proofs.Automaton.Build
import ProcessLogic.Proofs.Automaton.Reachable
import ProcessLogic.Proofs.Search.Limit

/-!
# Reachable states by distance

The search for reachable states ends by itself and lists them by their distance from the initial
state, which is the length of a shortest word that leads to them. An automaton has an accepting
state among them exactly if it accepts some word.
-/

namespace ProcessLogic.Automaton

open Search

/-- Some word of `n` labels leads to `s`, and no shorter one does. -/
structure IsDistance (a : Automaton) (s n : Nat) : Prop where
  reached : ∃ word, a.run a.initial word = some s ∧ word.length = n
  least : ∀ word, a.run a.initial word = some s → n ≤ word.length

/-- A state has one distance. -/
theorem IsDistance.unique {a : Automaton} {s m n : Nat} (hm : a.IsDistance s m)
    (hn : a.IsDistance s n) : m = n := by
  obtain ⟨word, hword, rfl⟩ := hm.reached
  obtain ⟨other, hother, rfl⟩ := hn.reached
  exact Nat.le_antisymm (hm.least other hother) (hn.least word hword)

namespace WellFormed

variable {a : Automaton}

/-- The trail of a state is as long as its distance. -/
theorem isDistance_of_found (h : a.WellFormed) {search : Search Nat Nat}
    (hfinished : Finished (List.range a.alphabet.size) a.stepAt (fun _ => false) a.size a.initial
      search none) {i s : Nat} (hi : search.found.get? i = some s) :
    a.IsDistance s (search.trail i).length := by
  constructor
  · obtain ⟨word, hlength, hword⟩ := h.exists_run_of_walk (hfinished.valid.trail_leads i s hi)
    exact ⟨word, hword, hlength.trans List.length_reverse⟩
  · intro word hword
    obtain ⟨ls, hlength, hls, hwalk⟩ := h.exists_walk_of_run hword
    obtain ⟨j, hj, hle⟩ := hfinished.found_of_walk hls hwalk
    rw [hfinished.valid.wellFormed.get?_inj hi hj, ← hlength]
    exact hle

/-- Every reachable state has a distance, and none is listed after one that is further away. -/
theorem pairwise_distance (h : a.WellFormed) :
    (∀ s ∈ a.reachable, ∃ n, a.IsDistance s n) ∧
    a.reachable.Pairwise fun s t => ∀ m n, a.IsDistance s m → a.IsDistance t n → m ≤ n := by
  obtain ⟨search, hfinished, hreachable⟩ := h.exists_search_reachable
  rw [hreachable]
  constructor
  · intro s hs
    obtain ⟨i, hi⟩ := (Roster.mem_toList_iff _ _).mp hs
    exact ⟨_, h.isDistance_of_found hfinished hi⟩
  · rw [List.pairwise_iff_getElem]
    intro i j hi hj hij m n hm hn
    have hfirst : search.found.get? i = some search.found.toList[i] := by
      rw [← Roster.getElem?_toList, List.getElem?_eq_getElem hi]
    have hsecond : search.found.get? j = some search.found.toList[j] := by
      rw [← Roster.getElem?_toList, List.getElem?_eq_getElem hj]
    rw [hm.unique (h.isDistance_of_found hfinished hfirst),
      hn.unique (h.isDistance_of_found hfinished hsecond)]
    exact hfinished.valid.trail_le i j (Nat.le_of_lt hij) hj

/-- No state is listed twice. -/
theorem nodup_reachable (h : a.WellFormed) : a.reachable.Nodup := by
  obtain ⟨search, hfinished, hreachable⟩ := h.exists_search_reachable
  rw [hreachable]
  exact hfinished.valid.wellFormed.nodup

/-- The initial state is listed first. -/
theorem head?_reachable (h : a.WellFormed) : a.reachable.head? = some a.initial := by
  obtain ⟨search, hfinished, hreachable⟩ := h.exists_search_reachable
  rw [hreachable, List.head?_eq_getElem?, Roster.getElem?_toList]
  exact hfinished.valid.found_start

/-- The search treats each reachable state once and then ends by itself, whatever it is allowed. -/
theorem exists_search_ends (h : a.WellFormed) : ∃ search : Search Nat Nat,
    a.reachable = search.found.toList ∧
      ∀ limit rounds, a.reachable.length ≤ limit → a.reachable.length ≤ rounds →
        runFrom (List.range a.alphabet.size) a.stepAt (fun _ => false) limit rounds 0
          (start a.initial) = some (search, none) := by
  obtain ⟨search, -, -, hends⟩ := exists_search_of_reached h.nodup_reachable
    fun s => h.mem_reachable_iff.trans h.reaches_iff.symm
  refine ⟨search, ?_, hends⟩
  have hle : a.reachable.length ≤ a.size := by
    rw [← List.length_range (n := a.size)]
    refine h.nodup_reachable.length_le_of_subset fun s hs => ?_
    obtain ⟨word, hword⟩ := h.mem_reachable_iff.mp hs
    exact List.mem_range.mpr (h.run_lt h.initial_lt hword)
  have hrun : Search.run (List.range a.alphabet.size) a.stepAt (fun _ => false) a.size a.initial =
      some (search, none) :=
    hends a.size (max 1 a.size) hle (Nat.le_trans hle (Nat.le_max_right _ _))
  rw [reachable, hrun]

/-- The test for emptiness passes exactly if no word is accepted. -/
theorem isEmpty_iff (h : a.WellFormed) :
    a.isEmpty = true ↔ ∀ word, a.accepts word = false := by
  rw [← Bool.not_eq_false, h.isEmpty_eq_false_iff]
  simp

/-- The search for reachable states ends after as many rounds as there are such states. It lists
exactly the states to which words lead, each once, the initial state first and no state before a
nearer one, and an automaton is found empty exactly if it accepts no word. -/
theorem reachable_by_distance (h : a.WellFormed) :
    (∃ search : Search Nat Nat, a.reachable = search.found.toList ∧
      ∀ limit rounds, a.reachable.length ≤ limit → a.reachable.length ≤ rounds →
        runFrom (List.range a.alphabet.size) a.stepAt (fun _ => false) limit rounds 0
          (start a.initial) = some (search, none)) ∧
    (∀ s, s ∈ a.reachable ↔ ∃ word, a.run a.initial word = some s) ∧
    a.reachable.Nodup ∧
    a.reachable.head? = some a.initial ∧
    (∀ s ∈ a.reachable, ∃ n, a.IsDistance s n) ∧
    (a.reachable.Pairwise fun s t => ∀ m n, a.IsDistance s m → a.IsDistance t n → m ≤ n) ∧
    (a.isEmpty = true ↔ ∀ word, a.accepts word = false) :=
  ⟨h.exists_search_ends, fun _ => h.mem_reachable_iff, h.nodup_reachable, h.head?_reachable,
    h.pairwise_distance.1, h.pairwise_distance.2, h.isEmpty_iff⟩

/-- An accepting state that has an edge to the initial one, but to which no word leads. -/
theorem reachable_by_distance_unreachable :
    ∃ a, build ["u", "p"] [⟨"p", "x", "p"⟩, ⟨"u", "y", "p"⟩] "p" ["u"] = .ok a ∧ a.WellFormed ∧
      a.reachable = [1] ∧ (∀ s, s ∈ [1] ↔ ∃ word, a.run a.initial word = some s) ∧
      a.initial = 1 ∧ ∀ word, a.accepts word = false := by
  have hfits : Fits ["u", "p"] [⟨"p", "x", "p"⟩, ⟨"u", "y", "p"⟩] "p" ["u"] :=
    ⟨by decide, by decide, by decide, by decide, by decide, by decide⟩
  obtain ⟨a, ha⟩ := exists_build hfits
  have hwell := (built_of_build ha).wellFormed
  have hfound : (build ["u", "p"] [⟨"p", "x", "p"⟩, ⟨"u", "y", "p"⟩] "p" ["u"]).map
      (fun a => (a.reachable, a.isEmpty)) = .ok ([1], true) := by cbv
  rw [ha] at hfound
  obtain ⟨hlist, hempty⟩ := Prod.mk.inj (Except.ok.inj hfound)
  obtain ⟨-, hmem, -, hhead, -, -, hiff⟩ := reachable_by_distance hwell
  rw [hlist] at hmem hhead
  exact ⟨a, ha, hwell, hlist, hmem, (Option.some.inj hhead).symm, hiff.mp hempty⟩

end WellFormed

end ProcessLogic.Automaton
