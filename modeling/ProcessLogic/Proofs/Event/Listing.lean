import Mathlib.Data.List.Nodup
import ProcessLogic.Proofs.Event.Label

/-!
# The events of a semantics are listed once

Over a universe without repeats no event is listed twice, and two listed events that hold the same
propositions are one event. Since a label tells which propositions hold, no two letters of a
universe have one label.
-/

namespace ProcessLogic

namespace EventSemantics

variable {props : List String} {event event' : Event}

/-- A listed subset holds its propositions in the order of the universe. -/
theorem filter_eq_of_mem_subsets (hprops : props.Nodup) (h : event ∈ subsets props) :
    props.filter (fun p => decide (p ∈ event)) = event := by
  induction props generalizing event with
  | nil =>
      obtain rfl := List.mem_singleton.mp h
      rfl
  | cons p ps ih =>
      obtain ⟨hp, hps⟩ := List.nodup_cons.mp hprops
      obtain ⟨s, hs, hm⟩ := List.mem_flatMap.mp h
      have hnot : p ∉ s := fun hmem => hp (mem_of_mem_subsets hs p hmem)
      rcases List.mem_cons.mp hm with rfl | hm
      · rw [List.filter_cons_of_neg (by simpa using hnot), ih hps hs]
      · obtain rfl := List.mem_singleton.mp hm
        have hrest : ps.filter (fun q => decide (q ∈ p :: s)) =
            ps.filter fun q => decide (q ∈ s) := by
          refine List.filter_congr fun q hq => ?_
          have hne : q ≠ p := fun he => hp (he ▸ hq)
          simp [hne]
        rw [List.filter_cons_of_pos (by simp), hrest, ih hps hs]

theorem nodup_subsets (hprops : props.Nodup) : (subsets props).Nodup := by
  induction props with
  | nil => exact List.nodup_singleton []
  | cons p ps ih =>
      obtain ⟨hp, hps⟩ := List.nodup_cons.mp hprops
      have hnot : ∀ s ∈ subsets ps, p ∉ s := fun s hs hmem => hp (mem_of_mem_subsets hs p hmem)
      refine List.nodup_flatMap.mpr ⟨fun s _ => by simp, ?_⟩
      refine (ih hps).imp_of_mem fun {s t} hs ht hne => ?_
      refine List.disjoint_left.mpr fun e he he' => ?_
      simp only [List.mem_cons, List.not_mem_nil, or_false] at he he'
      -- `s` and `t` do not have `p`, so only like can be like
      rcases he with rfl | rfl <;> rcases he' with he' | he'
      · exact hne he'
      · exact hnot _ hs (he' ▸ List.mem_cons_self)
      · exact hnot _ ht (he' ▸ List.mem_cons_self)
      · exact hne (List.cons.inj he').2

/-- No event is listed twice. -/
theorem nodup_events (semantics : EventSemantics) (hprops : props.Nodup) :
    (semantics.events props).Nodup := by
  cases semantics with
  | unrestricted => exact nodup_subsets hprops
  | single =>
      refine List.nodup_append.mpr ⟨?_, List.nodup_singleton [], ?_⟩
      · exact hprops.map fun p q h => List.singleton_inj.mp h
      · intro e he e' he'
        obtain ⟨p, -, rfl⟩ := List.mem_map.mp he
        rw [List.mem_singleton.mp he']
        exact List.cons_ne_nil p []

/-- Listed events that hold the same propositions are one event. -/
theorem eq_of_mem_events {semantics : EventSemantics} (hprops : props.Nodup)
    (h : event ∈ semantics.events props) (h' : event' ∈ semantics.events props)
    (hsame : ∀ p, p ∈ event ↔ p ∈ event') : event = event' := by
  cases semantics with
  | unrestricted =>
      rw [← filter_eq_of_mem_subsets hprops h, ← filter_eq_of_mem_subsets hprops h']
      simp only [hsame]
  | single =>
      have hshape : ∀ e ∈ events props .single, (∃ p, e = [p]) ∨ e = [] := by
        intro e he
        rcases List.mem_append.mp he with he | he
        · obtain ⟨p, -, rfl⟩ := List.mem_map.mp he
          exact Or.inl ⟨p, rfl⟩
        · exact Or.inr (List.mem_singleton.mp he)
      rcases hshape event h with ⟨p, rfl⟩ | rfl <;> rcases hshape event' h' with ⟨q, rfl⟩ | rfl
      · rw [List.mem_singleton.mp ((hsame p).mp List.mem_cons_self)]
      · exact absurd ((hsame p).mp List.mem_cons_self) List.not_mem_nil
      · exact absurd ((hsame q).mpr List.mem_cons_self) List.not_mem_nil
      · rfl

end EventSemantics

namespace Event

variable {semantics : EventSemantics} {props : List String}

/-- Listed events with one label are one event. -/
theorem eq_of_label_eq {event event' : Event} (hprops : props.Nodup)
    (h : event ∈ semantics.events props) (h' : event' ∈ semantics.events props)
    (hlabel : label props event = label props event') : event = event' :=
  EventSemantics.eq_of_mem_events hprops h h' (mem_iff_of_label_eq
    (EventSemantics.admits_of_mem_events h) (EventSemantics.admits_of_mem_events h') hlabel)

/-- No label is listed twice. -/
theorem nodup_labels (semantics : EventSemantics) (hprops : props.Nodup) :
    ((semantics.events props).map (label props)).Nodup :=
  (semantics.nodup_events hprops).map_on fun _ h _ h' => eq_of_label_eq hprops h h'

end Event

end ProcessLogic
