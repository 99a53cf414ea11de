import ProcessLogic.Event
import ProcessLogic.Proofs.Text.Join

/-!
# Labels tell events apart

The label of an event names every proposition of the universe with or without a tilde. Names
are not escaped, but two labels of one universe differ at the first proposition on which the
events differ, so a label determines which propositions hold.
-/

namespace ProcessLogic

open Text

namespace EventSemantics

/-- The events of a semantics over a universe, given by the propositions that hold: any set of
them, or at most one. -/
def Admits (semantics : EventSemantics) (props : List String) (event : Event) : Prop :=
  (∀ p ∈ event, p ∈ props) ∧ (semantics = .single → ∀ p ∈ event, ∀ q ∈ event, p = q)

instance (semantics : EventSemantics) (props : List String) (event : Event) :
    Decidable (semantics.Admits props event) :=
  inferInstanceAs (Decidable (_ ∧ _))

/-- An event listed has propositions of the universe only. -/
theorem mem_of_mem_subsets {props : List String} {event : Event} (h : event ∈ subsets props) :
    ∀ p ∈ event, p ∈ props := by
  induction props generalizing event with
  | nil =>
      obtain rfl := List.mem_singleton.mp h
      simp
  | cons p ps ih =>
      obtain ⟨s, hs, hm⟩ := List.mem_flatMap.mp h
      intro q hq
      rcases List.mem_cons.mp hm with rfl | hm
      · exact List.mem_cons_of_mem p (ih hs q hq)
      · rw [List.mem_singleton.mp hm] at hq
        rcases List.mem_cons.mp hq with rfl | hq
        · exact List.mem_cons_self
        · exact List.mem_cons_of_mem p (ih hs q hq)

/-- The propositions that pass a test make an event that is listed. -/
theorem filter_mem_subsets (props : List String) (holds : String → Bool) :
    props.filter holds ∈ subsets props := by
  induction props with
  | nil => exact List.mem_singleton.mpr rfl
  | cons p ps ih =>
      refine List.mem_flatMap.mpr ⟨_, ih, ?_⟩
      rw [List.filter_cons]
      split <;> simp

/-- All events listed are events of the semantics. -/
theorem admits_of_mem_events {semantics : EventSemantics} {props : List String} {event : Event}
    (h : event ∈ semantics.events props) : semantics.Admits props event := by
  cases semantics with
  | single =>
      rcases List.mem_append.mp h with h | h
      · obtain ⟨p, hp, rfl⟩ := List.mem_map.mp h
        refine ⟨?_, fun _ q hq r hr => ?_⟩
        · intro q hq
          rwa [List.mem_singleton.mp hq]
        · rw [List.mem_singleton.mp hq, List.mem_singleton.mp hr]
      · obtain rfl := List.mem_singleton.mp h
        exact ⟨by simp, by simp⟩
  | unrestricted => exact ⟨mem_of_mem_subsets h, fun he => nomatch he⟩

/-- Every event of the semantics is listed, up to order and repeats. -/
theorem exists_mem_events {semantics : EventSemantics} {props : List String} {event : Event}
    (h : semantics.Admits props event) :
    ∃ listed ∈ semantics.events props, ∀ p, p ∈ listed ↔ p ∈ event := by
  obtain ⟨hsub, hone⟩ := h
  cases semantics with
  | single =>
      cases event with
      | nil => exact ⟨[], List.mem_append_right _ (List.mem_singleton.mpr rfl), fun _ => Iff.rfl⟩
      | cons p rest =>
          refine ⟨[p], List.mem_append_left _ (List.mem_map.mpr
            ⟨p, hsub p List.mem_cons_self, rfl⟩), fun q => ?_⟩
          rw [List.mem_singleton]
          constructor
          · rintro rfl
            exact List.mem_cons_self
          · intro hq
            exact hone rfl q hq p List.mem_cons_self
  | unrestricted =>
      refine ⟨_, filter_mem_subsets props event.contains, fun p => ?_⟩
      rw [List.mem_filter, List.contains_iff_mem]
      exact ⟨fun hp => hp.2, fun hp => ⟨hsub p hp, hp⟩⟩

end EventSemantics

namespace Event

/-- How a label names one proposition. -/
def mention (event : Event) (p : String) : String :=
  if event.contains p then p else "~" ++ p

/-- A label names the first proposition and then, after a separator each, the others. -/
theorem toList_label_cons (p : String) (ps : List String) (event : Event) :
    (label (p :: ps) event).toList = (mention event p).toList ++
      ps.flatMap fun q => " & ".toList ++ (mention event q).toList := by
  rw [label, if_neg (by simp), List.map_cons, toList_intercalate_cons, List.flatMap_map]
  rfl

/-- Only the propositions of the universe matter for a label. -/
theorem label_congr {props : List String} {event event' : Event}
    (h : ∀ p, p ∈ event ↔ p ∈ event') : label props event = label props event' := by
  have hc : ∀ p, event.contains p = event'.contains p := by
    intro p
    rw [Bool.eq_iff_iff, List.contains_iff_mem, List.contains_iff_mem]
    exact h p
  simp only [label, hc]

/-- A word cannot be shifted by a tilde along itself unless a tilde follows it. -/
theorem tilde_of_shift {p x y : List Char} (h : p ++ x = '~' :: (p ++ y)) : x = '~' :: y := by
  induction p with
  | nil => exact h
  | cons c p ih =>
      obtain ⟨rfl, htail⟩ := List.cons.inj h
      exact ih htail

/-- What follows a mention in a label does not start with a tilde. -/
theorem rest_ne_tilde (ps : List String) (event : Event) (y : List Char) :
    (ps.flatMap fun q => " & ".toList ++ (mention event q).toList) ≠ '~' :: y := by
  cases ps with
  | nil => simp
  | cons p ps => simp

/-- Equal beginnings of labels mention the first proposition alike, and go on alike. -/
theorem mention_append_inj {p : String} {event event' : Event} {x y : List Char}
    (h : (mention event p).toList ++ x = (mention event' p).toList ++ y)
    (hx : ∀ z, x ≠ '~' :: z) (hy : ∀ z, y ≠ '~' :: z) :
    event.contains p = event'.contains p ∧ x = y := by
  unfold mention at h
  cases he : event.contains p <;> cases he' : event'.contains p <;>
    simp only [he, he', Bool.false_eq_true, if_true, if_false, String.toList_append,
      List.append_assoc] at h
  · exact ⟨rfl, List.append_cancel_left (List.append_cancel_left h)⟩
  · exact absurd (tilde_of_shift h.symm) (hy _)
  · exact absurd (tilde_of_shift h) (hx _)
  · exact ⟨rfl, List.append_cancel_left h⟩

/-- Labels that mention the same propositions alike are of events that agree on them. -/
theorem contains_eq_of_mentions {ps : List String} {event event' : Event}
    (h : (ps.flatMap fun q => " & ".toList ++ (mention event q).toList) =
      ps.flatMap fun q => " & ".toList ++ (mention event' q).toList) :
    ∀ p ∈ ps, event.contains p = event'.contains p := by
  induction ps with
  | nil => simp
  | cons p ps ih =>
      simp only [List.flatMap_cons, List.append_assoc, List.append_cancel_left_eq] at h
      obtain ⟨hp, hrest⟩ := mention_append_inj h (rest_ne_tilde ps event) (rest_ne_tilde ps event')
      intro q hq
      rcases List.mem_cons.mp hq with rfl | hq
      · exact hp
      · exact ih hrest q hq

/-- Events with one label hold the same propositions of the universe. -/
theorem contains_eq_of_label_eq {props : List String} {event event' : Event}
    (h : label props event = label props event') :
    ∀ p ∈ props, event.contains p = event'.contains p := by
  cases props with
  | nil => simp
  | cons p ps =>
      have hl := congrArg String.toList h
      rw [toList_label_cons, toList_label_cons] at hl
      obtain ⟨hp, hrest⟩ :=
        mention_append_inj hl (rest_ne_tilde ps event) (rest_ne_tilde ps event')
      intro q hq
      rcases List.mem_cons.mp hq with rfl | hq
      · exact hp
      · exact contains_eq_of_mentions hrest q hq

/-- Events of a semantics with one label hold the same propositions. -/
theorem mem_iff_of_label_eq {semantics : EventSemantics} {props : List String}
    {event event' : Event} (hadm : semantics.Admits props event)
    (hadm' : semantics.Admits props event') (h : label props event = label props event')
    (p : String) : p ∈ event ↔ p ∈ event' := by
  have hc := contains_eq_of_label_eq h
  rw [← List.contains_iff_mem, ← List.contains_iff_mem]
  constructor
  · intro hp
    rw [← hc p (hadm.1 p (List.contains_iff_mem.mp hp))]
    exact hp
  · intro hp
    rw [hc p (hadm'.1 p (List.contains_iff_mem.mp hp))]
    exact hp

end Event

end ProcessLogic
