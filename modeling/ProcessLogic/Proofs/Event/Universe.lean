import ProcessLogic.Proofs.Event.Label
import ProcessLogic.Proofs.Formula.Token

/-!
# Labels of different universes

A label names every proposition of its universe and separates the names. Identifiers do not hold
the separator, so a label tells how many propositions its universe has. Only the label `true` of
the empty universe might be the label of a proposition.
-/

namespace ProcessLogic

/-- An identifier holds no other characters than identifiers go on with. -/
theorem Formula.Token.notMem_of_isIdent {name : String} (h : isIdent name = true) {c : Char}
    (hc : continuesIdent c = false) : c ∉ name.toList := by
  obtain ⟨first, rest, hname, hfirst, hrest⟩ := isIdent_iff.mp h
  rw [hname]
  intro hm
  rcases List.mem_cons.mp hm with rfl | hm
  · simp [continuesIdent, hfirst] at hc
  · simp [hrest c hm] at hc

namespace Event

variable {props props' : List String} {event event' : Event}

/-- No proposition holds the character that separates the propositions of a label. -/
def Plain (props : List String) : Prop := ∀ p ∈ props, '&' ∉ p.toList

/-- Identifiers do not hold the separator. -/
theorem plain_of_isIdent (h : ∀ p ∈ props, Formula.Token.isIdent p = true) : Plain props :=
  fun p hp => Formula.Token.notMem_of_isIdent (h p hp) rfl

/-- The mention of a proposition holds no separator, whether it is negated or not. -/
theorem count_mention {p : String} (h : '&' ∉ p.toList) (event : Event) :
    (mention event p).toList.count '&' = 0 := by
  rw [List.count_eq_zero, mention]
  split
  · exact h
  · simpa using h

/-- There is one separator for every proposition after the first. -/
theorem count_mentions {ps : List String} (h : Plain ps) (event : Event) :
    (ps.flatMap fun q => " & ".toList ++ (mention event q).toList).count '&' = ps.length := by
  induction ps with
  | nil => rfl
  | cons p ps ih =>
      obtain ⟨hp, hps⟩ := List.forall_mem_cons.mp h
      have hsign : " & ".toList.count '&' = 1 := by decide
      rw [List.flatMap_cons, List.count_append, List.count_append, hsign, count_mention hp, ih hps,
        List.length_cons]
      omega

/-- A label has a separator between any two propositions. -/
theorem count_label_cons {p : String} {ps : List String} (h : Plain (p :: ps)) (event : Event) :
    (label (p :: ps) event).toList.count '&' = ps.length := by
  obtain ⟨hp, hps⟩ := List.forall_mem_cons.mp h
  rw [toList_label_cons, List.count_append, count_mention hp, count_mentions hps, Nat.zero_add]

/-- Universes that share a label have the same size. -/
theorem length_eq_of_label_eq (h : Plain props) (h' : Plain props') (hne : props ≠ [])
    (hne' : props' ≠ []) (hlabel : label props event = label props' event') :
    props.length = props'.length := by
  obtain ⟨p, ps, rfl⟩ := List.exists_cons_of_ne_nil hne
  obtain ⟨p', ps', rfl⟩ := List.exists_cons_of_ne_nil hne'
  have hcount := congrArg (fun text => text.toList.count '&') hlabel
  simp only [count_label_cons h, count_label_cons h'] at hcount
  rw [List.length_cons, List.length_cons, hcount]

/-- The label of the empty universe is that of no other universe without a proposition `true`. -/
theorem label_ne_true (h : Plain props) (hne : props ≠ []) (htrue : "true" ∉ props)
    (event : Event) : label props event ≠ "true" := by
  intro hlabel
  obtain ⟨p, ps, rfl⟩ := List.exists_cons_of_ne_nil hne
  have hcount := count_label_cons h event
  have hnone : "true".toList.count '&' = 0 := by decide
  rw [hlabel, hnone] at hcount
  obtain rfl := List.length_eq_zero_iff.mp hcount.symm
  -- one proposition is left, and the label is its name, perhaps with a tilde
  have hmention : mention event p = "true" := by
    rw [← hlabel, ← String.toList_inj, toList_label_cons]
    simp
  unfold mention at hmention
  split at hmention
  · rw [hmention] at htrue
    exact htrue List.mem_cons_self
  · have hfirst := congrArg (fun text => text.toList.head?) hmention
    simp at hfirst

end Event

end ProcessLogic
