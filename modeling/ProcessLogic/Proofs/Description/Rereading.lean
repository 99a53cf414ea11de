import Mathlib.Data.List.Permutation
import ProcessLogic.Proofs.Automaton.ByPlace
import ProcessLogic.Proofs.Collection.FirstUse
import ProcessLogic.Proofs.Description.RoundTrip

/-!
# Reading what was written, over and over

Reading a written automaton puts the accepting states before the others and the labels in the order
in which the states written use them. So the states keep their places from the second reading on.
The labels then are in the order of their first use by the states in these places, and keep theirs
from the third reading on.
-/

namespace ProcessLogic.Description

open Automaton

/-- The automaton that is read after it has been written a number of times. -/
def rereads (a : Automaton) : Nat → Except ReadError Automaton
  | 0 => .ok a
  | n + 1 => do parse (write (← rereads a n))

/-- The names of the states, those of accepting states first. -/
def finalsFirst (a : Automaton) : List String :=
  a.states.toList.filter a.isFinalName ++ a.states.toList.filter fun name => !a.isFinalName name

/-- Whether there is an edge with a label out of the state of a name. -/
def leaves (a : Automaton) (name : String) (label : Label) : Bool := (a.nextName name label).isSome

/-- The order in which an automaton comes back when it has been written. -/
structure Reread (a b : Automaton) : Prop where
  wellFormed : b.WellFormed
  same : SameByName a b
  states : b.states.toList = finalsFirst a
  alphabet : b.alphabet.toList = Roster.firstUse (leaves a) a.states.toList a.alphabet.toList

variable {a b c d : Automaton}

/-- The text depends on what can be looked up only. -/
theorem write_congr (h : SameByPlace a b) : write a = write b := by
  have hnames : a.stateName = b.stateName := funext (stateName_congr h.states)
  have hfinals : a.isFinal = b.isFinal := funext h.isFinal_eq
  simp only [write, size_congr h.states, hnames, hfinals, h.initial, h.transitions_eq]

section Order

/-- The names of states that pass a test are those that pass it by name. -/
theorem namesOf_eq_filter {p : Nat → Bool} {q : String → Bool}
    (h : ∀ s < a.size, p s = q (a.stateName s)) : namesOf a p = a.states.toList.filter q := by
  rw [toList_states, List.filter_map, namesOf]
  exact congrArg _ (List.filter_congr fun s hs => h s (List.mem_range.mp hs))

/-- The names are written with those of accepting states first. -/
theorem namesOf_append (h : a.WellFormed) :
    namesOf a a.isFinal ++ namesOf a (fun s => !a.isFinal s) = finalsFirst a := by
  have hfinal : ∀ s < a.size, a.isFinal s = a.isFinalName (a.stateName s) :=
    fun s hs => (h.isFinalName_stateName hs).symm
  have hother : ∀ s < a.size, (!a.isFinal s) = !a.isFinalName (a.stateName s) :=
    fun s hs => congrArg not (hfinal s hs)
  rw [namesOf_eq_filter hfinal, namesOf_eq_filter (q := fun name => !a.isFinalName name) hother]
  rfl

/-- Putting accepting states first loses no name. -/
theorem mem_finalsFirst {name : String} : name ∈ finalsFirst a ↔ name ∈ a.states.toList := by
  cases hf : a.isFinalName name <;> simp [finalsFirst, hf]

/-- No name is written twice. -/
theorem nodup_finalsFirst (h : a.WellFormed) : (finalsFirst a).Nodup := by
  have hn := h.states_wellFormed.nodup
  refine List.nodup_append.mpr ⟨hn.filter _, hn.filter _, fun name hm other hother he => ?_⟩
  have hfinal := (List.mem_filter.mp hm).2
  have hnot := (List.mem_filter.mp hother).2
  rw [← he, hfinal] at hnot
  exact nomatch hnot

/-- The labels of the transitions that are written. -/
theorem labels_transitionsOf (h : a.WellFormed) :
    (transitionsOf a).map (·.label) =
      a.states.toList.flatMap fun name => a.alphabet.toList.filter (leaves a name) := by
  have hleaves : ∀ s ∈ List.range a.size,
      (a.edgesFrom s).map (·.1) = a.alphabet.toList.filter (leaves a (a.stateName s)) := by
    intro s hs
    rw [h.labels_edgesFrom]
    refine List.filter_congr fun label _ => ?_
    rw [leaves, h.nextName_stateName (List.mem_range.mp hs), Option.isSome_map]
  rw [toList_states, List.flatMap_map, transitionsOf, transitions, List.map_map, List.map_flatMap]
  simp only [List.map_map]
  exact List.flatMap_congr hleaves

end Order

/-- The names that are declared for the marker and the transitions have been declared before. -/
theorem reread_of_built (h : a.WellFormed)
    (hb : Built (((lines a).map (·.2)).flatMap Statement.declared) (transitionsOf a)
      (a.stateName a.initial) (namesOf a a.isFinal) b) : Reread a b where
  wellFormed := hb.wellFormed
  same := sameByName_of_built h hb
  states := by
    have hrest : ∀ name ∈ [a.stateName a.initial] ++
        (transitionsOf a).flatMap (fun tr => [tr.source, tr.target]),
          name ∈ (Roster.ofList (finalsFirst a)).toList := by
      intro name hm
      rw [Roster.mem_ofList, mem_finalsFirst, mem_states_toList_iff, ← mem_declared_written h,
        declared_written h, List.append_assoc]
      exact List.mem_append_right _ hm
    rw [hb.states_eq, declared_written h, namesOf_append h, List.append_assoc, Roster.ofList,
      Roster.insertMany_append, ← Roster.ofList,
      (Roster.wellFormed_ofList _).insertMany_of_subset hrest,
      Roster.toList_ofList_of_nodup (nodup_finalsFirst h)]
  alphabet := by
    rw [hb.alphabet_eq, labels_transitionsOf h]
    rfl

/-- Every well-formed automaton is read back, in the order in which it is written. -/
theorem exists_reread (h : a.WellFormed) : ∃ b, parse (write a) = .ok b ∧ Reread a b := by
  obtain ⟨b, hb, hbuilt⟩ := exists_parse_write_built h
  exact ⟨b, hb, reread_of_built h hbuilt⟩

namespace Reread

/-- Reading back keeps the order in which accepting states stand first. -/
theorem finalsFirst_eq (h : Reread a b) : finalsFirst b = finalsFirst a := by
  have hfinals : b.isFinalName = a.isFinalName := funext fun name => (h.same.finals name).symm
  rw [finalsFirst, hfinals, h.states]
  simp [finalsFirst, List.filter_filter]

/-- From the second reading on the states keep their places. -/
theorem states_eq (h : Reread a b) (h' : Reread b c) : c.states.toList = b.states.toList := by
  rw [h'.states, h.finalsFirst_eq, h.states]

/-- Reading back keeps the labels on which each name has an edge. -/
theorem leaves_eq (h : Reread a b) : leaves b = leaves a := by
  funext name label
  rw [leaves, leaves, h.same.next]

/-- From the third reading on the labels keep their places too. -/
theorem alphabet_eq (h : Reread a b) (h' : Reread b c) (h'' : Reread c d) :
    d.alphabet.toList = c.alphabet.toList := by
  rw [h''.alphabet, h'.leaves_eq, h.states_eq h', h'.alphabet]
  exact Roster.firstUse_firstUse _ _ h.wellFormed.alphabet_wellFormed.nodup

/-- From the second reading on every place is kept. -/
theorem sameByPlace (h : Reread a b) (h' : Reread b c) (h'' : Reread c d) : SameByPlace d c :=
  h''.same.symm.sameByPlace h''.wellFormed h'.wellFormed (h'.states_eq h'') (h.alphabet_eq h' h'')

end Reread

/-- One reading more is a reading of what was read before. -/
theorem rereads_succ {n : Nat} (h : rereads a n = .ok b) :
    rereads a (n + 1) = parse (write b) := by
  simp only [rereads, h, bind, Except.bind]

/-- Writing and reading settles: what is read the second time is read again ever after, with all
states and labels at their places, and so the text is the same from the third time on. -/
theorem rereads_stabilize (h : a.WellFormed) : ∃ c, rereads a 2 = .ok c ∧
    ∀ n, ∃ d, rereads a (n + 2) = .ok d ∧ SameByPlace d c ∧ write d = write c := by
  obtain ⟨b, hb, hab⟩ := exists_reread h
  obtain ⟨c, hc, hbc⟩ := exists_reread hab.wellFormed
  obtain ⟨d, hd, hcd⟩ := exists_reread hbc.wellFormed
  have hfirst : rereads a 1 = .ok b := (rereads_succ rfl).trans hb
  have hsecond : rereads a 2 = .ok c := (rereads_succ hfirst).trans hc
  have hsame := hab.sameByPlace hbc hcd
  refine ⟨c, hsecond, fun n => ?_⟩
  induction n with
  | zero => exact ⟨c, hsecond, SameByPlace.refl c, rfl⟩
  | succ n ih =>
      obtain ⟨e, he, -, htext⟩ := ih
      refine ⟨d, ?_, hsame, write_congr hsame⟩
      rw [Nat.add_right_comm, rereads_succ he, htext, hd]

/-- One reading may not be enough: the accepting state comes first, and only the second reading
puts its label first. -/
theorem rereads_stabilize_second : ∃ a b c,
    build ["p", "q"] [⟨"p", "x", "q"⟩, ⟨"q", "y", "q"⟩] "p" ["q"] = .ok a ∧
    rereads a 1 = .ok b ∧ b.alphabet.toList = ["x", "y"] ∧
    rereads a 2 = .ok c ∧ c.alphabet.toList = ["y", "x"] ∧
    ∀ n, ∃ d, rereads a (n + 2) = .ok d ∧ SameByPlace d c ∧ write d = write c := by
  have hfits : Fits ["p", "q"] [⟨"p", "x", "q"⟩, ⟨"q", "y", "q"⟩] "p" ["q"] :=
    ⟨by decide, by decide, by decide, by decide, by decide, by decide⟩
  obtain ⟨a, ha⟩ := exists_build hfits
  have hwell := (built_of_build ha).wellFormed
  have hcomputed : (build ["p", "q"] [⟨"p", "x", "q"⟩, ⟨"q", "y", "q"⟩] "p" ["q"]).map
      (fun a => (Roster.firstUse (leaves a) a.states.toList a.alphabet.toList,
        Roster.firstUse (leaves a) (finalsFirst a)
          (Roster.firstUse (leaves a) a.states.toList a.alphabet.toList))) =
        .ok (["x", "y"], ["y", "x"]) := by cbv
  rw [ha] at hcomputed
  obtain ⟨hfirst, hsecond⟩ := Prod.mk.inj (Except.ok.inj hcomputed)
  obtain ⟨b, hb, hab⟩ := exists_reread hwell
  obtain ⟨c, hc, hbc⟩ := exists_reread hab.wellFormed
  obtain ⟨c', hc', hsettled⟩ := rereads_stabilize hwell
  have hreadb : rereads a 1 = .ok b := (rereads_succ rfl).trans hb
  have hreadc := (rereads_succ hreadb).trans hc
  rw [hreadc] at hc'
  obtain rfl := Except.ok.inj hc'
  refine ⟨a, b, c, ha, hreadb, hab.alphabet.trans hfirst, hreadc, ?_, hsettled⟩
  rw [hbc.alphabet, hab.leaves_eq, hab.states, hab.alphabet]
  exact hsecond

end ProcessLogic.Description
