import ProcessLogic.Proofs.Formula.Suffix
import ProcessLogic.Proofs.Residual.Dnf
import ProcessLogic.Proofs.Residual.Store
import ProcessLogic.Residual.Progression

/-!
# Progression is sound

The obligations that a formula leaves after an event are met by the rest of a trace exactly if
the formula holds on the event followed by the rest. So a residual holds before an event
exactly if its successor holds after it. What the nodes of the store say of the empty trace is what
their formulas say of it.
-/

namespace ProcessLogic

/-- Which obligations the rest of a trace meets, when `truth` tells which formulas hold on it. -/
def Obligation.met (rest : Trace) (truth : Nat → Bool) : Obligation → Bool
  | .next f => !rest.isEmpty && truth f
  | .weakNext f => rest.isEmpty || truth f

/-- The rest of a trace that meets the strong obligation meets the weak one. -/
theorem Obligation.coherent_met (rest : Trace) (truth : Nat → Bool) :
    Coherent (met rest truth) := by
  intro f hf
  simp only [met, Bool.and_eq_true, Bool.or_eq_true] at *
  exact Or.inr hf.2

/-- After an event there is a rest, so both obligations for a formula demand the same. -/
theorem Obligation.met_cons (event : Event) (rest : Trace) (truth : Nat → Bool)
    (o : Obligation) : met (event :: rest) truth o = truth o.formula := by
  cases o <;> simp [met, formula]

/-- The end of a trace meets exactly the weak obligations. -/
theorem Obligation.met_nil (truth : Nat → Bool) : met [] truth = isWeak := by
  funext o
  cases o <;> rfl

/-- Whether a formula speaks of the first event only. -/
def Nnf.isImmediate : Nnf → Bool
  | .literal .. | .const _ => true
  | .or p q | .and p q => p.isImmediate && q.isImmediate
  | .until .. | .release .. | .next _ | .weakNext _ => false

namespace Store

open Classical in
/-- Whether formula number `i` of a store is there and holds on a trace. -/
noncomputable def holds (store : Store) (trace : Trace) (i : Nat) : Bool :=
  decide (∃ f, Denotes store i f ∧ f.holds trace = true)

variable {store : Store}

/-- A number holds on a trace exactly if the formula that it denotes does. -/
theorem holds_iff {trace : Trace} {i : Nat} :
    store.holds trace i = true ↔ ∃ f, Denotes store i f ∧ f.holds trace = true := by
  simp only [holds, decide_eq_true_eq]

/-- A number that denotes a formula holds exactly where the formula does. -/
theorem Denotes.holds_eq {i : Nat} {f : Nnf} (h : Denotes store i f) (trace : Trace) :
    store.holds trace i = f.holds trace := by
  rw [Bool.eq_iff_iff, holds_iff]
  constructor
  · rintro ⟨g, hg, ht⟩
    rwa [h.unique hg]
  · intro ht
    exact ⟨f, h, ht⟩

/-- A number that is not stored holds nowhere. -/
theorem holds_of_size_le {i : Nat} (h : store.size ≤ i) (trace : Trace) :
    store.holds trace i = false := by
  rw [Bool.eq_false_iff, ne_eq, holds_iff]
  rintro ⟨f, hf, -⟩
  exact absurd hf.lt_size (Nat.not_lt_of_le h)

/-- Only the propositions of the first event matter. -/
theorem holds_cons_congr {event event' : Event} (h : ∀ p, p ∈ event ↔ p ∈ event')
    (rest : Trace) : store.holds (event :: rest) = store.holds (event' :: rest) := by
  funext i
  rw [Bool.eq_iff_iff, holds_iff, holds_iff]
  simp only [Nnf.holds_cons_congr h rest]

end Store

/-- The progress known so far is right: for every number below `bound` the obligations are in
order and mean what the formula means. -/
structure Progress.Sound (store : Store) (event : Event) (known : Nat → Dnf) (bound : Nat) :
    Prop where
  ordered : ∀ i < bound, (known i).Ordered
  eval_eq : ∀ i < bound, ∀ rest : Trace,
    (known i).eval (Obligation.met rest (store.holds rest)) = store.holds (event :: rest) i

/-- What a node leaves is put together from what its parts leave and from obligations for the node
and its parts. -/
theorem Node.progress_induction {P : Dnf → Prop} {event : Event} {self : Nat} {known : Nat → Dnf}
    {node : Node} (hvalue : ∀ value : Bool, P (if value then .top else .bottom))
    (hobligation : ∀ o : Obligation, o.formula ∈ self :: node.children → P (.ofObligation o))
    (hor : ∀ d e, P d → P e → P (d.or e)) (hand : ∀ d e, P d → P e → P (d.and e))
    (hparts : ∀ j ∈ node.children, P (known j)) : P (node.progress event self known) := by
  cases node with
  | literal negated name => exact hvalue _
  | const value => exact hvalue value
  | «until» j k =>
      have hself := hobligation (.next self) List.mem_cons_self
      exact hor _ _ (hparts k (by simp [children]))
        (hand _ _ (hparts j (by simp [children])) hself)
  | release j k =>
      have hself := hobligation (.weakNext self) List.mem_cons_self
      exact hand _ _ (hparts k (by simp [children]))
        (hor _ _ (hparts j (by simp [children])) hself)
  | or j k => exact hor _ _ (hparts j (by simp [children])) (hparts k (by simp [children]))
  | and j k => exact hand _ _ (hparts j (by simp [children])) (hparts k (by simp [children]))
  | next j => exact hobligation (.next j) (by simp [children, Obligation.formula])
  | weakNext j => exact hobligation (.weakNext j) (by simp [children, Obligation.formula])

/-- A node's obligations are in order if those of its parts are. -/
theorem Node.ordered_progress {event : Event} {self : Nat} {known : Nat → Dnf} {node : Node}
    (h : ∀ j ∈ node.children, (known j).Ordered) : (node.progress event self known).Ordered :=
  progress_induction Dnf.ordered_ite (fun o _ => Dnf.ordered_ofObligation o)
    (fun _ _ hd he => hd.or he) (fun d e _ _ => Dnf.ordered_and d e) h

/-- A node's obligations mean what its formula means if those of smaller numbers do. -/
theorem Node.eval_progress {store : Store} {event : Event} {known : Nat → Dnf} {i : Nat}
    (hcl : store.Closed) (h : Progress.Sound store event known i) {node : Node}
    (hn : store.get? i = some node) (rest : Trace) :
    (node.progress event i known).eval (Obligation.met rest (store.holds rest)) =
      store.holds (event :: rest) i := by
  have hmet := Obligation.coherent_met rest (store.holds rest)
  have hpart : ∀ j ∈ node.children, ∀ p, Store.Denotes store j p → (known j).Ordered ∧
      (known j).eval (Obligation.met rest (store.holds rest)) = p.holds (event :: rest) := by
    intro j hj p hp
    have hlt := hcl.child_lt i node hn j hj
    exact ⟨h.ordered j hlt, (h.eval_eq j hlt rest).trans (hp.holds_eq _)⟩
  obtain ⟨f, hf⟩ := hcl.exists_denotes (Roster.lt_size_of_get? hn)
  rw [hf.holds_eq]
  cases hf with
  | literal hi =>
      obtain rfl := Option.some.inj (hn.symm.trans hi)
      exact Dnf.eval_ite _ _
  | const hi =>
      obtain rfl := Option.some.inj (hn.symm.trans hi)
      exact Dnf.eval_ite _ _
  | «until» hi hp hq =>
      obtain rfl := Option.some.inj (hn.symm.trans hi)
      obtain ⟨-, hleft⟩ := hpart _ (by simp [Node.children]) _ hp
      obtain ⟨hordered, hright⟩ := hpart _ (by simp [Node.children]) _ hq
      have hself := Store.Denotes.holds_eq (.until hi hp hq) rest
      rw [Node.progress, Dnf.eval_or hmet hordered (Dnf.ordered_and _ _), Dnf.eval_and hmet,
        hleft, hright, Dnf.eval_ofObligation, Nnf.holds_until_cons, Obligation.met, hself]
      cases rest <;> rfl
  | release hi hp hq =>
      obtain rfl := Option.some.inj (hn.symm.trans hi)
      obtain ⟨hordered, hleft⟩ := hpart _ (by simp [Node.children]) _ hp
      obtain ⟨-, hright⟩ := hpart _ (by simp [Node.children]) _ hq
      have hself := Store.Denotes.holds_eq (.release hi hp hq) rest
      rw [Node.progress, Dnf.eval_and hmet, Dnf.eval_or hmet hordered (Dnf.ordered_ofObligation _),
        hleft, hright, Dnf.eval_ofObligation, Nnf.holds_release_cons, Obligation.met, hself]
      cases rest <;> rfl
  | or hi hp hq =>
      obtain rfl := Option.some.inj (hn.symm.trans hi)
      obtain ⟨hordered, hleft⟩ := hpart _ (by simp [Node.children]) _ hp
      obtain ⟨hordered', hright⟩ := hpart _ (by simp [Node.children]) _ hq
      rw [Node.progress, Dnf.eval_or hmet hordered hordered', hleft, hright, Nnf.holds_or]
  | and hi hp hq =>
      obtain rfl := Option.some.inj (hn.symm.trans hi)
      obtain ⟨-, hleft⟩ := hpart _ (by simp [Node.children]) _ hp
      obtain ⟨-, hright⟩ := hpart _ (by simp [Node.children]) _ hq
      rw [Node.progress, Dnf.eval_and hmet, hleft, hright, Nnf.holds_and]
  | next hi hp =>
      obtain rfl := Option.some.inj (hn.symm.trans hi)
      rw [Node.progress, Dnf.eval_ofObligation, Nnf.holds_next_cons, Obligation.met, hp.holds_eq]
  | weakNext hi hp =>
      obtain rfl := Option.some.inj (hn.symm.trans hi)
      rw [Node.progress, Dnf.eval_ofObligation, Nnf.holds_weakNext_cons, Obligation.met,
        hp.holds_eq]

/-- Only the truth of its parts matters for a node. -/
theorem Node.holdsOnEmpty_congr {known known' : Nat → Bool} {node : Node}
    (h : ∀ j ∈ node.children, known j = known' j) :
    node.holdsOnEmpty known = node.holdsOnEmpty known' := by
  cases node <;> simp_all [Node.holdsOnEmpty, Node.children]

namespace Store

variable {store : Store}

/-- Whether a stored formula holds on the empty trace comes from its parts. -/
theorem Closed.solves_holdsOnEmpty (hcl : store.Closed) :
    store.Solves (fun _ known node => node.holdsOnEmpty known) store.holdsOnEmpty :=
  (hcl.solves_pass (fun _ _ _ _ => Node.holdsOnEmpty_congr) false).2

/-- The nodes tell whether a formula holds on the empty trace. -/
theorem Denotes.holdsOnEmpty_eq {i : Nat} {f : Nnf} (h : Denotes store i f)
    (hcl : store.Closed) : store.holdsOnEmpty i = f.holds [] := by
  have hnode : ∀ i node, store.get? i = some node →
      store.holdsOnEmpty i = node.holdsOnEmpty store.holdsOnEmpty := hcl.solves_holdsOnEmpty
  induction h with
  | literal hi | const hi => exact hnode _ _ hi
  | or hi _ _ ihp ihq => rw [hnode _ _ hi, Node.holdsOnEmpty, ihp, ihq, Nnf.holds_or]
  | and hi _ _ ihp ihq => rw [hnode _ _ hi, Node.holdsOnEmpty, ihp, ihq, Nnf.holds_and]
  | «until» hi | release hi | next hi | weakNext hi => exact hnode _ _ hi

end Store

/-- Only the obligations of its parts matter for a node. -/
theorem Node.progress_congr {event : Event} {self : Nat} {known known' : Nat → Dnf} {node : Node}
    (h : ∀ j ∈ node.children, known j = known' j) :
    node.progress event self known = node.progress event self known' := by
  cases node <;> simp_all [Node.progress, Node.children]

namespace Progress

theorem of_push {progress : Progress} {d : Dnf} {i : Nat} :
    of (progress.push d) i = if i = progress.size then d else of progress i := by
  simp only [of, Array.getD_eq_getD_getElem?, Array.getElem?_push]
  split <;> simp

theorem of_of_size_le {progress : Progress} {i : Nat} (h : progress.size ≤ i) :
    progress.of i = .bottom := by
  simp [of, h]

/-- What is always met stays met. -/
@[simp] theorem successor_top (progress : Progress) : progress.successor .top = .top :=
  Dnf.bottom_or_top

/-- A single obligation leaves what its formula leaves, if that is a truth value. -/
theorem successor_ofObligation {progress : Progress} {o : Obligation} {value : Bool}
    (h : progress.of o.formula = if value then .top else .bottom) :
    progress.successor (.ofObligation o) = if value then .top else .bottom := by
  cases value <;> simp_all [successor, ofClause, Dnf.ofObligation]

/-- A node's obligations come from those of its parts. -/
theorem ofStore_spec {store : Store} (hcl : store.Closed) (event : Event) :
    (ofStore store event).size = store.size ∧
      ∀ i < store.size, ∀ node, store.get? i = some node →
        (ofStore store event).of i = node.progress event i (ofStore store event).of := by
  have hparts : Store.OfParts (Node.progress event) := fun _ _ _ _ => Node.progress_congr
  obtain ⟨hsize, hsolves⟩ := hcl.solves_pass hparts .bottom
  exact ⟨hsize, fun i _ => hsolves i⟩

/-- The obligations of all stored formulas are right. -/
theorem sound_ofStore {store : Store} (hcl : store.Closed) (event : Event) :
    Sound store event (ofStore store event).of store.size := by
  suffices h : ∀ k ≤ store.size, Sound store event (ofStore store event).of k from
    h store.size (Nat.le_refl _)
  intro k
  induction k with
  | zero =>
      exact fun _ => ⟨fun i hi => absurd hi (Nat.not_lt_zero i),
        fun i hi => absurd hi (Nat.not_lt_zero i)⟩
  | succ k ih =>
      intro hk
      have hsound := ih (by omega)
      obtain ⟨node, hn⟩ := Roster.exists_get?_of_lt hk
      have hof := (ofStore_spec hcl event).2 k hk node hn
      have hord : (node.progress event k (ofStore store event).of).Ordered :=
        Node.ordered_progress fun j hj => hsound.ordered j (hcl.child_lt k node hn j hj)
      have heval := Node.eval_progress hcl hsound hn
      rw [← hof] at hord heval
      constructor
      · intro i hi
        by_cases hik : i = k
        · rwa [hik]
        · exact hsound.ordered i (by omega)
      · intro i hi rest
        by_cases hik : i = k
        · rw [hik]
          exact heval rest
        · exact hsound.eval_eq i (by omega) rest

/-- The successors of a clause are in order. -/
theorem ordered_ofClause (progress : Progress) (clause : Clause) :
    (progress.ofClause clause).Ordered := by
  rcases List.eq_nil_or_concat clause with rfl | ⟨init, last, rfl⟩
  · exact Dnf.ordered_top
  · rw [ofClause, List.concat_eq_append, List.foldl_append]
    exact Dnf.ordered_and _ _

/-- Only which propositions hold matters in an event. -/
theorem ofStore_congr {event event' : Event} (h : ∀ p, p ∈ event ↔ p ∈ event')
    (store : Store) : ofStore store event = ofStore store event' := by
  have hc : ∀ p, event.contains p = event'.contains p := by
    intro p
    rw [Bool.eq_iff_iff, List.contains_iff_mem, List.contains_iff_mem]
    exact h p
  have hnode : ∀ (self : Nat) (known : Nat → Dnf) (node : Node),
      node.progress event self known = node.progress event' self known := by
    intro self known node
    cases node <;> simp only [Node.progress, hc]
  simp only [ofStore, hnode]

variable {store : Store} (hcl : store.Closed) (event : Event)
include hcl

/-- The obligations that a number leaves after an event mean what it denotes. -/
theorem eval_of (i : Nat) (rest : Trace) :
    ((ofStore store event).of i).eval (Obligation.met rest (store.holds rest)) =
      store.holds (event :: rest) i := by
  by_cases hi : i < store.size
  · exact (sound_ofStore hcl event).eval_eq i hi rest
  · have hsize := (ofStore_spec hcl event).1
    rw [of_of_size_le (by omega), Store.holds_of_size_le (by omega)]
    rfl

/-- A formula without temporal operators is decided by one event. -/
theorem exists_of_eq_of_isImmediate {i : Nat} {f : Nnf} (hf : Store.Denotes store i f)
    (himmediate : f.isImmediate = true) :
    ∃ value : Bool, (ofStore store event).of i = if value then .top else .bottom := by
  have hof := (ofStore_spec hcl event).2
  induction hf with
  | literal hi => exact ⟨_, hof _ (Roster.lt_size_of_get? hi) _ hi⟩
  | const hi => exact ⟨_, hof _ (Roster.lt_size_of_get? hi) _ hi⟩
  | or hi _ _ ihp ihq =>
      rw [Nnf.isImmediate, Bool.and_eq_true] at himmediate
      obtain ⟨v, hv⟩ := ihp himmediate.1
      obtain ⟨w, hw⟩ := ihq himmediate.2
      refine ⟨v || w, ?_⟩
      rw [hof _ (Roster.lt_size_of_get? hi) _ hi, Node.progress, hv, hw, Dnf.ite_or_ite]
  | and hi _ _ ihp ihq =>
      rw [Nnf.isImmediate, Bool.and_eq_true] at himmediate
      obtain ⟨v, hv⟩ := ihp himmediate.1
      obtain ⟨w, hw⟩ := ihq himmediate.2
      refine ⟨v && w, ?_⟩
      rw [hof _ (Roster.lt_size_of_get? hi) _ hi, Node.progress, hv, hw, Dnf.ite_and_ite]
  | «until» | release | next | weakNext => exact nomatch himmediate

/-- The successors of a clause hold on the rest exactly if the event and the rest meet all its
obligations. -/
theorem eval_ofClause (clause : Clause) (rest : Trace) :
    ((ofStore store event).ofClause clause).eval (Obligation.met rest (store.holds rest)) =
      clause.all (Obligation.met (event :: rest) (store.holds (event :: rest))) := by
  have hmet := Obligation.coherent_met rest (store.holds rest)
  suffices h : ∀ sofar : Dnf,
      (clause.foldl (fun sofar o => sofar.and ((ofStore store event).of o.formula)) sofar).eval
        (Obligation.met rest (store.holds rest)) =
      (sofar.eval (Obligation.met rest (store.holds rest)) &&
        clause.all (Obligation.met (event :: rest) (store.holds (event :: rest)))) by
    rw [ofClause, h, Dnf.eval_top, Bool.true_and]
  induction clause with
  | nil => simp
  | cons o clause ih =>
      intro sofar
      rw [List.foldl_cons, ih, Dnf.eval_and hmet, eval_of hcl, List.all_cons,
        Obligation.met_cons, Bool.and_assoc]

/-- A residual holds before an event exactly if its successor holds after it. -/
theorem eval_successor (residual : Dnf) (rest : Trace) :
    ((ofStore store event).successor residual).eval (Obligation.met rest (store.holds rest)) =
      residual.eval (Obligation.met (event :: rest) (store.holds (event :: rest))) := by
  have hmet := Obligation.coherent_met rest (store.holds rest)
  suffices h : ∀ (clauses : List Clause) (sofar : Dnf), sofar.Ordered →
      (clauses.foldl (fun sofar c => sofar.or ((ofStore store event).ofClause c)) sofar).eval
        (Obligation.met rest (store.holds rest)) =
      (sofar.eval (Obligation.met rest (store.holds rest)) ||
        clauses.any fun c =>
          c.all (Obligation.met (event :: rest) (store.holds (event :: rest)))) by
    rw [successor, h _ _ Dnf.ordered_bottom, Dnf.eval_bottom, Bool.false_or]
    rfl
  intro clauses
  induction clauses with
  | nil => simp
  | cons c clauses ih =>
      intro sofar hsofar
      have hc := ordered_ofClause (ofStore store event) c
      rw [List.foldl_cons, ih _ (hsofar.or hc), Dnf.eval_or hmet hsofar hc,
        eval_ofClause hcl event, List.any_cons, Bool.or_assoc]

end Progress

end ProcessLogic
