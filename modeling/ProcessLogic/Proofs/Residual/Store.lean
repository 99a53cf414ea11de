import ProcessLogic.Proofs.Collection.Roster
import ProcessLogic.Residual.Store

/-!
# Stored formulas can be read back

A store is closed if every node refers to smaller numbers. Interning a formula keeps the store
closed, keeps what every number denotes, and returns a number that denotes the formula. In
a closed store every number denotes exactly one formula. Values that nodes get from the values of
their parts are determined by the store, and one pass over it computes them.
-/

namespace ProcessLogic

/-- The numbers that a node refers to. -/
def Node.children : Node → List Nat
  | .literal .. => []
  | .const _ => []
  | .until i j => [i, j]
  | .release i j => [i, j]
  | .or i j => [i, j]
  | .and i j => [i, j]
  | .next i => [i]
  | .weakNext i => [i]

namespace Store

variable {store store' : Store}

/-- Nodes are stored once and refer to smaller numbers only. -/
structure Closed (store : Store) : Prop where
  wellFormed : store.WellFormed
  child_lt : ∀ (i : Nat) (node : Node), store.get? i = some node → ∀ j ∈ node.children, j < i

theorem closed_empty : Closed {} where
  wellFormed := Roster.wellFormed_empty
  child_lt i node h := by simp [Roster.get?] at h

/-- A node whose parts are stored can be stored. -/
theorem Closed.intern_node (h : Closed store) {node : Node}
    (hc : ∀ j ∈ node.children, j < store.size) : Closed (Roster.intern store node).2 where
  wellFormed := h.wellFormed.intern node
  child_lt i other ho j hj := by
    rcases Roster.get?_intern_cases ho with hold | ⟨-, rfl, rfl⟩
    · exact h.child_lt i other hold j hj
    · exact hc j hj

/-- Only stored numbers denote. -/
theorem Denotes.lt_size {i : Nat} {f : Nnf} (h : Denotes store i f) : i < store.size := by
  cases h <;> exact Roster.lt_size_of_get? ‹_›

/-- A number keeps what it denotes when the store grows. -/
theorem Denotes.extends {i : Nat} {f : Nnf} (h : Denotes store i f)
    (he : Roster.Extends store store') : Denotes store' i f := by
  induction h with
  | literal hi => exact .literal (he _ _ hi)
  | const hi => exact .const (he _ _ hi)
  | «until» hi _ _ ihp ihq => exact .until (he _ _ hi) ihp ihq
  | release hi _ _ ihp ihq => exact .release (he _ _ hi) ihp ihq
  | or hi _ _ ihp ihq => exact .or (he _ _ hi) ihp ihq
  | and hi _ _ ihp ihq => exact .and (he _ _ hi) ihp ihq
  | next hi _ ih => exact .next (he _ _ hi) ih
  | weakNext hi _ ih => exact .weakNext (he _ _ hi) ih

/-- A number denotes at most one formula. -/
theorem Denotes.unique {i : Nat} {f g : Nnf} (hf : Denotes store i f) (hg : Denotes store i g) :
    f = g := by
  induction hf generalizing g with
  | literal hi => cases hg <;> simp_all
  | const hi => cases hg <;> simp_all
  | «until» hi _ _ ihp ihq => cases hg <;> grind
  | release hi _ _ ihp ihq => cases hg <;> grind
  | or hi _ _ ihp ihq => cases hg <;> grind
  | and hi _ _ ihp ihq => cases hg <;> grind
  | next hi _ ih => cases hg <;> grind
  | weakNext hi _ ih => cases hg <;> grind

/-- Every number of a closed store denotes a formula. -/
theorem Closed.exists_denotes (h : Closed store) {i : Nat} (hi : i < store.size) :
    ∃ f, Denotes store i f := by
  induction i using Nat.strongRecOn with
  | ind i ih =>
      obtain ⟨node, hn⟩ := Roster.exists_get?_of_lt hi
      have hchild : ∀ j ∈ node.children, ∃ f, Denotes store j f := by
        intro j hj
        have hji := h.child_lt i node hn j hj
        exact ih j hji (by omega)
      cases node with
      | literal negated name => exact ⟨_, .literal hn⟩
      | const value => exact ⟨_, .const hn⟩
      | «until» j k =>
          obtain ⟨p, hp⟩ := hchild j (by simp [Node.children])
          obtain ⟨q, hq⟩ := hchild k (by simp [Node.children])
          exact ⟨_, .until hn hp hq⟩
      | release j k =>
          obtain ⟨p, hp⟩ := hchild j (by simp [Node.children])
          obtain ⟨q, hq⟩ := hchild k (by simp [Node.children])
          exact ⟨_, .release hn hp hq⟩
      | or j k =>
          obtain ⟨p, hp⟩ := hchild j (by simp [Node.children])
          obtain ⟨q, hq⟩ := hchild k (by simp [Node.children])
          exact ⟨_, .or hn hp hq⟩
      | and j k =>
          obtain ⟨p, hp⟩ := hchild j (by simp [Node.children])
          obtain ⟨q, hq⟩ := hchild k (by simp [Node.children])
          exact ⟨_, .and hn hp hq⟩
      | next j =>
          obtain ⟨p, hp⟩ := hchild j (by simp [Node.children])
          exact ⟨_, .next hn hp⟩
      | weakNext j =>
          obtain ⟨p, hp⟩ := hchild j (by simp [Node.children])
          exact ⟨_, .weakNext hn hp⟩

/-- What interning a formula gives: a larger closed store in which the number returned denotes
the formula. -/
structure Interned (store : Store) (f : Nnf) (result : Nat × Store) : Prop where
  closed : Closed result.2
  grows : Roster.Extends store result.2
  denotes : Denotes result.2 result.1 f

/-- Storing one node over stored parts. -/
theorem Closed.interned_node (h : Closed store) {node : Node} {f : Nnf}
    (hc : ∀ j ∈ node.children, j < store.size)
    (hd : ∀ store' : Store, ∀ i, Roster.Extends store store' → store'.get? i = some node →
      Denotes store' i f) : Interned store f (Roster.intern store node) where
  closed := h.intern_node hc
  grows := Roster.extends_intern store node
  denotes := hd _ _ (Roster.extends_intern store node) (h.wellFormed.get?_intern node)

/-- A node with two parts, which are stored first. -/
theorem interned_binary {p q f : Nnf} {node : Nat → Nat → Node}
    (hp : Interned store p (intern store p))
    (hq : Interned (intern store p).2 q (intern (intern store p).2 q))
    (hchildren : ∀ i j, (node i j).children = [i, j])
    (hd : ∀ store' : Store, ∀ i j k, store'.get? i = some (node j k) → Denotes store' j p →
      Denotes store' k q → Denotes store' i f) :
    Interned store f (Roster.intern (intern (intern store p).2 q).2
      (node (intern store p).1 (intern (intern store p).2 q).1)) := by
  have hp' := hp.denotes.extends hq.grows
  have hstored : ∀ j ∈ (node (intern store p).1 (intern (intern store p).2 q).1).children,
      j < (intern (intern store p).2 q).2.size := by
    intro j hj
    rw [hchildren] at hj
    rcases List.mem_cons.mp hj with rfl | hj
    · exact hp'.lt_size
    · rw [List.mem_singleton.mp hj]
      exact hq.denotes.lt_size
  obtain ⟨hcl, hgr, hden⟩ := hq.closed.interned_node (f := f) hstored
    (fun store' i he hi => hd store' i _ _ hi (hp'.extends he) (hq.denotes.extends he))
  exact ⟨hcl, (hp.grows.trans hq.grows).trans hgr, hden⟩

/-- A node with one part, which is stored first. -/
theorem interned_unary {p f : Nnf} {node : Nat → Node}
    (hp : Interned store p (intern store p)) (hchildren : ∀ i, (node i).children = [i])
    (hd : ∀ store' : Store, ∀ i j, store'.get? i = some (node j) → Denotes store' j p →
      Denotes store' i f) :
    Interned store f (Roster.intern (intern store p).2 (node (intern store p).1)) := by
  have hstored : ∀ j ∈ (node (intern store p).1).children, j < (intern store p).2.size := by
    intro j hj
    rw [hchildren, List.mem_singleton] at hj
    rw [hj]
    exact hp.denotes.lt_size
  obtain ⟨hcl, hgr, hden⟩ := hp.closed.interned_node (f := f) hstored
    (fun store' i he hi => hd store' i _ hi (hp.denotes.extends he))
  exact ⟨hcl, hp.grows.trans hgr, hden⟩

/-- Interning a formula stores it. -/
theorem interned_intern (h : Closed store) (f : Nnf) : Interned store f (intern store f) := by
  induction f generalizing store with
  | literal negated name =>
      exact h.interned_node (by simp [Node.children]) fun _ _ _ hi => .literal hi
  | const value => exact h.interned_node (by simp [Node.children]) fun _ _ _ hi => .const hi
  | «until» p q ihp ihq =>
      exact interned_binary (ihp h) (ihq (ihp h).closed) (fun _ _ => rfl)
        fun _ _ _ _ hi hp hq => .until hi hp hq
  | release p q ihp ihq =>
      exact interned_binary (ihp h) (ihq (ihp h).closed) (fun _ _ => rfl)
        fun _ _ _ _ hi hp hq => .release hi hp hq
  | or p q ihp ihq =>
      exact interned_binary (ihp h) (ihq (ihp h).closed) (fun _ _ => rfl)
        fun _ _ _ _ hi hp hq => .or hi hp hq
  | and p q ihp ihq =>
      exact interned_binary (ihp h) (ihq (ihp h).closed) (fun _ _ => rfl)
        fun _ _ _ _ hi hp hq => .and hi hp hq
  | next p ih =>
      exact interned_unary (ih h) (fun _ => rfl) fun _ _ _ hi hp => .next hi hp
  | weakNext p ih =>
      exact interned_unary (ih h) (fun _ => rfl) fun _ _ _ hi hp => .weakNext hi hp

section Pass

variable {α : Type} {value : Nat → (Nat → α) → Node → α} {known : Nat → α}

/-- The value of a node depends on the values of its parts only. -/
def OfParts (value : Nat → (Nat → α) → Node → α) : Prop :=
  ∀ (self : Nat) (known known' : Nat → α) (node : Node),
    (∀ j ∈ node.children, known j = known' j) → value self known node = value self known' node

/-- Every stored number has the value that its node demands. -/
def Solves (store : Store) (value : Nat → (Nat → α) → Node → α) (known : Nat → α) : Prop :=
  ∀ (i : Nat) (node : Node), store.get? i = some node → known i = value i known node

/-- One pass gives every stored number the value that its node demands. -/
theorem Closed.solves_pass (h : Closed store) (hvalue : OfParts value) (unknown : α) :
    (store.pass unknown value).size = store.size ∧
      store.Solves value fun i => (store.pass unknown value).getD i unknown := by
  suffices hpass : (store.pass unknown value).size = store.size ∧ ∀ i < store.size,
      ∀ node, store.get? i = some node → (store.pass unknown value).getD i unknown =
        value i (fun j => (store.pass unknown value).getD j unknown) node from
    ⟨hpass.1, fun i node hi => hpass.2 i (Roster.lt_size_of_get? hi) node hi⟩
  refine Array.foldl_induction
    (fun k (known : Array α) => known.size = k ∧ ∀ i < k, ∀ node, store.get? i = some node →
      known.getD i unknown = value i (fun j => known.getD j unknown) node) ?_ ?_
  · exact ⟨rfl, fun i hi => absurd hi (Nat.not_lt_zero i)⟩
  · rintro k known ⟨hsize, hknown⟩
    have hk : store.get? k = some store.items[k] := Array.getElem?_eq_getElem k.isLt
    generalize store.items[k] = new at hk
    have hold : ∀ (d : α) (j : Nat), j < k →
        (known.push d).getD j unknown = known.getD j unknown := by
      intro d j hj
      simp [Array.getD_eq_getD_getElem?, Array.getElem?_push, hsize, Nat.ne_of_lt hj]
    refine ⟨by rw [Array.size_push, hsize], fun i hi node hnode => ?_⟩
    -- the parts of a node had their values before, so the last step does not change them
    have hparts : ∀ d, ∀ j ∈ node.children, known.getD j unknown = (known.push d).getD j unknown :=
      fun d j hj => (hold d j (by have := h.child_lt i node hnode j hj; omega)).symm
    rw [← hvalue i _ _ node (hparts _)]
    by_cases hik : i = k
    · subst hik
      obtain rfl := Option.some.inj (hk.symm.trans hnode)
      simp [Array.getD_eq_getD_getElem?, ← hsize]
    · rw [hold _ i (by omega)]
      exact hknown i (by omega) node hnode

/-- The demands of the nodes have exactly one solution on the stored numbers. -/
theorem Closed.solves_iff (h : Closed store) (hvalue : OfParts value) (unknown : α) :
    store.Solves value known ↔
      ∀ i < store.size, known i = (store.pass unknown value).getD i unknown := by
  obtain ⟨-, hpass⟩ := h.solves_pass hvalue unknown
  constructor
  · intro hknown i
    induction i using Nat.strongRecOn with
    | ind i ih =>
        intro hi
        obtain ⟨node, hnode⟩ := Roster.exists_get?_of_lt hi
        have hparts : ∀ j ∈ node.children,
            known j = (store.pass unknown value).getD j unknown := by
          intro j hj
          have hji := h.child_lt i node hnode j hj
          exact ih j hji (Nat.lt_trans hji hi)
        rw [hknown i node hnode, hvalue i _ _ node hparts]
        exact (hpass i node hnode).symm
  · intro hknown i node hnode
    have hi := Roster.lt_size_of_get? hnode
    have hparts : ∀ j ∈ node.children,
        (store.pass unknown value).getD j unknown = known j :=
      fun j hj => (hknown j (Nat.lt_trans (h.child_lt i node hnode j hj) hi)).symm
    exact (hknown i hi).trans ((hpass i node hnode).trans (hvalue i _ _ node hparts))

end Pass

end Store

end ProcessLogic
