import ProcessLogic.Proofs.Residual.Progression
import ProcessLogic.Proofs.Residual.Subformulas

/-!
# Equal formulas share a number

Whatever is listed in a roster one thing after another, the numbers that the calls return stand for
what was listed, then and after all later calls. So the numbers of stored formulas can be compared
in place of the formulas, and since parts are stored before the whole, a value that a node computes
from the values of its parts is computed from those of smaller numbers.
-/

namespace ProcessLogic

namespace Roster

variable {α β : Type} [BEq α] [Hashable α]

/-- Calls that list things one after another: the numbers that they return, and the roster after the
last of them. -/
def inTurn (call : Roster α → β → Nat × Roster α) (r : Roster α) : List β → List Nat × Roster α
  | [] => ([], r)
  | b :: bs =>
    let (number, r) := call r b
    let (numbers, r) := inTurn call r bs
    (number :: numbers, r)

/-- What one call does and later calls do not undo, a sequence of calls does. -/
theorem inTurn_spec {call : Roster α → β → Nat × Roster α} {Valid : Roster α → Prop}
    {Stands : Roster α → Nat → β → Prop}
    (hcall : ∀ r b, Valid r →
      Valid (call r b).2 ∧ r.Extends (call r b).2 ∧ Stands (call r b).2 (call r b).1 b)
    (hkeep : ∀ r s i b, r.Extends s → Stands r i b → Stands s i b) {r : Roster α} (h : Valid r)
    (bs : List β) :
    Valid (inTurn call r bs).2 ∧ r.Extends (inTurn call r bs).2 ∧
      List.Forall₂ (Stands (inTurn call r bs).2) (inTurn call r bs).1 bs := by
  induction bs generalizing r with
  | nil => exact ⟨h, Extends.refl r, .nil⟩
  | cons b bs ih =>
      obtain ⟨hvalid, hextends, hstands⟩ := hcall r b h
      obtain ⟨hlast, hgrows, hrest⟩ := ih hvalid
      exact ⟨hlast, hextends.trans hgrows, .cons (hkeep _ _ _ _ hgrows hstands) hrest⟩

/-- Items listed in turn stand at the places that are returned for them. -/
theorem WellFormed.inTurn_intern [LawfulBEq α] {r : Roster α} (h : r.WellFormed) (items : List α) :
    (inTurn Roster.intern r items).2.WellFormed ∧
      r.Extends (inTurn Roster.intern r items).2 ∧
      List.Forall₂ (fun i a => (inTurn Roster.intern r items).2.get? i = some a)
        (inTurn Roster.intern r items).1 items := by
  refine inTurn_spec ?_ (fun _ _ i a he hi => he i a hi) h items
  exact fun r a hr => ⟨hr.intern a, extends_intern r a, hr.get?_intern a⟩

end Roster

/-- If partners determine each other, then partners stand at equal places. -/
theorem getElem?_eq_iff_of_forall₂ {α β : Type} {R : α → β → Prop}
    (hR : ∀ a b a' b', R a b → R a' b' → (a = a' ↔ b = b')) {as : List α} {bs : List β}
    (h : List.Forall₂ R as bs) (k l : Nat) : as[k]? = as[l]? ↔ bs[k]? = bs[l]? := by
  have hplace : ∀ k : Nat, (as[k]? = none ∧ bs[k]? = none) ∨
      ∃ a b, as[k]? = some a ∧ bs[k]? = some b ∧ R a b := by
    intro k
    induction h generalizing k with
    | nil => exact .inl ⟨rfl, rfl⟩
    | cons hab _ ih =>
        cases k with
        | zero => exact .inr ⟨_, _, rfl, rfl, hab⟩
        | succ k => exact ih k
  rcases hplace k with ⟨hk, hk'⟩ | ⟨a, b, hk, hk', hab⟩ <;>
    rcases hplace l with ⟨hl, hl'⟩ | ⟨a', b', hl, hl', hab'⟩ <;>
    simp [hk, hk', hl, hl']
  exact hR a b a' b' hab hab'

namespace Store

variable {store : Store} {i j : Nat} {f g : Nnf}

/-- Formulas stored in turn are denoted by the numbers that are returned for them. -/
theorem Closed.inTurn_intern (h : Closed store) (fs : List Nnf) :
    Closed (Roster.inTurn intern store fs).2 ∧
      Roster.Extends store (Roster.inTurn intern store fs).2 ∧
      List.Forall₂ (Denotes (Roster.inTurn intern store fs).2)
        (Roster.inTurn intern store fs).1 fs := by
  refine Roster.inTurn_spec ?_ (fun _ _ _ _ he hden => hden.extends he) h fs
  intro store f hcl
  obtain ⟨hclosed, hgrows, hdenotes⟩ := interned_intern hcl f
  exact ⟨hclosed, hgrows, hdenotes⟩

/-- In a closed store formulas are equal exactly if their numbers are. -/
theorem Denotes.number_eq_iff (hcl : Closed store) (hi : Denotes store i f)
    (hj : Denotes store j g) : i = j ↔ f = g := by
  constructor
  · rintro rfl
    exact hi.unique hj
  · rintro rfl
    exact hi.number_unique hcl.wellFormed hj

/-- A recursion over a store by which a node asks for the values of smaller numbers only: what the
nodes demand has one solution on the stored numbers, and `result` is it. -/
structure RecursesDown {α : Type} (store : Store) (value : Nat → (Nat → α) → Node → α)
    (result : Nat → α) : Prop where
  asks_smaller : ∀ i node, store.get? i = some node → ∀ known known' : Nat → α,
    (∀ j < i, known j = known' j) → value i known node = value i known' node
  solves_iff : ∀ known, store.Solves value known ↔ ∀ i < store.size, known i = result i

/-- One pass over a closed store solves any recursion over the parts of nodes. -/
theorem Closed.recursesDown {α : Type} {value : Nat → (Nat → α) → Node → α} (h : Closed store)
    (hvalue : OfParts value) (unknown : α) :
    RecursesDown store value fun i => (store.pass unknown value).getD i unknown where
  asks_smaller i node hi known known' heq :=
    hvalue i known known' node fun j hj => heq j (h.child_lt i node hi j hj)
  solves_iff _ := h.solves_iff hvalue unknown

/-- Progress is such a recursion. -/
theorem Closed.recursesDown_progress (h : Closed store) (event : Event) :
    RecursesDown store (Node.progress event) (Progress.ofStore store event).of :=
  have hparts : OfParts (Node.progress event) := fun _ _ _ _ => Node.progress_congr
  h.recursesDown hparts .bottom

/-- So is the value on the empty trace. -/
theorem Closed.recursesDown_holdsOnEmpty (h : Closed store) :
    RecursesDown store (fun _ => Node.holdsOnEmpty) store.holdsOnEmpty :=
  have hparts : OfParts fun _ => Node.holdsOnEmpty := fun _ _ _ _ => Node.holdsOnEmpty_congr
  h.recursesDown hparts false

/-- Listing items one after another, from nothing, lists no item twice; the index is the inverse of
the list; every number returned stands for its item, and all calls that follow leave this so. Of
formulas stored one after another every number returned denotes its formula and no other, equal
numbers are those of equal formulas, and a node refers to smaller numbers. So progression and the
truth on the empty trace are recursions that end. -/
theorem interning_faithful :
    (∀ {α : Type} [BEq α] [LawfulBEq α] [Hashable α] (items later : List α),
      let run := Roster.inTurn Roster.intern {} items
      run.2.toList.Nodup ∧ (∀ i a, run.2.rank? a = some i ↔ run.2.get? i = some a) ∧
      List.Forall₂ (fun i a => run.2.get? i = some a) run.1 items ∧
      run.2.Extends (Roster.inTurn Roster.intern run.2 later).2) ∧
    ∀ fs later : List Nnf,
      let run := Roster.inTurn intern {} fs
      List.Forall₂ (fun i f => ∀ g, Denotes run.2 i g ↔ g = f) run.1 fs ∧
      (∀ k l : Nat, run.1[k]? = run.1[l]? ↔ fs[k]? = fs[l]?) ∧
      (∀ i f, Denotes run.2 i f → Denotes (Roster.inTurn intern run.2 later).2 i f) ∧
      (∀ i node, run.2.get? i = some node → ∀ j ∈ node.children, j < i) ∧
      (∀ event, RecursesDown run.2 (Node.progress event) (Progress.ofStore run.2 event).of) ∧
      RecursesDown run.2 (fun _ => Node.holdsOnEmpty) (holdsOnEmpty run.2) := by
  refine ⟨fun items later => ?_, fun fs later => ?_⟩
  · intro run
    obtain ⟨hvalid, -, hstands⟩ := Roster.wellFormed_empty.inTurn_intern items
    exact ⟨hvalid.nodup, fun _ _ => hvalid.rank?_eq_some_iff, hstands,
      (hvalid.inTurn_intern later).2.1⟩
  · intro run
    obtain ⟨hcl, -, hdenotes⟩ := closed_empty.inTurn_intern fs
    refine ⟨hdenotes.imp fun i f hi g => ?_, ?_, fun i f hi => ?_, hcl.child_lt,
      fun event => ?_, ?_⟩
    · exact ⟨fun hg => hg.unique hi, fun hg => hg ▸ hi⟩
    · exact getElem?_eq_iff_of_forall₂ (fun _ _ _ _ hi hj => hi.number_eq_iff hcl hj) hdenotes
    · exact hi.extends (hcl.inTurn_intern later).2.1
    · exact hcl.recursesDown_progress event
    · exact hcl.recursesDown_holdsOnEmpty

/-- Of `X a`, `a` and `X a` the part is stored first: the numbers are 1, 0 and 1 again, and 1 keeps
denoting `X a` whatever is stored next. -/
theorem interning_faithful_shared :
    let run := Roster.inTurn intern {}
      [.next (.literal false "a"), .literal false "a", .next (.literal false "a")]
    run.1 = [1, 0, 1] ∧ (∀ g, Denotes run.2 1 g ↔ g = .next (.literal false "a")) ∧
      (∀ later, Denotes (Roster.inTurn intern run.2 later).2 1 (.next (.literal false "a"))) ∧
      (Roster.inTurn Roster.intern {} ["a", "b", "a"]).2.toList.Nodup := by
  have hnumbers : (Roster.inTurn intern {}
      [.next (.literal false "a"), .literal false "a", .next (.literal false "a")]).1 =
        [1, 0, 1] := by cbv
  obtain ⟨hitems, hformulas⟩ := interning_faithful
  intro run
  have hall : List.Forall₂ (fun i f => ∀ g, Denotes run.2 i g ↔ g = f) run.1
      [.next (.literal false "a"), .literal false "a", .next (.literal false "a")] :=
    (hformulas _ []).1
  rw [show run.1 = _ from hnumbers] at hall
  have hdenotes := (List.forall₂_cons.mp hall).1
  refine ⟨hnumbers, hdenotes, fun later => ?_, (hitems ["a", "b", "a"] []).1⟩
  obtain ⟨-, -, hkeep, -⟩ := hformulas _ later
  exact hkeep 1 _ ((hdenotes _).mpr rfl)

end Store

end ProcessLogic
