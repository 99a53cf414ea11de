import ProcessLogic.Proofs.Collection.Roster
import ProcessLogic.Search.BreadthFirst

/-!
# The invariant of a breadth-first search

At every moment the states found are those that their trails lead to, trails are no shorter
for states found later, and no state is further from the start than one letter more than the
state being treated. One visit keeps this, hence so does the treatment of a state.
-/

namespace ProcessLogic.Search

variable {σ κ : Type}

/-- The state that a word leads to, if the step is defined all along. -/
def walk (step : σ → κ → Option σ) (s : σ) (word : List κ) : Option σ := word.foldlM step s

@[simp] theorem walk_nil (step : σ → κ → Option σ) (s : σ) : walk step s [] = some s := rfl

@[simp] theorem walk_cons (step : σ → κ → Option σ) (s : σ) (l : κ) (word : List κ) :
    walk step s (l :: word) = (step s l).bind fun t => walk step t word := rfl

theorem walk_append (step : σ → κ → Option σ) (s : σ) (u v : List κ) :
    walk step s (u ++ v) = (walk step s u).bind fun t => walk step t v := by
  simp only [walk, List.foldlM_append]
  rfl

theorem walk_concat (step : σ → κ → Option σ) (s : σ) (u : List κ) (l : κ) :
    walk step s (u ++ [l]) = (walk step s u).bind fun t => step t l := by
  rw [walk_append]
  congr 1
  ext t
  simp

variable [BEq σ] [Hashable σ]

/-- The letters that first led to state number `i`, last letter first. -/
def trail (search : Search σ κ) (i : Nat) : List κ := search.trails.getD i []

/-- What holds at every moment of a search from `s₀`. -/
structure Valid (letters : List κ) (step : σ → κ → Option σ) (limit : Nat) (s₀ : σ)
    (search : Search σ κ) : Prop where
  wellFormed : search.found.WellFormed
  found_start : search.found.get? 0 = some s₀
  size_le : search.found.size ≤ max 1 limit
  trails_size : search.trails.size = search.found.size
  trail_start : search.trail 0 = []
  trail_mem : ∀ i, ∀ l ∈ search.trail i, l ∈ letters
  trail_leads : ∀ (i : Nat) (s : σ), search.found.get? i = some s →
    walk step s₀ (search.trail i).reverse = some s
  trail_le : ∀ i j : Nat, i ≤ j → j < search.found.size →
    (search.trail i).length ≤ (search.trail j).length
  move_sound : ∀ (i : Nat) (l : κ) (j : Nat), (i, l, j) ∈ search.moves → l ∈ letters ∧
    ∃ s t : σ, search.found.get? i = some s ∧ search.found.get? j = some t ∧ step s l = some t

/-- No state found is further than one letter from state number `k`. -/
def Near (k : Nat) (search : Search σ κ) : Prop :=
  ∀ j < search.found.size, (search.trail j).length ≤ (search.trail k).length + 1

/-- The move from state number `i` by the letter `l` has been recorded, if there is one. -/
def Covered (step : σ → κ → Option σ) (search : Search σ κ) (i : Nat) (l : κ) : Prop :=
  ∀ s t : σ, search.found.get? i = some s → step s l = some t →
    ∃ j, search.found.get? j = some t ∧ (i, l, j) ∈ search.moves ∧
      (search.trail j).length ≤ (search.trail i).length + 1

/-- `search'` is a later moment of `search`. -/
structure Grows (search search' : Search σ κ) : Prop where
  found : search.found.Extends search'.found
  trail : ∀ i < search.found.size, search'.trail i = search.trail i
  moves : ∀ move ∈ search.moves, move ∈ search'.moves

theorem Grows.refl (search : Search σ κ) : Grows search search :=
  ⟨.refl _, fun _ _ => rfl, fun _ h => h⟩

theorem Grows.trans {a b c : Search σ κ} (h : Grows a b) (h' : Grows b c) : Grows a c where
  found := h.found.trans h'.found
  trail i hi := (h'.trail i (Nat.lt_of_lt_of_le hi h.found.size_le)).trans (h.trail i hi)
  moves move hm := h'.moves move (h.moves move hm)

/-- A recorded move stays recorded. -/
theorem Covered.grows {step : σ → κ → Option σ} {search search' : Search σ κ} {i : Nat} {l : κ}
    (h : Covered step search i l) (hg : Grows search search') (hi : i < search.found.size) :
    Covered step search' i l := by
  intro s t hs ht
  obtain ⟨r, hr⟩ := Roster.exists_get?_of_lt hi
  have hrs : r = s := Option.some.inj ((hg.found i r hr).symm.trans hs)
  subst hrs
  obtain ⟨j, hj, hm, hl⟩ := h r t hr ht
  refine ⟨j, hg.found j t hj, hg.moves _ hm, ?_⟩
  rw [hg.trail j (Roster.lt_size_of_get? hj), hg.trail i hi]
  exact hl

/-- The search after a move to a state that is known. -/
def recorded (search : Search σ κ) (k : Nat) (l : κ) (j : Nat) : Search σ κ :=
  { search with moves := search.moves.push (k, l, j) }

/-- The search after a move to a new state. -/
def discovered (search : Search σ κ) (k : Nat) (l : κ) (t : σ) : Search σ κ where
  found := search.found.insert t
  trails := search.trails.push (l :: search.trail k)
  moves := search.moves.push (k, l, search.found.size)

/-- What one visit does: the target is known already, or there is room for it. -/
theorem visit_cases {limit k : Nat} {search search' : Search σ κ} {l : κ} {t : σ}
    (h : search.visit limit k l t = some search') :
    (∃ j, search.found.rank? t = some j ∧ search' = search.recorded k l j) ∨
    (search.found.rank? t = none ∧ search.found.size < limit ∧
      search' = search.discovered k l t) := by
  unfold visit at h
  cases hr : search.found.rank? t with
  | some j =>
      rw [hr] at h
      exact Or.inl ⟨j, rfl, (Option.some.inj h).symm⟩
  | none =>
      rw [hr] at h
      by_cases hlim : limit ≤ search.found.size
      · simp [hlim] at h
      · have hi : search.found.intern t = (search.found.size, search.found.insert t) := by
          rcases Roster.intern_cases search.found t with ⟨i, hi, _⟩ | ⟨_, he⟩
          · rw [hr] at hi
            exact absurd hi (by simp)
          · rw [Roster.insert, he]
        simp only [hlim, if_false, hi] at h
        exact Or.inr ⟨rfl, Nat.lt_of_not_le hlim, (Option.some.inj h).symm⟩

/-- A refused target is new, and there is no room for it. -/
theorem visit_eq_none {limit source : Nat} {search : Search σ κ} {l : κ} {target : σ}
    (h : search.visit limit source l target = none) :
    search.found.rank? target = none ∧ limit ≤ search.found.size := by
  unfold visit at h
  cases hr : search.found.rank? target with
  | some j => simp [hr] at h
  | none =>
      rw [hr] at h
      by_cases hlim : limit ≤ search.found.size
      · exact ⟨rfl, hlim⟩
      · simp [hlim] at h

section Rounds

variable {letters : List κ} {step : σ → κ → Option σ} {stop : σ → Bool}
  {limit fuel source : Nat} {search next : Search σ κ} {s t : σ} {l : κ}

/-- A letter without a move is passed over. -/
theorem expand_cons_of_eq_none (ht : step s l = none) :
    search.expand (l :: letters) step limit source s =
      search.expand letters step limit source s := by
  simp only [expand, List.foldlM_cons, ht]
  rfl

/-- A letter with a move visits its target before the other letters are tried. -/
theorem expand_cons_of_eq_some (ht : step s l = some t) :
    search.expand (l :: letters) step limit source s =
      (search.visit limit source l t).bind (expand letters step limit source s) := by
  simp only [expand, List.foldlM_cons, ht]
  rfl

/-- The search ends when all states found have been treated. -/
theorem runFrom_of_get?_eq_none (fuel : Nat) (hs : search.found.get? source = none) :
    runFrom letters step stop limit fuel source search = some (search, none) := by
  cases fuel with
  | zero => rfl
  | succ fuel => rw [runFrom, hs]

/-- The search ends at a state that is to stop it. -/
theorem runFrom_of_stop (hs : search.found.get? source = some s) (hstop : stop s = true) :
    runFrom letters step stop limit (fuel + 1) source search = some (search, some source) := by
  rw [runFrom, hs]
  exact if_pos hstop

/-- The search goes on with the next state after one has been expanded. -/
theorem runFrom_of_expand (hs : search.found.get? source = some s) (hstop : stop s = false)
    (he : search.expand letters step limit source s = some next) :
    runFrom letters step stop limit (fuel + 1) source search =
      runFrom letters step stop limit fuel (source + 1) next := by
  rw [runFrom, hs]
  simp only [hstop, Bool.false_eq_true, if_false, he]

/-- What one round of a search does: it ends as no state is left or at a state that is to stop it,
it is refused, or it goes on after all moves out of a state. -/
theorem runFrom_cases {outcome : Option (Search σ κ × Option Nat)}
    (h : runFrom letters step stop limit (fuel + 1) source search = outcome) :
    (search.found.get? source = none ∧ outcome = some (search, none)) ∨
    ∃ s, search.found.get? source = some s ∧
      ((stop s = true ∧ outcome = some (search, some source)) ∨
      (stop s = false ∧ search.expand letters step limit source s = none ∧ outcome = none) ∨
      ∃ next, stop s = false ∧ search.expand letters step limit source s = some next ∧
        runFrom letters step stop limit fuel (source + 1) next = outcome) := by
  cases hs : search.found.get? source with
  | none =>
      rw [runFrom_of_get?_eq_none _ hs] at h
      exact Or.inl ⟨rfl, h.symm⟩
  | some s =>
      refine Or.inr ⟨s, rfl, ?_⟩
      cases hstop : stop s with
      | true =>
          rw [runFrom_of_stop hs hstop] at h
          exact Or.inl ⟨rfl, h.symm⟩
      | false =>
          cases he : search.expand letters step limit source s with
          | none =>
              refine Or.inr (Or.inl ⟨rfl, rfl, ?_⟩)
              rw [← h, runFrom, hs]
              simp only [hstop, Bool.false_eq_true, if_false, he]
          | some next =>
              rw [runFrom_of_expand hs hstop he] at h
              exact Or.inr (Or.inr ⟨next, rfl, rfl, h⟩)

end Rounds

variable {letters : List κ} {step : σ → κ → Option σ} {limit : Nat} {s₀ : σ}

/-- A move between known states keeps the invariant. -/
theorem Valid.recorded {search : Search σ κ} {k j : Nat} {l : κ} {s t : σ}
    (hv : Valid letters step limit s₀ search) (hk : search.found.get? k = some s)
    (hj : search.found.get? j = some t) (hl : l ∈ letters) (ht : step s l = some t) :
    Valid letters step limit s₀ (search.recorded k l j) := by
  refine { hv with move_sound := ?_ }
  intro i l' j' hm
  rcases Array.mem_push.mp hm with hm | hm
  · exact hv.move_sound i l' j' hm
  · obtain ⟨rfl, rfl, rfl⟩ := hm
    exact ⟨hl, s, t, hk, hj, ht⟩

/-- The trails of a search that has found a new state. -/
theorem Valid.trail_discovered {search : Search σ κ} (hv : Valid letters step limit s₀ search)
    (k : Nat) (l : κ) (t : σ) (i : Nat) :
    (search.discovered k l t).trail i =
      if i = search.found.size then l :: search.trail k else search.trail i := by
  rw [← hv.trails_size]
  simp only [trail, discovered, Array.getD_eq_getD_getElem?, Array.getElem?_push]
  split <;> simp

/-- A new state leaves what has been found alone. -/
theorem Valid.grows_discovered {search : Search σ κ} (hv : Valid letters step limit s₀ search)
    (k : Nat) (l : κ) (t : σ) : Grows search (search.discovered k l t) where
  found := Roster.extends_intern _ _
  trail i hi := by rw [hv.trail_discovered, if_neg (Nat.ne_of_lt hi)]
  moves _ hm := Array.mem_push.mpr (Or.inl hm)

section Growth

variable [LawfulBEq σ]

theorem valid_start : Valid letters step limit s₀ (start s₀ : Search σ κ) := by
  have hf : (start s₀ : Search σ κ).found.toList = [s₀] := Roster.toList_ofList_singleton s₀
  have hz : (start s₀ : Search σ κ).found.size = 1 := by rw [← Roster.length_toList, hf]; rfl
  have hg : ∀ (i : Nat) (s : σ), (start s₀ : Search σ κ).found.get? i = some s →
      i = 0 ∧ s = s₀ := by
    intro i s hi
    have hlt := Roster.lt_size_of_get? hi
    obtain rfl : i = 0 := by omega
    rw [← Roster.getElem?_toList, hf] at hi
    exact ⟨rfl, (Option.some.inj hi).symm⟩
  have ht : ∀ i, (start s₀ : Search σ κ).trail i = [] := by
    intro i
    rcases i with _ | i <;> simp [trail, start]
  constructor
  case wellFormed => exact Roster.wellFormed_ofList [s₀]
  case found_start => rw [← Roster.getElem?_toList, hf]; rfl
  case size_le => omega
  case trails_size => exact hz.symm
  case trail_start => exact ht 0
  case trail_mem =>
      intro i l hl
      rw [ht] at hl
      exact absurd hl (by simp)
  case trail_leads =>
      intro i s hi
      obtain ⟨rfl, rfl⟩ := hg i s hi
      rw [ht]
      rfl
  case trail_le =>
      intro i j _ _
      exact Nat.le_of_eq (by rw [ht, ht])
  case move_sound =>
      intro i l j hm
      simp [start] at hm

/-- A new state that a letter leads to from one near the last keeps the invariant. -/
theorem Valid.discovered {search : Search σ κ} {k : Nat} {l : κ} {s t : σ}
    (hv : Valid letters step limit s₀ search) (hn : Near k search)
    (hk : search.found.get? k = some s) (hnew : search.found.rank? t = none)
    (hroom : search.found.size < limit) (hl : l ∈ letters) (ht : step s l = some t) :
    Valid letters step limit s₀ (search.discovered k l t) := by
  have hget := Roster.get?_insert_of_rank?_eq_none hnew
  have hsize : (search.discovered k l t).found.size = search.found.size + 1 :=
    Roster.size_insert_of_rank?_eq_none hnew
  have hg := hv.grows_discovered k l t
  have htrail := hv.trail_discovered k l t
  constructor
  case wellFormed => exact hv.wellFormed.insert t
  case found_start => exact hg.found 0 s₀ hv.found_start
  case size_le => omega
  case trails_size => rw [hsize, ← hv.trails_size]; exact Array.size_push _
  case trail_start => rw [hg.trail 0 (Roster.lt_size_of_get? hv.found_start), hv.trail_start]
  case trail_mem =>
      intro i l' hl'
      rw [htrail] at hl'
      split at hl'
      · rcases List.mem_cons.mp hl' with rfl | hl'
        · exact hl
        · exact hv.trail_mem k l' hl'
      · exact hv.trail_mem i l' hl'
  case trail_leads =>
      intro i r hi
      rw [htrail]
      rw [show (search.discovered k l t).found.get? i = _ from hget i] at hi
      split at hi
      · obtain rfl := Option.some.inj hi
        rw [if_pos ‹_›, List.reverse_cons, walk_concat, hv.trail_leads k s hk]
        exact ht
      · rw [if_neg ‹_›]
        exact hv.trail_leads i r hi
  case trail_le =>
      intro i j hij hj
      rw [htrail, htrail]
      by_cases hjn : j = search.found.size
      · by_cases hin : i = search.found.size
        · simp [hin, hjn]
        · rw [if_neg hin, if_pos hjn]
          exact hn i (by omega)
      · rw [if_neg (by omega), if_neg hjn]
        exact hv.trail_le i j hij (by omega)
  case move_sound =>
      intro i l' j hm
      rcases Array.mem_push.mp hm with hm | hm
      · obtain ⟨hl', r, r', hr, hr', hstep⟩ := hv.move_sound i l' j hm
        exact ⟨hl', r, r', hg.found i r hr, hg.found j r' hr', hstep⟩
      · obtain ⟨rfl, rfl, rfl⟩ := hm
        exact ⟨hl, s, t, hg.found k s hk, (hget _).trans (if_pos rfl), ht⟩

/-- A visit by a letter of the alphabet keeps the invariant and records the move. -/
theorem visit_spec {search search' : Search σ κ} {k : Nat} {l : κ} {s t : σ}
    (hv : Valid letters step limit s₀ search) (hn : Near k search)
    (hk : search.found.get? k = some s) (hl : l ∈ letters) (ht : step s l = some t)
    (h : search.visit limit k l t = some search') :
    Valid letters step limit s₀ search' ∧ Grows search search' ∧ Near k search' ∧
      Covered step search' k l := by
  have hks : k < search.found.size := Roster.lt_size_of_get? hk
  rcases visit_cases h with ⟨j, hj, rfl⟩ | ⟨hnew, hroom, rfl⟩
  · have hjt : search.found.get? j = some t := hv.wellFormed.rank?_eq_some_iff.mp hj
    refine ⟨hv.recorded hk hjt hl ht, ⟨.refl _, fun _ _ => rfl, ?_⟩, hn, ?_⟩
    · intro move hm
      exact Array.mem_push.mpr (Or.inl hm)
    · intro s' t' hs' ht'
      obtain rfl := Option.some.inj (hk.symm.trans hs')
      obtain rfl := Option.some.inj (ht.symm.trans ht')
      exact ⟨j, hjt, Array.mem_push_self, hn j (Roster.lt_size_of_get? hjt)⟩
  · have hg := hv.grows_discovered k l t
    have htrail := hv.trail_discovered k l t
    have hsize : (search.discovered k l t).found.size = search.found.size + 1 :=
      Roster.size_insert_of_rank?_eq_none hnew
    refine ⟨hv.discovered hn hk hnew hroom hl ht, hg, ?_, ?_⟩
    · intro j hj
      rw [hg.trail k hks, htrail]
      split
      · exact Nat.le_refl _
      · exact hn j (by omega)
    · intro s' t' hs' ht'
      obtain rfl := Option.some.inj ((hg.found k s hk).symm.trans hs')
      obtain rfl := Option.some.inj (ht.symm.trans ht')
      refine ⟨search.found.size, ?_, Array.mem_push_self, ?_⟩
      · exact (Roster.get?_insert_of_rank?_eq_none hnew _).trans (if_pos rfl)
      · rw [hg.trail k hks, htrail, if_pos rfl]
        exact Nat.le_refl _

/-- Trying some letters at the state of number `k` keeps the invariant and records all moves
by these letters. -/
theorem expand_spec {k : Nat} {s : σ} {ls : List κ} (hls : ∀ l ∈ ls, l ∈ letters)
    {search search' : Search σ κ} (hv : Valid letters step limit s₀ search)
    (hn : Near k search) (hk : search.found.get? k = some s)
    (h : search.expand ls step limit k s = some search') :
    Valid letters step limit s₀ search' ∧ Grows search search' ∧ Near k search' ∧
      ∀ l ∈ ls, Covered step search' k l := by
  induction ls generalizing search with
  | nil =>
      obtain rfl : search = search' := Option.some.inj h
      exact ⟨hv, .refl _, hn, by simp⟩
  | cons l ls ih =>
      have hl : l ∈ letters := hls l List.mem_cons_self
      have hls' : ∀ l' ∈ ls, l' ∈ letters := fun l' hl' => hls l' (List.mem_cons_of_mem l hl')
      cases ht : step s l with
      | none =>
          rw [expand_cons_of_eq_none ht] at h
          obtain ⟨hv', hg', hn', hc'⟩ := ih hls' hv hn hk h
          refine ⟨hv', hg', hn', ?_⟩
          intro l' hl'
          rcases List.mem_cons.mp hl' with rfl | hl'
          · intro s' t' hs' ht'
            obtain rfl := Option.some.inj ((hg'.found k s hk).symm.trans hs')
            rw [ht] at ht'
            exact absurd ht' (by simp)
          · exact hc' l' hl'
      | some t =>
          rw [expand_cons_of_eq_some ht] at h
          obtain ⟨next, hnext, hrest⟩ := Option.bind_eq_some_iff.mp h
          obtain ⟨hv₁, hg₁, hn₁, hc₁⟩ := visit_spec hv hn hk hl ht hnext
          obtain ⟨hv', hg', hn', hc'⟩ := ih hls' hv₁ hn₁ (hg₁.found k s hk) hrest
          refine ⟨hv', hg₁.trans hg', hn', ?_⟩
          intro l' hl'
          rcases List.mem_cons.mp hl' with rfl | hl'
          · exact hc₁.grows hg' (Roster.lt_size_of_get? (hg₁.found k s hk))
          · exact hc' l' hl'

end Growth

end ProcessLogic.Search
