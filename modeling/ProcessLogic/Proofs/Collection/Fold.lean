/-!
# Folds and maps that may fail

A fold in `Except` keeps an invariant that speaks of the items treated so far if every step
does, and it succeeds if no step fails where the invariant holds. A map in `Except` succeeds if
it does on every item, and otherwise fails as it does on the first item where it fails.
-/

namespace ProcessLogic.Fold

variable {ε α β : Type} {f : β → α → Except ε β}

/-- A computation that goes on after a first one succeeds exactly if both parts do. -/
theorem bind_eq_ok_iff {x : Except ε α} {g : α → Except ε β} {b : β} :
    x >>= g = .ok b ↔ ∃ a, x = .ok a ∧ g a = .ok b := by
  cases x with
  | error e => simp [bind, Except.bind]
  | ok a => simp [bind, Except.bind]

/-- A change of errors leaves results alone. -/
theorem mapError_eq_ok_iff {ε' : Type} {x : Except ε α} {g : ε → ε'} {a : α} :
    x.mapError g = .ok a ↔ x = .ok a := by
  constructor
  · intro h
    cases x with
    | error e => cases h
    | ok b =>
        cases h
        rfl
  · rintro rfl
    rfl

/-- After a change of errors every error comes from one before it. -/
theorem mapError_eq_error_iff {ε' : Type} {x : Except ε α} {g : ε → ε'} {e' : ε'} :
    x.mapError g = .error e' ↔ ∃ e, x = .error e ∧ g e = e' := by
  constructor
  · intro h
    cases x with
    | error e => exact ⟨e, rfl, Except.error.inj h⟩
    | ok a => cases h
  · rintro ⟨e, rfl, rfl⟩
    rfl

/-- A fold over a list succeeds exactly if its first step does, and the rest from there. -/
theorem foldlM_cons_ok_iff {a : α} {as : List α} {b r : β} :
    (a :: as).foldlM f b = .ok r ↔ ∃ b', f b a = .ok b' ∧ as.foldlM f b' = .ok r := by
  rw [List.foldlM_cons]
  exact bind_eq_ok_iff

/-- What every step of a fold keeps holds of its result. -/
theorem invariant_foldlM {P : List α → β → Prop}
    (hstep : ∀ (done : List α) (a : α) (b b' : β), P done b → f b a = .ok b' → P (done ++ [a]) b')
    {done as : List α} {b r : β} (hb : P done b) (h : as.foldlM f b = .ok r) :
    P (done ++ as) r := by
  induction as generalizing done b with
  | nil =>
      obtain rfl := Except.ok.inj h
      rw [List.append_nil]
      exact hb
  | cons a as ih =>
      obtain ⟨b', hb', hr⟩ := foldlM_cons_ok_iff.mp h
      have := ih (hstep done a b b' hb hb') hr
      rwa [List.append_assoc] at this

/-- A fold none of whose steps fails succeeds. -/
theorem exists_foldlM {P : List α → β → Prop} (done : List α) {as : List α}
    (hstep : ∀ (before : List α) (a : α) (after : List α) (b : β),
      done ++ as = before ++ a :: after → P before b →
      ∃ b', f b a = .ok b' ∧ P (before ++ [a]) b')
    {b : β} (hb : P done b) : ∃ r, as.foldlM f b = .ok r ∧ P (done ++ as) r := by
  induction as generalizing done b with
  | nil => exact ⟨b, rfl, by rwa [List.append_nil]⟩
  | cons a as ih =>
      obtain ⟨b', hf, hb'⟩ := hstep done a as b rfl hb
      have hcons : done ++ a :: as = (done ++ [a]) ++ as := by simp
      rw [hcons] at hstep
      obtain ⟨r, hr, hP⟩ := ih _ hstep hb'
      rw [hcons]
      exact ⟨r, foldlM_cons_ok_iff.mpr ⟨b', hf, hr⟩, hP⟩

/-- A fold fails with the error of one of its steps. -/
theorem exists_step_of_foldlM_eq_error {as : List α} {b : β} {e : ε}
    (h : as.foldlM f b = .error e) : ∃ a ∈ as, ∃ b', f b' a = .error e := by
  induction as generalizing b with
  | nil => exact nomatch h
  | cons a as ih =>
      rw [List.foldlM_cons] at h
      cases ha : f b a with
      | error e' =>
          rw [ha] at h
          obtain rfl := Except.error.inj h
          exact ⟨a, List.mem_cons_self, b, ha⟩
      | ok b' =>
          rw [ha] at h
          obtain ⟨a', ha', hstep⟩ := ih h
          exact ⟨a', List.mem_cons_of_mem a ha', hstep⟩

/-- A list is mapped to a list of results exactly if each item is mapped to its result. -/
theorem mapM_eq_ok_iff {g : α → Except ε β} {as : List α} {bs : List β} :
    as.mapM g = .ok bs ↔ as.map g = bs.map .ok := by
  induction as generalizing bs with
  | nil => cases bs <;> simp [pure, Except.pure]
  | cons a as ih =>
      rw [List.mapM_cons, bind_eq_ok_iff, List.map_cons]
      constructor
      · rintro ⟨b, hb, hrest⟩
        obtain ⟨rest, hmap, hbs⟩ := bind_eq_ok_iff.mp hrest
        obtain rfl := Except.ok.inj hbs
        rw [hb, ih.mp hmap, List.map_cons]
      · intro h
        cases bs with
        | nil => exact absurd h (by simp)
        | cons b rest =>
            obtain ⟨hb, hrest⟩ := List.cons_eq_cons.mp h
            exact ⟨b, hb, bind_eq_ok_iff.mpr ⟨rest, ih.mpr hrest, rfl⟩⟩

/-- A map succeeds exactly if it does on every item. -/
theorem exists_mapM_iff {g : α → Except ε β} {as : List α} :
    (∃ bs, as.mapM g = .ok bs) ↔ ∀ a ∈ as, ∃ b, g a = .ok b := by
  induction as with
  | nil => simp [pure, Except.pure]
  | cons a as ih =>
      rw [List.forall_mem_cons, ← ih]
      simp only [List.mapM_cons, bind_eq_ok_iff]
      constructor
      · rintro ⟨_, b, hb, rest, hrest, -⟩
        exact ⟨⟨b, hb⟩, rest, hrest⟩
      · rintro ⟨⟨b, hb⟩, rest, hrest⟩
        exact ⟨b :: rest, b, hb, rest, hrest, rfl⟩

/-- A map fails with the error of the first item on which it does. -/
theorem mapM_eq_error_iff {g : α → Except ε β} {as : List α} {e : ε} :
    as.mapM g = .error e ↔ ∃ (i : Nat) (a : α), as[i]? = some a ∧ g a = .error e ∧
      ∀ earlier ∈ as.take i, ∃ b, g earlier = .ok b := by
  induction as with
  | nil => simp [pure, Except.pure]
  | cons a as ih =>
      rw [List.mapM_cons]
      cases hg : g a with
      | error e' =>
          change (Except.error e' : Except ε (List β)) = .error e ↔ _
          constructor
          · intro h
            obtain rfl := Except.error.inj h
            exact ⟨0, a, rfl, hg, by simp⟩
          · rintro ⟨i, b, hb, hgb, hearlier⟩
            cases i with
            | zero =>
                obtain rfl := Option.some.inj hb
                exact congrArg Except.error (Except.error.inj (hg.symm.trans hgb))
            | succ i =>
                obtain ⟨_, hok⟩ := hearlier a List.mem_cons_self
                rw [hg] at hok
                exact nomatch hok
      | ok b =>
          have hrest : (do let rest ← as.mapM g; pure (b :: rest) : Except ε (List β)) =
              .error e ↔ as.mapM g = .error e := by
            cases as.mapM g <;> simp [bind, Except.bind, pure, Except.pure]
          refine hrest.trans (ih.trans ?_)
          constructor
          · rintro ⟨i, a', ha', hga', hearlier⟩
            exact ⟨i + 1, a', ha', hga', List.forall_mem_cons.mpr ⟨⟨b, hg⟩, hearlier⟩⟩
          · rintro ⟨i, a', ha', hga', hearlier⟩
            cases i with
            | zero =>
                obtain rfl := Option.some.inj ha'
                rw [hg] at hga'
                exact nomatch hga'
            | succ i => exact ⟨i, a', ha', hga', (List.forall_mem_cons.mp hearlier).2⟩

/-- In `Option` too a map succeeds if it does on every item. -/
theorem mapM_eq_some_of_forall {g : α → Option β} {g' : α → β} {as : List α}
    (h : ∀ a ∈ as, g a = some (g' a)) : as.mapM g = some (as.map g') := by
  induction as with
  | nil => rfl
  | cons a as ih =>
      obtain ⟨ha, has⟩ := List.forall_mem_cons.mp h
      rw [List.mapM_cons, ha, ih has]
      rfl

end ProcessLogic.Fold
