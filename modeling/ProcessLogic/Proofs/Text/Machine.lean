import ProcessLogic.Text.Machine

/-!
# Runs of machines

A run over two texts is the run over the second from where the first ends. `Leads` says that
a machine gets from one state to another, so that runs can be put together piece by piece.

A beginning of a text is viable if some sentence starts with it. A machine that reads exactly the
viable beginnings refuses the first lexeme with which the beginning is viable no more.
-/

namespace ProcessLogic.Text

variable {σ τ : Type} {step : σ → Lexeme τ → Option σ} {s r t : σ} {l : Lexeme τ}
  {ls us : List (Lexeme τ)}

/-- The machine reads all lexemes and ends in the state `t`. -/
def Leads (step : σ → Lexeme τ → Option σ) (s : σ) (ls : List (Lexeme τ)) (t : σ) : Prop :=
  drive step s ls = .ok t

theorem Leads.nil (s : σ) : Leads step s [] s := rfl

/-- The machine reads a lexeme and then the others from where it is. -/
theorem leads_cons_iff : Leads step s (l :: ls) t ↔ ∃ r, step s l = some r ∧ Leads step r ls t := by
  rw [Leads, drive]
  cases step s l with
  | none => simp
  | some r => simp [Leads]

theorem Leads.cons (h : step s l = some r) (hr : Leads step r ls t) : Leads step s (l :: ls) t :=
  leads_cons_iff.mpr ⟨r, h, hr⟩

/-- A run on two lists is one on the first and then one on the second. -/
theorem leads_append_iff :
    Leads step s (ls ++ us) t ↔ ∃ r, Leads step s ls r ∧ Leads step r us t := by
  induction ls generalizing s with
  | nil => simp [Leads, drive]
  | cons l ls ih =>
      rw [List.cons_append, leads_cons_iff]
      simp only [leads_cons_iff, ih]
      constructor
      · rintro ⟨s', hs', r, hr, ht⟩
        exact ⟨r, ⟨s', hs', hr⟩, ht⟩
      · rintro ⟨r, ⟨s', hs', hr⟩, ht⟩
        exact ⟨s', hs', r, hr, ht⟩

theorem Leads.append (h : Leads step s ls r) (hr : Leads step r us t) :
    Leads step s (ls ++ us) t :=
  leads_append_iff.mpr ⟨r, h, hr⟩

/-- A run ends in one state. -/
theorem Leads.unique {t' : σ} (h : Leads step s ls t) (h' : Leads step s ls t') : t = t' :=
  Except.ok.inj (h.symm.trans h')

theorem leads_singleton_iff : Leads step s [l] t ↔ step s l = some t := by
  rw [leads_cons_iff]
  simp [Leads, drive]

/-- A run that is refused has read the lexemes before the one refused. -/
theorem exists_leads_of_drive_eq_error (h : drive step s ls = .error (r, l)) :
    ∃ before after, ls = before ++ l :: after ∧ Leads step s before r ∧ step r l = none := by
  induction ls generalizing s with
  | nil => exact nomatch h
  | cons first ls ih =>
      rw [drive] at h
      cases hs : step s first with
      | none =>
          rw [hs] at h
          obtain ⟨rfl, rfl⟩ := Prod.mk.inj (Except.error.inj h)
          exact ⟨[], ls, rfl, .nil s, hs⟩
      | some s' =>
          rw [hs] at h
          obtain ⟨before, after, rfl, hbefore, hrefused⟩ := ih h
          exact ⟨first :: before, after, rfl, .cons hs hbefore, hrefused⟩

/-- Every beginning of `before` is viable, but with the lexeme after it `before` is not. -/
structure FirstUnviable (viable : List (Lexeme τ) → Prop) (ls before : List (Lexeme τ))
    (l : Lexeme τ) (after : List (Lexeme τ)) : Prop where
  split : ls = before ++ l :: after
  viable_of_prefix : ∀ front, front <+: before → viable front
  not_viable : ¬ viable (before ++ [l])

theorem FirstUnviable.mem {viable : List (Lexeme τ) → Prop} {before after : List (Lexeme τ)}
    (h : FirstUnviable viable ls before l after) : l ∈ ls :=
  h.split ▸ List.mem_append_right before List.mem_cons_self

section Viable

variable {viable : List (Lexeme τ) → Prop}
  (hviable : ∀ ls, viable ls ↔ ∃ t, Leads step s ls t)
include hviable

/-- A prefix of what is viable is viable. -/
theorem viable_of_prefix {front : List (Lexeme τ)} (h : viable ls) (hfront : front <+: ls) :
    viable front := by
  obtain ⟨rest, rfl⟩ := hfront
  obtain ⟨t, ht⟩ := (hviable _).mp h
  obtain ⟨r, hr, -⟩ := leads_append_iff.mp ht
  exact (hviable front).mpr ⟨r, hr⟩

/-- The lexeme refused is the first that makes the beginning unviable. -/
theorem firstUnviable_of_drive (h : drive step s ls = .error (r, l)) :
    ∃ before after, FirstUnviable viable ls before l after ∧ Leads step s before r := by
  obtain ⟨before, after, rfl, hbefore, hrefused⟩ := exists_leads_of_drive_eq_error h
  refine ⟨before, after, ⟨rfl, fun front hfront => ?_, fun hl => ?_⟩, hbefore⟩
  · exact viable_of_prefix hviable ((hviable before).mpr ⟨r, hbefore⟩) hfront
  · obtain ⟨t, ht⟩ := (hviable _).mp hl
    obtain ⟨r', hr', hstep⟩ := leads_append_iff.mp ht
    obtain rfl := hbefore.unique hr'
    rw [leads_singleton_iff, hrefused] at hstep
    exact nomatch hstep

end Viable

end ProcessLogic.Text
