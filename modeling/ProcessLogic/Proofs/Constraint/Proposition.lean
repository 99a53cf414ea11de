import Mathlib.Data.List.Basic
import ProcessLogic.Constraint.Proposition
import ProcessLogic.Proofs.Formula.Token
import ProcessLogic.Text.Blank

/-!
# Propositions are names

Whatever an activity is called, its proposition is a name that a formula text can hold, and
blanks around the name of the activity do not matter. A name is its own proposition.
-/

namespace ProcessLogic

open Formula Text

theorem char_le_iff {c d : Char} : c ≤ d ↔ c.toNat ≤ d.toNat := Iff.rfl

/-- Small letters come 32 places after capitals. -/
theorem toNat_toLower {c : Char} (h : 65 ≤ c.toNat ∧ c.toNat ≤ 90) :
    c.toLower.toNat = c.toNat + 32 := by
  have hcapital : c.val ≥ 'A'.val ∧ c.val ≤ 'Z'.val := h
  have hval : c.toLower.val = c.val + 32 := by
    have hlower : c.toLower = ⟨c.val + ('a'.val - 'A'.val), _⟩ := dif_pos hcapital
    rw [hlower]
    rfl
  rw [Char.toNat, hval, UInt32.toNat_add]
  change (c.toNat + 32) % 2 ^ 32 = _
  omega

/-- An identifier goes on with small letters, underscores and digits. -/
theorem continuesIdent_iff {c : Char} : Token.continuesIdent c = true ↔
    (97 ≤ c.toNat ∧ c.toNat ≤ 122) ∨ c = '_' ∨ (48 ≤ c.toNat ∧ c.toNat ≤ 57) := by
  simp only [Token.continuesIdent, Token.startsIdent, Bool.or_eq_true, Bool.and_eq_true,
    decide_eq_true_eq, char_le_iff, beq_iff_eq, or_assoc]
  rfl

/-- All that is kept of an activity can stand in an identifier. -/
theorem continuesIdent_of_propositionChar {c d : Char} (h : propositionChar c = some d) :
    Token.continuesIdent d = true := by
  rw [continuesIdent_iff]
  simp only [propositionChar, char_le_iff] at h
  split at h
  · rename_i hcapital
    obtain rfl := Option.some.inj h
    have hlower := toNat_toLower hcapital
    change 65 ≤ c.toNat ∧ c.toNat ≤ 90 at hcapital
    exact Or.inl (by omega)
  split at h
  · rename_i hsame
    obtain rfl := Option.some.inj h
    rcases hsame with hsame | hsame | hsame
    · exact Or.inl hsame
    · exact Or.inr (Or.inr hsame)
    · exact Or.inr (Or.inl hsame)
  split at h
  · obtain rfl := Option.some.inj h
    exact Or.inl (by decide)
  split at h
  · obtain rfl := Option.some.inj h
    exact Or.inl (by decide)
  · exact nomatch h

/-- A blank contributes nothing to a proposition. -/
theorem propositionChar_eq_none_of_isBlank {c : Char} (h : isBlank c = true) :
    propositionChar c = none := by
  simp only [isBlank, Bool.or_eq_true, Bool.and_eq_true, decide_eq_true_eq, beq_iff_eq] at h
  simp only [propositionChar, char_le_iff, ← Char.toNat_inj]
  simp only [Char.reduceToNat]
  rw [if_neg (by omega), if_neg (by omega), if_neg (by omega), if_neg (by omega)]

/-- Blanks in front leave nothing in the proposition. -/
theorem filterMap_dropWhile (cs : List Char) :
    (cs.dropWhile isBlank).filterMap propositionChar = cs.filterMap propositionChar := by
  induction cs with
  | nil => rfl
  | cons c cs ih =>
      cases hc : isBlank c with
      | false => rw [List.dropWhile_cons_of_neg (by simp [hc])]
      | true =>
          rw [List.dropWhile_cons_of_pos hc, ih, List.filterMap_cons,
            propositionChar_eq_none_of_isBlank hc]

/-- Blanks around the name of an activity do not matter. -/
theorem proposition_trimmed (activity : String) :
    proposition (trimmed activity) = proposition activity := by
  have htrim : ∀ cs : List Char,
      (trim cs).filterMap propositionChar = cs.filterMap propositionChar := by
    intro cs
    rw [trim, trimRight, List.filterMap_reverse, filterMap_dropWhile, ← List.filterMap_reverse,
      List.reverse_reverse, trimLeft, filterMap_dropWhile]
  rw [proposition, proposition, trimmed, String.toList_ofList, htrim]

/-- Activities have the propositions of their trimmed names. -/
theorem map_proposition_trimmed (activities : List String) :
    (activities.map trimmed).map proposition = activities.map proposition := by
  rw [List.map_map]
  exact List.map_congr_left fun activity _ => proposition_trimmed activity

/-- What continues an identifier starts one unless it is a digit. -/
theorem startsIdent_of_continuesIdent {c : Char} (h : Token.continuesIdent c = true)
    (hdigit : ('0' ≤ c && c ≤ '9') = false) : Token.startsIdent c = true := by
  simp only [Token.startsIdent, Bool.or_eq_true, Bool.and_eq_true, decide_eq_true_eq,
    char_le_iff, beq_iff_eq]
  rcases continuesIdent_iff.mp h with hc | hc | hc
  · exact Or.inl hc
  · exact Or.inr hc
  · simp only [char_le_iff, Bool.and_eq_false_iff, decide_eq_false_iff_not] at hdigit
    simp only [Char.reduceToNat] at hdigit
    omega

/-- An identifier is a name unless it is one of the constants. -/
theorem isName_ofList {c : Char} {cs : List Char} (hc : Token.startsIdent c = true)
    (hcs : ∀ d ∈ cs, Token.continuesIdent d = true) (htrue : c :: cs ≠ "true".toList)
    (hfalse : c :: cs ≠ "false".toList) : IsName (.ofList (c :: cs)) := by
  refine ⟨Token.isIdent_iff.mpr ⟨c, cs, String.toList_ofList, hc, hcs⟩, ?_, ?_⟩
  · intro h
    exact htrue (by rw [← h, String.toList_ofList])
  · intro h
    exact hfalse (by rw [← h, String.toList_ofList])

/-- The proposition of every activity is a name. -/
theorem isName_proposition (activity : String) : IsName (proposition activity) := by
  have hall : ∀ c ∈ activity.toList.filterMap propositionChar,
      Token.continuesIdent c = true := by
    intro c hc
    obtain ⟨d, -, hd⟩ := List.mem_filterMap.mp hc
    exact continuesIdent_of_propositionChar hd
  rw [proposition]
  generalize activity.toList.filterMap propositionChar = cs at hall
  cases hneeds : needsUnderscore cs with
  | true =>
      rw [if_pos rfl]
      exact isName_ofList rfl hall (by simp) (by simp)
  | false =>
      rw [if_neg (by simp)]
      cases cs with
      | nil => exact nomatch hneeds
      | cons c cs =>
          simp only [needsUnderscore, Bool.or_eq_false_iff, beq_eq_false_iff_ne] at hneeds
          obtain ⟨⟨hdigit, htrue⟩, hfalse⟩ := hneeds
          have hc := startsIdent_of_continuesIdent (hall c List.mem_cons_self) hdigit
          exact isName_ofList hc (fun d hd => hall d (List.mem_cons_of_mem c hd)) htrue hfalse

/-- What an identifier can hold contributes itself. -/
theorem propositionChar_of_continuesIdent {c : Char} (h : Token.continuesIdent c = true) :
    propositionChar c = some c := by
  rw [continuesIdent_iff] at h
  have hcapital : ¬ ('A' ≤ c ∧ c ≤ 'Z') := by
    rintro ⟨hlow, hhigh⟩
    simp only [char_le_iff, Char.reduceToNat] at hlow hhigh
    rcases h with h | rfl | h
    · omega
    · exact absurd hhigh (by decide)
    · omega
  have hsame : ('a' ≤ c ∧ c ≤ 'z') ∨ ('0' ≤ c ∧ c ≤ '9') ∨ c = '_' := by
    rcases h with h | h | h
    · exact Or.inl h
    · exact Or.inr (Or.inr h)
    · exact Or.inr (Or.inl h)
  rw [propositionChar, if_neg hcapital, if_pos hsame]

/-- What starts an identifier is no digit. -/
theorem digit_eq_false_of_startsIdent {c : Char} (h : Token.startsIdent c = true) :
    ('0' ≤ c && c ≤ '9') = false := by
  simp only [Token.startsIdent, Bool.or_eq_true, Bool.and_eq_true, decide_eq_true_eq, char_le_iff,
    beq_iff_eq] at h
  rw [Bool.and_eq_false_iff, decide_eq_false_iff_not, decide_eq_false_iff_not, char_le_iff,
    char_le_iff]
  simp only [Char.reduceToNat] at h ⊢
  rcases h with h | rfl
  · omega
  · decide

/-- A name needs no underscore in front. -/
theorem needsUnderscore_of_isName {name : String} (h : IsName name) :
    needsUnderscore name.toList = false := by
  have hne : ∀ word : String, name ≠ word → (name.toList == word.toList) = false :=
    fun word hword => beq_eq_false_iff_ne.mpr fun heq => hword (String.toList_inj.mp heq)
  obtain ⟨c, cs, hname, hc, -⟩ := Token.isIdent_iff.mp h.isIdent
  have htrue := hne "true" h.ne_true
  have hfalse := hne "false" h.ne_false
  rw [hname] at htrue hfalse ⊢
  rw [needsUnderscore, digit_eq_false_of_startsIdent hc, htrue, hfalse]
  rfl

/-- A name is its own proposition. -/
theorem proposition_of_isName {name : String} (h : IsName name) : proposition name = name := by
  obtain ⟨c, cs, hname, hc, hcs⟩ := Token.isIdent_iff.mp h.isIdent
  have hall : ∀ d ∈ name.toList, propositionChar d = some d := by
    rw [hname]
    refine List.forall_mem_cons.mpr ⟨?_, fun d hd => propositionChar_of_continuesIdent (hcs d hd)⟩
    exact propositionChar_of_continuesIdent (by rw [Token.continuesIdent, hc, Bool.true_or])
  have hkept : name.toList.filterMap propositionChar = name.toList := by
    rw [List.filterMap_congr hall, List.filterMap_some]
  rw [proposition, hkept, needsUnderscore_of_isName h, if_neg Bool.false_ne_true,
    String.ofList_toList]

end ProcessLogic
