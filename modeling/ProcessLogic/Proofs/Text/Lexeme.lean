import ProcessLogic.Text.Lexeme

/-!
# The tokens of a text

Which tokens a text has does not depend on where it starts, so the tokens of a text are those
of its first piece followed by those of the rest.
-/

namespace ProcessLogic.Text

variable {τ : Type} {read : Reader τ}

/-- The tokens of a text, without their spans. -/
def tokens (read : Reader τ) (cs : List Char) : List τ := (lexemes read cs).map (·.token)

@[simp] theorem tokens_nil : tokens read [] = [] := rfl

/-- The tokens do not depend on where the text stands. -/
theorem map_token_lexemesFrom {skip pos : Nat} {acc : Array (Lexeme τ)} {cs : List Char} :
    (lexemesFrom read skip pos acc cs).toList.map (·.token) =
      acc.toList.map (·.token) ++ tokens read (cs.drop skip) := by
  -- both sides are read on with the same pieces left, whatever has been collected
  suffices h : ∀ (n : Nat) (cs : List Char), cs.length ≤ n → ∀ (skip pos pos' : Nat)
      (acc : Array (Lexeme τ)),
      (lexemesFrom read skip pos acc cs).toList.map (·.token) = acc.toList.map (·.token) ++
        (lexemesFrom read 0 pos' #[] (cs.drop skip)).toList.map (·.token) from
    h cs.length cs (Nat.le_refl _) skip pos 0 acc
  intro n
  induction n with
  | zero =>
      intro cs hcs skip pos pos' acc
      obtain rfl := List.length_eq_zero_iff.mp (Nat.le_zero.mp hcs)
      simp [lexemesFrom]
  | succ n ih =>
      intro cs hcs skip pos pos' acc
      cases cs with
      | nil => simp [lexemesFrom]
      | cons c cs =>
          have hcs' : cs.length ≤ n := Nat.le_of_succ_le_succ hcs
          cases skip with
          | succ skip => exact ih cs hcs' skip _ _ _
          | zero =>
              rw [List.drop_zero]
              simp only [lexemesFrom]
              rw [ih cs hcs' _ _ 0 _, ih cs hcs' _ _ 0 _, ← List.append_assoc]
              cases (read c cs).1 <;> simp

/-- The first piece gives a token or nothing, and the rest is read after it. -/
theorem tokens_cons (c : Char) (cs : List Char) :
    tokens read (c :: cs) = (read c cs).1.toList ++ tokens read (cs.drop (read c cs).2) := by
  rw [tokens, lexemes, lexemesFrom, map_token_lexemesFrom]
  cases (read c cs).1 <;> simp

/-- A token that is read comes before those of the rest. -/
theorem tokens_of_read {c : Char} {cs : List Char} {t : τ} (more : Nat)
    (h : read c cs = (some t, more)) :
    tokens read (c :: cs) = t :: tokens read (cs.drop more) := by
  rw [tokens_cons, h]
  rfl

/-- Every token is read at some character of the text. -/
theorem exists_read_of_mem_tokens {t : τ} {cs : List Char} (h : t ∈ tokens read cs) :
    ∃ c rest, c ∈ cs ∧ (read c rest).1 = some t := by
  induction hn : cs.length using Nat.strongRecOn generalizing cs with
  | ind n ih =>
      cases cs with
      | nil => exact nomatch h
      | cons c cs =>
          rw [tokens_cons] at h
          rcases List.mem_append.mp h with hfirst | hlater
          · exact ⟨c, cs, List.mem_cons_self, Option.mem_toList.mp hfirst⟩
          · have hshorter : (cs.drop (read c cs).2).length < n := by
              rw [List.length_drop, ← hn, List.length_cons]
              omega
            obtain ⟨d, rest, hd, hread⟩ := ih _ hshorter hlater rfl
            exact ⟨d, rest, List.mem_cons_of_mem c (List.mem_of_mem_drop hd), hread⟩

/-- A character that is a token by itself, whatever follows. -/
theorem tokens_sign {c : Char} {t : τ} (h : ∀ cs, read c cs = (some t, 0)) (cs : List Char) :
    tokens read (c :: cs) = t :: tokens read cs :=
  tokens_of_read 0 (h cs)

/-- A text that does not go on with a character of a class. -/
def Stops (p : Char → Bool) (cs : List Char) : Prop := ∀ c, cs.head? = some c → p c = false

theorem stops_nil {p : Char → Bool} : Stops p [] := fun _ h => nomatch h

theorem stops_cons {p : Char → Bool} {c : Char} {cs : List Char} (h : p c = false) :
    Stops p (c :: cs) := by
  intro d hd
  rwa [← Option.some.inj hd]

/-- A word is taken as far as it goes before a text that does not continue it. -/
theorem Stops.takeWhile_append {p : Char → Bool} {word cs : List Char} (h : Stops p cs)
    (hw : ∀ c ∈ word, p c = true) : (word ++ cs).takeWhile p = word := by
  rw [List.takeWhile_append_of_pos hw]
  cases cs with
  | nil => simp
  | cons c cs => simp [h c rfl]

/-- What is left after a run of characters is what starts with another one. -/
theorem drop_length_takeWhile (p : Char → Bool) (cs : List Char) :
    cs.drop (cs.takeWhile p).length = cs.dropWhile p := by
  induction cs with
  | nil => rfl
  | cons c cs ih =>
      cases h : p c <;> simp [h, ih]

/-- A run of blanks separates tokens, and nothing else. -/
theorem tokens_blank {p : Char → Bool}
    (hread : ∀ c cs, p c = true → read c cs = (none, (cs.takeWhile p).length)) {c : Char}
    (hc : p c = true) (cs : List Char) : tokens read (c :: cs) = tokens read cs := by
  have hdrop : ∀ c cs, p c = true → tokens read (c :: cs) = tokens read (cs.dropWhile p) := by
    intro c cs hc
    rw [tokens_cons, hread c cs hc, drop_length_takeWhile]
    rfl
  rw [hdrop c cs hc]
  cases cs with
  | nil => rfl
  | cons d ds =>
      by_cases hd : p d = true
      · rw [List.dropWhile_cons_of_pos hd, hdrop d ds hd]
      · rw [List.dropWhile_cons_of_neg hd]

/-- A word is read as a whole if the text does not go on with a character of its class. -/
theorem tokens_word {p : Char → Bool} (ofWord : List Char → τ) {c : Char} {word cs : List Char}
    (hread : ∀ cs, read c cs = (some (ofWord (c :: cs.takeWhile p)), (cs.takeWhile p).length))
    (hw : ∀ d ∈ word, p d = true) (hcs : Stops p cs) :
    tokens read (c :: (word ++ cs)) = ofWord (c :: word) :: tokens read cs := by
  rw [tokens_of_read _ (hread _), hcs.takeWhile_append hw, List.drop_left]

/-- Nothing that starts before the character `d` is read differently because of it. -/
def Local (read : Reader τ) (d : Char) : Prop := ∀ (c : Char) (x y : List Char),
  read c (x ++ d :: y) = read c x ∧ (read c x).2 ≤ x.length

/-- A text before such a character is read as it is read alone. -/
theorem Local.tokens_append {d : Char} (h : Local read d) (x y : List Char) :
    tokens read (x ++ d :: y) = tokens read x ++ tokens read (d :: y) := by
  induction hn : x.length using Nat.strongRecOn generalizing x with
  | ind n ih =>
      cases x with
      | nil => simp
      | cons c x =>
          obtain ⟨hread, hle⟩ := h c x y
          rw [List.cons_append, tokens_cons, tokens_cons, hread, List.drop_append_of_le_length hle,
            List.append_assoc,
            ih (x.drop (read c x).2).length (by grind) _ rfl]

/-- A run does not go on beyond a character of another class. -/
theorem takeWhile_append_cons {p : Char → Bool} {d : Char} (h : p d = false) (x y : List Char) :
    (x ++ d :: y).takeWhile p = x.takeWhile p := by
  induction x with
  | nil => simp [h]
  | cons c x ih =>
      rw [List.cons_append]
      cases hc : p c <;> simp [hc, ih]

/-- A character behind it does not change which other character comes first. -/
theorem head?_append_cons {d e : Char} (h : d ≠ e) (x y : List Char) :
    (x ++ d :: y).head? = some e ↔ x.head? = some e := by
  cases x <;> simp [h]

/-- A character that a word lacks does not change whether the word stands in front. -/
theorem isPrefixOf_append_cons {d : Char} {word : List Char} (h : d ∉ word) (x y : List Char) :
    word.isPrefixOf (x ++ d :: y) = word.isPrefixOf x := by
  induction word generalizing x with
  | nil => simp
  | cons e word ih =>
      obtain ⟨hne, hword⟩ := not_or.mp (fun hm => h (List.mem_cons.mpr hm))
      cases x with
      | nil => simp [List.isPrefixOf, Ne.symm hne]
      | cons c x =>
          rw [List.cons_append, List.isPrefixOf, List.isPrefixOf, ih hword]

end ProcessLogic.Text
