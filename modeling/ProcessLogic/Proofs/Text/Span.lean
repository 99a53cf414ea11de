import ProcessLogic.Proofs.Text.Lexeme

/-!
# Where lexemes stand

A lexeme starts at a character of the text and takes the bytes of the characters that are read
there. Lexemes follow one another without overlap, and a place in the text is on the line that the
newlines before it count.
-/

namespace ProcessLogic.Text

@[simp] theorem byteLength_nil : byteLength [] = 0 := rfl

@[simp] theorem byteLength_cons (c : Char) (cs : List Char) :
    byteLength (c :: cs) = c.utf8Size + byteLength cs := rfl

theorem byteLength_append (cs ds : List Char) :
    byteLength (cs ++ ds) = byteLength cs + byteLength ds := by
  induction cs with
  | nil => rw [List.nil_append, byteLength_nil, Nat.zero_add]
  | cons c cs ih => rw [List.cons_append, byteLength_cons, byteLength_cons, ih, Nat.add_assoc]

/-- Bytes are counted as those of the string are. -/
theorem byteLength_eq_utf8ByteSize (cs : List Char) :
    byteLength cs = (String.ofList cs).utf8ByteSize := by
  induction cs with
  | nil => rfl
  | cons c cs ih =>
      rw [byteLength_cons, String.ofList_cons, String.utf8ByteSize_append,
        String.utf8ByteSize_singleton, ih]

theorem byteLength_toList (text : String) : byteLength text.toList = text.utf8ByteSize := by
  rw [byteLength_eq_utf8ByteSize, String.ofList_toList]

theorem byteLength_pos {cs : List Char} (h : cs ≠ []) : 0 < byteLength cs := by
  cases cs with
  | nil => exact absurd rfl h
  | cons c cs => exact Nat.lt_of_lt_of_le c.utf8Size_pos (Nat.le_add_right _ _)

/-- Before the place at which `rest` starts there are the newlines of `front`. -/
theorem lineFrom_append (line : Nat) (front rest : List Char) :
    lineFrom line (byteLength front) (front ++ rest) = line + front.count '\n' := by
  induction front generalizing line with
  | nil => cases rest <;> rfl
  | cons c front ih =>
      obtain ⟨n, hn⟩ : ∃ n, byteLength (c :: front) = n + 1 :=
        Nat.exists_eq_add_one.mpr (Nat.lt_of_lt_of_le c.utf8Size_pos (Nat.le_add_right _ _))
      have hrest : n + 1 - c.utf8Size = byteLength front := by
        rw [← hn, byteLength_cons, Nat.add_sub_cancel_left]
      rw [List.cons_append, hn, lineFrom, hrest, ih, List.count_cons]
      by_cases hc : c = '\n'
      · simp only [hc, if_true, beq_self_eq_true]
        omega
      · simp only [hc, if_false, beq_eq_false_iff_ne.mpr hc, Bool.false_eq_true, Nat.add_zero]

/-- The line at a place is told by the newlines before it. -/
theorem lineAt_append (front rest : List Char) :
    lineAt (front ++ rest) (byteLength front) = 1 + front.count '\n' :=
  lineFrom_append 1 front rest

variable {τ : Type} {read : Reader τ}

/-- The lexemes of a text whose first byte has the number `pos`. -/
def lexemesAt (read : Reader τ) (pos : Nat) (cs : List Char) : List (Lexeme τ) :=
  (lexemesFrom read 0 pos #[] cs).toList

@[simp] theorem lexemesAt_nil (pos : Nat) : lexemesAt read pos [] = [] := rfl

/-- Reading with an accumulator gives the lexemes from the place on. -/
theorem lexemesFrom_eq (skip pos : Nat) (acc : Array (Lexeme τ)) (cs : List Char) :
    (lexemesFrom read skip pos acc cs).toList =
      acc.toList ++ lexemesAt read (pos + byteLength (cs.take skip)) (cs.drop skip) := by
  induction cs generalizing skip pos acc with
  | nil => simp [lexemesFrom]
  | cons c cs ih =>
      cases skip with
      | succ skip =>
          rw [lexemesFrom, ih, List.take_succ_cons, byteLength_cons, Nat.add_assoc,
            List.drop_succ_cons]
      | zero =>
          rw [List.take_zero, List.drop_zero, byteLength_nil, Nat.add_zero, lexemesAt]
          simp only [lexemesFrom]
          rw [ih, ih, ← List.append_assoc]
          cases (read c cs).1 <;> simp

/-- The first piece is a lexeme or a separator, and the rest is read from where it ends. -/
theorem lexemesAt_cons (pos : Nat) (c : Char) (cs : List Char) :
    lexemesAt read pos (c :: cs) =
      ((read c cs).1.map fun t =>
        ⟨t, pos, pos + byteLength (c :: cs.take (read c cs).2)⟩).toList ++
      lexemesAt read (pos + byteLength (c :: cs.take (read c cs).2)) (cs.drop (read c cs).2) := by
  rw [lexemesAt, lexemesFrom, lexemesFrom_eq, byteLength_cons, Nat.add_assoc]
  cases (read c cs).1 <;> simp

/-- What a text holds of a lexeme: the characters before it, and that it is read at the next one. -/
structure StandsAfter (read : Reader τ) (pos : Nat) (cs : List Char) (l : Lexeme τ)
    (front : List Char) (c : Char) (rest : List Char) : Prop where
  text_eq : cs = front ++ c :: rest
  start_eq : l.start = pos + byteLength front
  token_read : (read c rest).1 = some l.token
  stop_eq : l.stop = l.start + byteLength (c :: rest.take (read c rest).2)

/-- Every lexeme is read at some character. -/
theorem exists_standsAfter {l : Lexeme τ} {pos : Nat} {cs : List Char}
    (h : l ∈ lexemesAt read pos cs) : ∃ front c rest, StandsAfter read pos cs l front c rest := by
  induction hn : cs.length using Nat.strongRecOn generalizing pos cs with
  | ind n ih =>
      cases cs with
      | nil => exact nomatch h
      | cons c cs =>
          rw [lexemesAt_cons] at h
          rcases List.mem_append.mp h with hfirst | hlater
          · obtain ⟨t, ht, rfl⟩ := Option.map_eq_some_iff.mp (Option.mem_toList.mp hfirst)
            exact ⟨[], c, cs, rfl, rfl, ht, rfl⟩
          · have hshorter : (cs.drop (read c cs).2).length < n := by
              rw [List.length_drop, ← hn, List.length_cons]
              omega
            obtain ⟨front, d, rest, htext, hstart, hread, hstop⟩ := ih _ hshorter hlater rfl
            refine ⟨c :: cs.take (read c cs).2 ++ front, d, rest, ?_, ?_, hread, hstop⟩
            · rw [List.append_assoc, ← htext, List.cons_append, List.take_append_drop]
            · rw [hstart, byteLength_append, Nat.add_assoc]

/-- A lexeme takes a byte at least. -/
theorem StandsAfter.start_lt_stop {pos : Nat} {cs front rest : List Char} {l : Lexeme τ} {c : Char}
    (h : StandsAfter read pos cs l front c rest) : l.start < l.stop := by
  rw [h.stop_eq, byteLength_cons]
  have hsize := c.utf8Size_pos
  omega

/-- No lexeme starts before its text. -/
theorem start_ge_of_mem {l : Lexeme τ} {pos : Nat} {cs : List Char}
    (h : l ∈ lexemesAt read pos cs) : pos ≤ l.start := by
  obtain ⟨front, c, rest, hstands⟩ := exists_standsAfter h
  rw [hstands.start_eq]
  exact Nat.le_add_right _ _

/-- A lexeme ends before those after it start. -/
theorem pairwise_lexemesAt (read : Reader τ) (pos : Nat) (cs : List Char) :
    (lexemesAt read pos cs).Pairwise fun l l' => l.stop ≤ l'.start := by
  induction hn : cs.length using Nat.strongRecOn generalizing pos cs with
  | ind n ih =>
      cases cs with
      | nil => exact List.Pairwise.nil
      | cons c cs =>
          have hshorter : (cs.drop (read c cs).2).length < n := by
            rw [List.length_drop, ← hn, List.length_cons]
            omega
          rw [lexemesAt_cons]
          refine List.pairwise_append.mpr ⟨?_, ih _ hshorter _ _ rfl, fun l hl l' hl' => ?_⟩
          · cases (read c cs).1 with
            | none => exact List.Pairwise.nil
            | some t => exact List.pairwise_singleton _ _
          · obtain ⟨t, -, rfl⟩ := Option.map_eq_some_iff.mp (Option.mem_toList.mp hl)
            exact start_ge_of_mem hl'

/-- A lexeme starts before those after it. -/
theorem start_lt_of_split {pos : Nat} {cs : List Char} {before after : List (Lexeme τ)}
    {l later : Lexeme τ} (h : lexemesAt read pos cs = before ++ l :: after) (hlater : later ∈ after) :
    l.start < later.start := by
  have hordered := pairwise_lexemesAt read pos cs
  rw [h] at hordered
  have hstop := List.rel_of_pairwise_cons (List.pairwise_append.mp hordered).2.1 hlater
  have hmem : l ∈ lexemesAt read pos cs := h ▸ List.mem_append_right before List.mem_cons_self
  obtain ⟨_, _, _, hstands⟩ := exists_standsAfter hmem
  exact Nat.lt_of_lt_of_le hstands.start_lt_stop hstop

end ProcessLogic.Text
