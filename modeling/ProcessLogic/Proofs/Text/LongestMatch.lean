import Mathlib.Computability.Language
import Mathlib.Data.List.TakeWhile
import ProcessLogic.Proofs.Text.Span

/-!
# Longest match

A lexer is declared by rules in an order, each a language with the token of a piece. What stands
first in a text is its longest prefix in one of the languages, and of the rules that have it the
earliest gives the token. So the rules leave no choice, and a reader that takes this prefix
everywhere finds the tokens that the rules demand.
-/

namespace ProcessLogic.Text

/-- A rule of a lexer: the pieces it is about and the token of a piece, none for a separator. -/
structure Rule (τ : Type) where
  language : Language Char
  token? : List Char → Option τ

section Languages

open scoped Computability

/-- One character of a class. -/
def charsIn (p : Char → Bool) : Language Char := {word | ∃ c, p c = true ∧ word = [c]}

/-- A character of the class `p` and then any number of characters of the class `q`. -/
def runsOf (p q : Char → Bool) : Language Char := charsIn p * (charsIn q)∗

/-- One of some spellings. -/
def spelled (spellings : List String) : Language Char :=
  {word | ∃ s ∈ spellings, word = s.toList}

theorem mem_charsIn {p : Char → Bool} {word : List Char} :
    word ∈ charsIn p ↔ ∃ c, p c = true ∧ word = [c] := Iff.rfl

theorem mem_spelled {spellings : List String} {word : List Char} :
    word ∈ spelled spellings ↔ ∃ s ∈ spellings, word = s.toList := Iff.rfl

/-- A sequence of characters of a class has no other characters. -/
theorem mem_kstar_charsIn {p : Char → Bool} {word : List Char} :
    word ∈ (charsIn p)∗ ↔ ∀ c ∈ word, p c = true := by
  rw [Language.mem_kstar]
  constructor
  · rintro ⟨pieces, rfl, hpieces⟩ c hc
    obtain ⟨piece, hpiece, hcp⟩ := List.mem_flatten.mp hc
    obtain ⟨d, hd, rfl⟩ := mem_charsIn.mp (hpieces piece hpiece)
    rwa [List.mem_singleton.mp hcp]
  · intro h
    refine ⟨word.map fun c => [c], ?_, fun piece hpiece => ?_⟩
    · rw [← List.flatMap_def, List.flatMap_singleton']
    obtain ⟨c, hc, rfl⟩ := List.mem_map.mp hpiece
    exact ⟨c, h c hc, rfl⟩

/-- A run is a character of the first class and then any of the second. -/
theorem mem_runsOf {p q : Char → Bool} {word : List Char} :
    word ∈ runsOf p q ↔ ∃ c cs, p c = true ∧ (∀ d ∈ cs, q d = true) ∧ word = c :: cs := by
  rw [runsOf, Language.mem_mul]
  constructor
  · rintro ⟨first, ⟨c, hc, rfl⟩, cs, hcs, rfl⟩
    exact ⟨c, cs, hc, mem_kstar_charsIn.mp hcs, rfl⟩
  · rintro ⟨c, cs, hc, hcs, rfl⟩
    exact ⟨[c], ⟨c, hc, rfl⟩, cs, mem_kstar_charsIn.mpr hcs, rfl⟩

theorem forall_of_mem_runsOf {p : Char → Bool} {word : List Char} (h : word ∈ runsOf p p) :
    ∀ c ∈ word, p c = true := by
  obtain ⟨c, cs, hc, hcs, rfl⟩ := mem_runsOf.mp h
  exact List.forall_mem_cons.mpr ⟨hc, hcs⟩

end Languages

variable {τ : Type} {rules : List (Rule τ)} {read : Reader τ}

/-- The earliest rule that has the word gives its token. -/
inductive FirstMatch : List (Rule τ) → List Char → Option τ → Prop
  | here {rule : Rule τ} {rules : List (Rule τ)} {word : List Char} :
      word ∈ rule.language → FirstMatch (rule :: rules) word (rule.token? word)
  | later {rule : Rule τ} {rules : List (Rule τ)} {word : List Char} {token? : Option τ} :
      word ∉ rule.language → FirstMatch rules word token? → FirstMatch (rule :: rules) word token?

/-- The earliest rule that has a word gives one token. -/
theorem FirstMatch.unique {word : List Char} {t u : Option τ} (ht : FirstMatch rules word t)
    (hu : FirstMatch rules word u) : t = u := by
  induction ht with
  | here hword =>
      cases hu with
      | here => rfl
      | later hnot => exact absurd hword hnot
  | later hnot _ ih =>
      cases hu with
      | here hword => exact absurd hword hnot
      | later _ hrest => exact ih hrest

/-- The rules take `word` from the start of a text, and its token is `token?`. -/
structure Takes (rules : List (Rule τ)) (text word : List Char) (token? : Option τ) : Prop where
  ne_nil : word ≠ []
  starts : word <+: text
  longest : ∀ rule ∈ rules, ∀ other ∈ rule.language, other <+: text → other.length ≤ word.length
  first : FirstMatch rules word token?

/-- A token is given by a rule that has the word. -/
theorem FirstMatch.exists_rule {word : List Char} {t : Option τ} (h : FirstMatch rules word t) :
    ∃ rule ∈ rules, word ∈ rule.language ∧ t = rule.token? word := by
  induction h with
  | here hword => exact ⟨_, List.mem_cons_self, hword, rfl⟩
  | later _ _ ih =>
      obtain ⟨rule, hrule, hword⟩ := ih
      exact ⟨rule, List.mem_cons_of_mem _ hrule, hword⟩

/-- The token comes from one of the first rules, or no such rule has the word. -/
theorem FirstMatch.append_cases {others : List (Rule τ)} {word : List Char} {t : Option τ}
    (h : FirstMatch (rules ++ others) word t) :
    (∃ rule ∈ rules, word ∈ rule.language ∧ t = rule.token? word) ∨
      (∀ rule ∈ rules, word ∉ rule.language) ∧ FirstMatch others word t := by
  induction rules with
  | nil => exact Or.inr ⟨List.forall_mem_nil _, h⟩
  | cons rule rules ih =>
      cases h with
      | here hword => exact Or.inl ⟨rule, List.mem_cons_self, hword, rfl⟩
      | later hnot hrest =>
          rcases ih hrest with ⟨found, hfound, hword⟩ | ⟨hnone, hothers⟩
          · exact Or.inl ⟨found, List.mem_cons_of_mem _ hfound, hword⟩
          · exact Or.inr ⟨List.forall_mem_cons.mpr ⟨hnot, hnone⟩, hothers⟩

/-- The rules leave no choice. -/
theorem Takes.unique {text word word' : List Char} {t t' : Option τ}
    (h : Takes rules text word t) (h' : Takes rules text word' t') : word = word' ∧ t = t' := by
  obtain ⟨rule, hrule, hword, -⟩ := h.first.exists_rule
  obtain ⟨rule', hrule', hword', -⟩ := h'.first.exists_rule
  have hle := h'.longest rule hrule word hword h.starts
  have hge := h.longest rule' hrule' word' hword' h'.starts
  have hprefix : word <+: word' := List.prefix_of_prefix_length_le h.starts h'.starts hle
  obtain rfl := hprefix.eq_of_length (Nat.le_antisymm hle hge)
  exact ⟨rfl, h.first.unique h'.first⟩

/-- A piece fits its token; without a token it is a separator. -/
def Fits (separates : String → Prop) (hasPiece : τ → String → Prop) (piece : String) :
    Option τ → Prop
  | none => separates piece
  | some t => hasPiece t piece

/-- The tokens that the rules find in a text. -/
inductive Tokenizes (rules : List (Rule τ)) : List Char → List τ → Prop
  | nil : Tokenizes rules [] []
  | piece {word rest : List Char} {token? : Option τ} {ts : List τ} :
      Takes rules (word ++ rest) word token? → Tokenizes rules rest ts →
      Tokenizes rules (word ++ rest) (token?.toList ++ ts)

/-- What a reader reads first is what the rules take. -/
def Implements (read : Reader τ) (rules : List (Rule τ)) : Prop :=
  ∀ c cs, Takes rules (c :: cs) (c :: cs.take (read c cs).2) (read c cs).1

/-- A reader implements the rules if no rule has a longer piece than it takes and the earliest rule
with the piece gives its token. -/
theorem implements_of_longest (hle : ∀ c cs, (read c cs).2 ≤ cs.length)
    (hlongest : ∀ rule ∈ rules, ∀ other ∈ rule.language, ∀ c cs, other <+: c :: cs →
      other.length ≤ (read c cs).2 + 1)
    (hfirst : ∀ c cs, FirstMatch rules (c :: cs.take (read c cs).2) (read c cs).1) :
    Implements read rules := by
  intro c cs
  have hlength : (c :: cs.take (read c cs).2).length = (read c cs).2 + 1 := by
    rw [List.length_cons, List.length_take, Nat.min_eq_left (hle c cs)]
  refine ⟨List.cons_ne_nil _ _, List.cons_prefix_cons.mpr ⟨rfl, List.take_prefix _ _⟩, ?_,
    hfirst c cs⟩
  intro rule hrule other hother hprefix
  rw [hlength]
  exact hlongest rule hrule other hother c cs hprefix

/-- The lexemes that the rules find in a text whose first byte has the number `pos`. -/
inductive Lexed (rules : List (Rule τ)) : Nat → List Char → List (Lexeme τ) → Prop
  | nil {pos : Nat} : Lexed rules pos [] []
  | piece {pos : Nat} {word rest : List Char} {token? : Option τ} {ls : List (Lexeme τ)} :
      Takes rules (word ++ rest) word token? → Lexed rules (pos + byteLength word) rest ls →
      Lexed rules pos (word ++ rest)
        ((token?.map fun t => ⟨t, pos, pos + byteLength word⟩).toList ++ ls)

/-- Tokens are found where lexemes are. -/
theorem tokenizes_iff_exists_lexed (pos : Nat) {text : List Char} {ts : List τ} :
    Tokenizes rules text ts ↔ ∃ ls, Lexed rules pos text ls ∧ ls.map (·.token) = ts := by
  constructor
  · intro h
    induction h generalizing pos with
    | nil => exact ⟨[], .nil, rfl⟩
    | @piece word rest token? ts hpiece _ ih =>
        obtain ⟨ls, hls, rfl⟩ := ih (pos + byteLength word)
        refine ⟨_, .piece hpiece hls, ?_⟩
        cases token? <;> rfl
  · rintro ⟨ls, hls, rfl⟩
    induction hls with
    | nil => exact .nil
    | @piece pos word rest token? ls hpiece _ ih =>
        have hts := Tokenizes.piece hpiece ih
        cases token? <;> exact hts

/-- A reader that implements the rules finds the lexemes of a text that the rules find. -/
theorem Implements.lexed_iff (h : Implements read rules) {pos : Nat} {text : List Char}
    {ls : List (Lexeme τ)} : Lexed rules pos text ls ↔ ls = lexemesAt read pos text := by
  constructor
  · intro hls
    induction hls with
    | nil => rfl
    | @piece pos word rest token? ls hpiece _ ih =>
        cases word with
        | nil => exact absurd rfl hpiece.ne_nil
        | cons c word =>
            obtain ⟨hword, rfl⟩ := hpiece.unique (h c (word ++ rest))
            have htake := (List.cons.inj hword).2
            have hrest : (word ++ rest).drop (read c (word ++ rest)).2 = rest := by
              have hsplit := List.take_append_drop (read c (word ++ rest)).2 (word ++ rest)
              rw [← htake] at hsplit
              exact List.append_cancel_left hsplit
            rw [List.cons_append, lexemesAt_cons, hrest, ← htake, ih]
  · rintro rfl
    induction hn : text.length using Nat.strongRecOn generalizing pos text with
    | ind n ih =>
        cases text with
        | nil => exact .nil
        | cons c cs =>
            have hpiece := h c cs
            have hshorter : (cs.drop (read c cs).2).length < n := by
              rw [List.length_drop, ← hn, List.length_cons]
              omega
            have hrest : ∀ start, Lexed rules start (cs.drop (read c cs).2)
                (lexemesAt read start (cs.drop (read c cs).2)) := fun _ => ih _ hshorter rfl
            have hsplit : c :: cs = (c :: cs.take (read c cs).2) ++ cs.drop (read c cs).2 := by
              rw [List.cons_append, List.take_append_drop]
            rw [lexemesAt_cons]
            generalize read c cs = result at hpiece hrest hsplit ⊢
            rw [hsplit] at hpiece ⊢
            exact .piece hpiece (hrest _)

/-- A reader that implements the rules finds the tokens of a text that the rules find. -/
theorem Implements.tokenizes_iff (h : Implements read rules) {text : List Char} {ts : List τ} :
    Tokenizes rules text ts ↔ ts = tokens read text := by
  rw [tokenizes_iff_exists_lexed 0]
  simp only [h.lexed_iff, exists_eq_left, eq_comm (b := ts)]
  rfl

section Pieces

/-- No word of a class goes beyond the run in front. -/
theorem length_le_takeWhile {p : Char → Bool} {word cs : List Char} (h : word <+: cs)
    (hword : ∀ c ∈ word, p c = true) : word.length ≤ (cs.takeWhile p).length := by
  obtain ⟨rest, rfl⟩ := h
  rw [List.takeWhile_append_of_pos hword, List.length_append]
  exact Nat.le_add_right _ _

/-- A run of characters is read to its end if the reader takes such runs. -/
theorem length_le_of_run {p q : Char → Bool} {word : List Char} (hword : word ∈ runsOf p q)
    {c : Char} {cs : List Char} (h : word <+: c :: cs)
    (hread : p c = true → (read c cs).2 = (cs.takeWhile q).length) :
    word.length ≤ (read c cs).2 + 1 := by
  obtain ⟨d, ds, hd, hds, rfl⟩ := mem_runsOf.mp hword
  obtain ⟨rfl, hrest⟩ := List.cons_prefix_cons.mp h
  rw [hread hd, List.length_cons]
  exact Nat.succ_le_succ (length_le_takeWhile hrest hds)

/-- What is taken from a first character on is a run. -/
theorem cons_takeWhile_mem_runsOf {p q : Char → Bool} {c : Char} (h : p c = true)
    (cs : List Char) : c :: cs.takeWhile q ∈ runsOf p q :=
  mem_runsOf.mpr ⟨c, _, h, fun _ hd => List.mem_takeWhile_imp hd, rfl⟩

theorem not_mem_runsOf {p q : Char → Bool} {c : Char} (h : p c = false) (cs : List Char) :
    c :: cs ∉ runsOf p q := by
  rintro hmem
  obtain ⟨d, ds, hd, -, heq⟩ := mem_runsOf.mp hmem
  rw [(List.cons.inj heq).1, hd] at h
  exact nomatch h

theorem take_length_takeWhile (p : Char → Bool) (cs : List Char) :
    cs.take (cs.takeWhile p).length = cs.takeWhile p :=
  (List.prefix_iff_eq_take.mp (List.takeWhile_prefix p)).symm

theorem take_of_head? {cs : List Char} {d : Char} (h : cs.head? = some d) : cs.take 1 = [d] := by
  obtain ⟨rest, rfl⟩ := List.head?_eq_some_iff.mp h
  rfl

theorem take_of_isPrefixOf (word : List Char) {cs : List Char} (h : word.isPrefixOf cs = true) :
    cs.take word.length = word :=
  (List.prefix_iff_eq_take.mp (List.isPrefixOf_iff_prefix.mp h)).symm

end Pieces

section Signs

/-- The rule of a sign: its spellings and its token. -/
def signRule (sign : List String × τ) : Rule τ := ⟨spelled sign.1, fun _ => some sign.2⟩

/-- The token of the first sign with a spelling. -/
def signOf (signs : List (List String × τ)) (word : List Char) : Option τ :=
  (signs.find? fun sign => sign.1.any fun s => s.toList == word).map (·.2)

/-- The rule of a sign has its spellings. -/
theorem mem_signRule_iff {sign : List String × τ} {word : List Char} :
    word ∈ (signRule sign).language ↔ (sign.1.any fun s => s.toList == word) = true := by
  rw [signRule, mem_spelled, List.any_eq_true]
  simp only [beq_iff_eq, eq_comm (a := word)]

/-- The first sign with a spelling comes before the rules that follow the signs. -/
theorem firstMatch_signs (signs : List (List String × τ)) {others : List (Rule τ)}
    {word : List Char} {token? : Option τ}
    (h : signOf signs word = none → FirstMatch others word token?) :
    FirstMatch (signs.map signRule ++ others) word ((signOf signs word).or token?) := by
  induction signs with
  | nil => exact h rfl
  | cons sign signs ih =>
      rw [List.map_cons, List.cons_append]
      cases hspelled : sign.1.any fun s => s.toList == word with
      | true =>
          have hfound : signOf (sign :: signs) word = some sign.2 := by
            simp [signOf, hspelled]
          rw [hfound]
          exact .here (mem_signRule_iff.mpr hspelled)
      | false =>
          have hpassed : signOf (sign :: signs) word = signOf signs word := by
            simp [signOf, hspelled]
          rw [hpassed] at h ⊢
          refine .later (fun hmem => ?_) (ih h)
          rw [mem_signRule_iff, hspelled] at hmem
          exact nomatch hmem

/-- A word that spells no sign has no token as one. -/
theorem signOf_eq_none {signs : List (List String × τ)} {word : List Char}
    (h : ∀ sign ∈ signs, ∀ s ∈ sign.1, s.toList ≠ word) : signOf signs word = none := by
  rw [signOf, Option.map_eq_none_iff, List.find?_eq_none]
  intro sign hsign hspelled
  obtain ⟨s, hs, heq⟩ := List.any_eq_true.mp hspelled
  exact h sign hsign s hs (beq_iff_eq.mp heq)

/-- Signs come before all other rules. -/
theorem firstMatch_of_signOf {signs : List (List String × τ)} {word : List Char} {t : τ}
    (h : signOf signs word = some t) (others : List (Rule τ)) :
    FirstMatch (signs.map signRule ++ others) word (some t) := by
  have hnone : signOf signs word = none → FirstMatch others word none := by
    intro hnone
    rw [h] at hnone
    exact nomatch hnone
  have hmatch := firstMatch_signs signs hnone
  rwa [h] at hmatch

/-- A sign that is read is the one that its characters spell. -/
theorem firstMatch_taken {signs : List (List String × τ)} {others : List (Rule τ)} {c : Char}
    {cs word : List Char} {more : Nat} {t : τ} (htake : cs.take more = word)
    (h : signOf signs (c :: word) = some t) :
    FirstMatch (signs.map signRule ++ others) (c :: cs.take more) (some t) := by
  rw [htake]
  exact firstMatch_of_signOf h others

end Signs

end ProcessLogic.Text
