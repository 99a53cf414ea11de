import ProcessLogic.Proofs.Formula.Token
import ProcessLogic.Proofs.Text.LongestMatch

/-!
# The lexical rules of formulas

Blanks separate, signs and constants have their spellings, identifiers are what else starts with a
small letter, and any other character is a token by itself. The reader of formula texts takes
what these rules take: the longest piece, and of the rules that have it the earliest.
-/

namespace ProcessLogic.Formula.Token

open Text

/-- The signs and constants with their spellings, in the order of their rules. -/
def signs : List (List String × Token) :=
  [(["("], .openParen), ([")"], .closeParen), (["true", "True", "TRUE"], .const true),
    (["false", "False", "FALSE"], .const false), (["!", "~"], .unary .not),
    (["&", "&&"], .binary .and), (["|", "||"], .binary .or), (["->"], .binary .implies),
    (["<->"], .binary .equiv), (["X"], .unary .next), (["WX"], .unary .weakNext),
    (["G"], .unary .always), (["F"], .unary .eventually), (["U"], .binary .until),
    (["R"], .binary .release), (["W"], .binary .weakUntil)]

/-- The rules after those of the signs: identifiers, and any other character by itself. -/
def lastRules : List (Rule Token) :=
  [⟨runsOf startsIdent continuesIdent, fun word => some (.ident (.ofList word))⟩,
    ⟨charsIn fun _ => true, fun word => word.head?.map .stray⟩]

/-- The lexical rules in their order. -/
def rules : List (Rule Token) :=
  ⟨runsOf isSpace isSpace, fun _ => none⟩ :: (signs.map signRule ++ lastRules)

section Longest

/-- The signs of more than one character that are no words. -/
def longSigns : List String := ["True", "TRUE", "False", "FALSE", "&&", "||", "->", "<->", "WX"]

/-- A sign is spelled by one character, by an identifier or by a long sign. -/
theorem spelling_cases : ∀ sign ∈ signs, ∀ s ∈ sign.1,
    s.toList.length = 1 ∨ isIdent s = true ∨ s ∈ longSigns := by
  decide

/-- A sign of more than one character is read to its end. -/
theorem length_le_of_longSign {s : String} (hs : s ∈ longSigns) {c : Char} {cs : List Char}
    (h : s.toList <+: c :: cs) : s.toList.length ≤ (read c cs).2 + 1 := by
  obtain ⟨rest, h⟩ := h
  simp only [longSigns, List.mem_cons, List.not_mem_nil, or_false] at hs
  rcases hs with rfl | rfl | rfl | rfl | rfl | rfl | rfl | rfl | rfl <;>
  · obtain ⟨rfl, rfl⟩ := List.cons.inj h
    exact Nat.le_refl _

/-- Identifiers are runs of their characters. -/
theorem mem_runsOf_of_isIdent {s : String} (h : isIdent s = true) :
    s.toList ∈ runsOf startsIdent continuesIdent := by
  obtain ⟨c, cs, hs, hc, hcs⟩ := isIdent_iff.mp h
  exact mem_runsOf.mpr ⟨c, cs, hc, hcs, hs⟩

/-- No rule has a longer piece than the reader takes. -/
theorem length_le_read {rule : Rule Token} (hrule : rule ∈ rules) {other : List Char}
    (hother : other ∈ rule.language) {c : Char} {cs : List Char} (h : other <+: c :: cs) :
    other.length ≤ (read c cs).2 + 1 := by
  have hword : other ∈ runsOf startsIdent continuesIdent → other.length ≤ (read c cs).2 + 1 :=
    fun hrun => length_le_of_run hrun h fun hc => by rw [read_word hc]
  simp only [rules, lastRules, List.mem_cons, List.mem_append, List.mem_map, List.not_mem_nil,
    or_false] at hrule
  rcases hrule with rfl | ⟨sign, hsign, rfl⟩ | rfl | rfl
  · exact length_le_of_run hother h fun hc => by rw [read_space hc]
  · obtain ⟨s, hs, rfl⟩ := mem_spelled.mp hother
    rcases spelling_cases sign hsign s hs with hone | hident | hlong
    · omega
    · exact hword (mem_runsOf_of_isIdent hident)
    · exact length_le_of_longSign hlong h
  · exact hword hother
  · obtain ⟨d, -, rfl⟩ := mem_charsIn.mp hother
    exact Nat.le_add_left 1 _

end Longest

section Earliest

/-- Of the signs only the constants in small letters look like identifiers. -/
theorem eq_of_isIdent : ∀ sign ∈ signs, ∀ s ∈ sign.1, isIdent s = true →
    s = "true" ∨ s = "false" := by
  decide

/-- A word is a constant if it is spelled so, and else an identifier. -/
theorem signOf_word {word : List Char} (h : isIdent (.ofList word) = true) :
    (signOf signs word).or (some (.ident (.ofList word))) = some (ofWord (.ofList word)) := by
  by_cases htrue : String.ofList word = "true"
  · obtain rfl : word = "true".toList := by rw [← htrue, String.toList_ofList]
    rfl
  by_cases hfalse : String.ofList word = "false"
  · obtain rfl : word = "false".toList := by rw [← hfalse, String.toList_ofList]
    rfl
  have hnone : signOf signs word = none := by
    refine signOf_eq_none fun sign hsign s hs heq => ?_
    subst heq
    rw [String.ofList_toList] at h htrue hfalse
    rcases eq_of_isIdent sign hsign s hs h with rfl | rfl
    · exact htrue rfl
    · exact hfalse rfl
  rw [hnone, Option.none_or, ofWord, if_neg htrue, if_neg hfalse]

/-- A character by itself that is no sign is a stray one. -/
theorem firstMatch_stray {c : Char} (hc : startsIdent c = false)
    (h : signOf signs [c] = none) :
    FirstMatch (signs.map signRule ++ lastRules) [c] (some (.stray c)) := by
  have hlast : FirstMatch lastRules [c] (some (.stray c)) :=
    .later (not_mem_runsOf hc []) (.here ⟨c, rfl, rfl⟩)
  have hmatch := firstMatch_signs signs fun _ => hlast
  rwa [h] at hmatch

/-- The piece that the reader takes has the token of the earliest rule that has the piece. -/
theorem firstMatch_read (c : Char) (cs : List Char) :
    FirstMatch rules (c :: cs.take (read c cs).2) (read c cs).1 := by
  by_cases hspace : isSpace c = true
  · rw [read_space hspace, take_length_takeWhile]
    exact .here (cons_takeWhile_mem_runsOf hspace cs)
  refine .later (not_mem_runsOf (Bool.not_eq_true _ ▸ hspace) _) ?_
  by_cases hident : startsIdent c = true
  · rw [read_word hident, take_length_takeWhile, ← signOf_word]
    · exact firstMatch_signs signs fun _ => .here (cons_takeWhile_mem_runsOf hident cs)
    · have hrest : ∀ d ∈ cs.takeWhile continuesIdent, continuesIdent d = true :=
        fun d hd => List.mem_takeWhile_imp hd
      exact isIdent_iff.mpr ⟨c, _, String.toList_ofList, hident, hrest⟩
  unfold read
  rw [if_neg hspace, if_neg hident]
  -- one case for each character with which a sign starts, and one for all others
  split
  case h_1 | h_2 | h_3 | h_4 | h_9 | h_10 | h_11 | h_12 => exact firstMatch_of_signOf rfl _
  case h_5 | h_6 =>
    split
    · exact firstMatch_taken (take_of_head? ‹_›) rfl
    · exact firstMatch_of_signOf rfl _
  case h_7 =>
    split
    · exact firstMatch_taken (take_of_head? ‹_›) rfl
    · exact firstMatch_stray rfl rfl
  case h_8 =>
    split
    · exact firstMatch_taken (take_of_isPrefixOf ['-', '>'] ‹_›) rfl
    · exact firstMatch_stray rfl rfl
  case h_13 =>
    split
    · exact firstMatch_taken (take_of_head? ‹_›) rfl
    · exact firstMatch_of_signOf rfl _
  case h_14 =>
    split
    · rename_i h
      rcases Bool.or_eq_true_iff.mp h with h | h
      · exact firstMatch_taken (take_of_isPrefixOf ['r', 'u', 'e'] h) rfl
      · exact firstMatch_taken (take_of_isPrefixOf ['R', 'U', 'E'] h) rfl
    · exact firstMatch_stray rfl rfl
  case h_15 =>
    split
    · rename_i h
      rcases Bool.or_eq_true_iff.mp h with h | h
      · exact firstMatch_taken (take_of_isPrefixOf ['a', 'l', 's', 'e'] h) rfl
      · exact firstMatch_taken (take_of_isPrefixOf ['A', 'L', 'S', 'E'] h) rfl
    · exact firstMatch_of_signOf rfl _
  case h_16 =>
    refine firstMatch_stray (Bool.not_eq_true _ ▸ hident) ?_
    simp_all [signOf, signs, eq_comm (b := c)]

end Earliest

/-- The reader of formula texts takes what the rules take. -/
theorem implements_read : Implements read rules :=
  implements_of_longest read_le (fun _ hrule _ hother _ _ => length_le_read hrule hother)
    firstMatch_read

section Content

/-- How the piece of a token determines what the token says. -/
def HasPiece : Token → String → Prop
  | .ident name, piece => name = piece
  | .stray c, piece => piece = String.singleton c
  | token, piece => ∃ sign ∈ signs, sign.2 = token ∧ piece ∈ sign.1

/-- The separators between tokens. -/
def IsSeparator (piece : String) : Prop := ∀ c ∈ piece.toList, isSpace c = true

/-- Pieces without a token are blanks, and the others have what their tokens say. -/
theorem fits_of_firstMatch {word : List Char} {token? : Option Token}
    (h : FirstMatch rules word token?) : Fits IsSeparator HasPiece (.ofList word) token? := by
  have hsigns : ∀ sign ∈ signs, ∀ s ∈ sign.1, sign.2.HasPiece s := by
    simp [signs, HasPiece]
  obtain ⟨rule, hrule, hword, rfl⟩ := h.exists_rule
  simp only [rules, lastRules, List.mem_cons, List.mem_append, List.mem_map, List.not_mem_nil,
    or_false] at hrule
  rcases hrule with rfl | ⟨sign, hsign, rfl⟩ | rfl | rfl
  · intro c hc
    rw [String.toList_ofList] at hc
    exact forall_of_mem_runsOf hword c hc
  · obtain ⟨s, hs, rfl⟩ := mem_spelled.mp hword
    rw [String.ofList_toList]
    exact hsigns sign hsign s hs
  · exact rfl
  · obtain ⟨c, -, rfl⟩ := mem_charsIn.mp hword
    exact String.singleton_eq_ofList.symm

end Content

section Spelling

/-- No rule has an empty piece. -/
theorem ne_nil_of_mem_language {rule : Rule Token} (hrule : rule ∈ rules) {word : List Char}
    (hword : word ∈ rule.language) : word ≠ [] := by
  have hrun : ∀ {p q : Char → Bool}, word ∈ runsOf p q → word ≠ [] := by
    intro p q hword
    obtain ⟨c, cs, -, -, rfl⟩ := mem_runsOf.mp hword
    exact List.cons_ne_nil c cs
  have hspelled : ∀ sign ∈ signs, ∀ s ∈ sign.1, s.toList ≠ [] := by decide
  simp only [rules, lastRules, List.mem_cons, List.mem_append, List.mem_map, List.not_mem_nil,
    or_false] at hrule
  rcases hrule with rfl | ⟨sign, hsign, rfl⟩ | rfl | rfl
  · exact hrun hword
  · obtain ⟨s, hs, rfl⟩ := mem_spelled.mp hword
    exact hspelled sign hsign s hs
  · exact hrun hword
  · obtain ⟨c, -, rfl⟩ := mem_charsIn.mp hword
    exact List.cons_ne_nil c []

/-- The canonical spelling: of a sign the first that its rule has, of an identifier its name, and of
a stray character the character. -/
def IsCanonical : Token → String → Prop
  | .ident name, s => s = name
  | .stray c, s => s = String.singleton c
  | token, s => ∃ sign ∈ signs, sign.2 = token ∧ sign.1.head? = some s

/-- The spelling of a token is the canonical one. -/
theorem isCanonical_spelling (t : Token) : t.IsCanonical t.spelling := by
  cases t with
  | ident name => rfl
  | stray c => rfl
  | openParen => exact ⟨_, .head _, rfl, rfl⟩
  | closeParen => exact ⟨_, .tail _ (.head _), rfl, rfl⟩
  | const value => cases value <;> simp [IsCanonical, signs, spelling]
  | unary op => cases op <;> simp [IsCanonical, signs, spelling, PrefixOp.sign]
  | binary op => cases op <;> simp [IsCanonical, signs, spelling, BinaryOp.sign]

/-- The spelling of a sign is one of its own spellings, and no blank. -/
theorem signOf_spelling : ∀ sign ∈ signs, signOf signs sign.2.spelling.toList = some sign.2 ∧
    sign.2.spelling.toList.head?.any isSpace = false := by
  decide

/-- The spelling of a token that is read from some piece is a piece of this token. -/
theorem firstMatch_spelling {word : List Char} {t : Token} (h : FirstMatch rules word (some t)) :
    FirstMatch rules t.spelling.toList (some t) := by
  obtain ⟨rule, hrule, hword, ht⟩ := h.exists_rule
  simp only [rules, lastRules, List.mem_cons, List.mem_append, List.mem_map, List.not_mem_nil,
    or_false] at hrule
  rcases hrule with rfl | ⟨sign, hsign, rfl⟩ | rfl | rfl
  · exact nomatch ht
  · obtain rfl := Option.some.inj ht
    obtain ⟨hsign, hblank⟩ := signOf_spelling sign hsign
    refine .later (fun hspace => ?_) (firstMatch_of_signOf hsign _)
    obtain ⟨c, cs, hc, -, heq⟩ := mem_runsOf.mp hspace
    rw [heq, List.head?_cons, Option.any_some, hc] at hblank
    exact nomatch hblank
  · obtain rfl := Option.some.inj ht
    rwa [spelling, String.toList_ofList]
  · obtain ⟨c, -, rfl⟩ := mem_charsIn.mp hword
    obtain rfl := Option.some.inj ht
    rwa [spelling, String.toList_singleton]

/-- Whatever a token was read from, its spelling is read as this token. -/
theorem scan_spelling {word : List Char} {t : Token} (h : FirstMatch rules word (some t)) :
    scan t.spelling = [⟨t, 0, t.spelling.utf8ByteSize⟩] := by
  have hfirst := firstMatch_spelling h
  obtain ⟨rule, hrule, hmem, -⟩ := hfirst.exists_rule
  have htakes : Takes rules (t.spelling.toList ++ []) t.spelling.toList (some t) := by
    rw [List.append_nil]
    exact ⟨ne_nil_of_mem_language hrule hmem, List.prefix_refl _,
      fun _ _ _ _ hprefix => hprefix.length_le, hfirst⟩
  have hend : Lexed rules (0 + byteLength t.spelling.toList) [] [] := .nil
  have hlexed := Lexed.piece htakes hend
  rw [List.append_nil, Nat.zero_add, byteLength_toList] at hlexed
  exact (implements_read.lexed_iff.mp hlexed).symm

end Spelling

section Stray

/-- Only the last rule gives stray characters. -/
theorem ne_stray_of_mem_dropLast {rule : Rule Token} (hrule : rule ∈ rules.dropLast)
    (word : List Char) (c : Char) : rule.token? word ≠ some (.stray c) := by
  have hcases : rule ∈ ⟨runsOf isSpace isSpace, fun _ => none⟩ :: (signs.map signRule ++
      [⟨runsOf startsIdent continuesIdent, fun word => some (.ident (.ofList word))⟩]) := hrule
  have hsigns : ∀ sign ∈ signs, sign.2 ≠ .stray c := by simp [signs]
  simp only [List.mem_cons, List.mem_append, List.mem_map, List.not_mem_nil, or_false] at hcases
  rcases hcases with rfl | ⟨sign, hsign, rfl⟩ | rfl
  · exact nofun
  · exact fun h => hsigns sign hsign (Option.some.inj h)
  · exact nofun

/-- A stray character is one with which no piece of another rule starts. -/
theorem stray_iff_of_takes {text word : List Char} {t : Token} (h : Takes rules text word (some t)) :
    (∃ c, t = .stray c) ↔ ∀ rule ∈ rules.dropLast, ∀ other ∈ rule.language, ¬ other <+: text := by
  have hsplit : rules = rules.dropLast ++ [⟨charsIn fun _ => true, fun word => word.head?.map .stray⟩] :=
    rfl
  have hfirst := h.first
  rw [hsplit] at hfirst
  rcases hfirst.append_cases with ⟨rule, hrule, hword, ht⟩ | ⟨hnone, hlast⟩
  · constructor
    · rintro ⟨c, rfl⟩
      exact absurd ht.symm (ne_stray_of_mem_dropLast hrule word c)
    · exact fun hno => absurd h.starts (hno rule hrule word hword)
  · obtain ⟨c, rfl, rfl⟩ : ∃ c, word = [c] ∧ t = .stray c := by
      generalize ht : some t = token? at hlast
      cases hlast with
      | later _ hnil => exact nomatch hnil
      | here hword =>
          obtain ⟨c, -, rfl⟩ := mem_charsIn.mp hword
          exact ⟨c, rfl, Option.some.inj ht⟩
    refine iff_of_true ⟨c, rfl⟩ fun rule hrule other hother hprefix => ?_
    -- a piece of another rule would be the same character, which the other rule has not
    have hmem := List.mem_of_mem_dropLast hrule
    have hle := h.longest rule hmem other hother hprefix
    have hpos := List.length_pos_iff.mpr (ne_nil_of_mem_language hmem hother)
    have hsame : other = [c] :=
      (List.prefix_of_prefix_length_le hprefix h.starts hle).eq_of_length (by simp at hle ⊢; omega)
    exact hnone rule hrule (hsame ▸ hother)

end Stray

end ProcessLogic.Formula.Token
