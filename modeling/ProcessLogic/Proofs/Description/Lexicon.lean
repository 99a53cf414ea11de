import ProcessLogic.Proofs.Description.Token
import ProcessLogic.Proofs.Text.LongestMatch

/-!
# The lexical rules of descriptions

Blanks and comments separate, keywords and signs have their spellings, a quoted text ends at the
first quote that no backslash takes, identifiers are the other runs of their characters, and any
other character is a token by itself. The reader of descriptions takes what these rules take: the
longest piece, and of the rules that have it the earliest.
-/

namespace ProcessLogic.Description.Token

open Text

section Languages

open scoped Computability

/-- Two slashes and the rest of their line. -/
def comments : Language Char := spelled ["//"] * (charsIn (· != '\n'))∗

/-- What stands between the quotes of a quoted text: a backslash with the character after it, or
any other character that is no quote. -/
def quotedUnits : Language Char :=
  charsIn (fun c => c != '"' && c != '\\') + charsIn (· == '\\') * charsIn fun _ => true

/-- Quoted texts. -/
def quotedTexts : Language Char := charsIn (· == '"') * (quotedUnits∗ * charsIn (· == '"'))

/-- A backslash takes the next character literally. -/
def unescaped : List Char → List Char
  | [] => []
  | ['\\'] => []
  | '\\' :: c :: cs => c :: unescaped cs
  | c :: cs => c :: unescaped cs

/-- A character that is no backslash stands for itself. -/
theorem unescaped_cons {c : Char} (h : c ≠ '\\') (cs : List Char) :
    unescaped (c :: cs) = c :: unescaped cs := by
  rw [unescaped]
  · exact fun hc _ => h hc
  · exact fun _ _ hc _ => h hc

/-- A comment is two slashes and the rest of the line. -/
theorem mem_comments {word : List Char} :
    word ∈ comments ↔ ∃ line, (∀ c ∈ line, (c != '\n') = true) ∧ word = '/' :: '/' :: line := by
  rw [comments, Language.mem_mul]
  simp only [mem_spelled, List.mem_singleton, mem_kstar_charsIn]
  constructor
  · rintro ⟨_, ⟨_, rfl, rfl⟩, line, hline, rfl⟩
    exact ⟨line, hline, rfl⟩
  · rintro ⟨line, hline, rfl⟩
    exact ⟨_, ⟨_, rfl, rfl⟩, line, hline, rfl⟩

/-- The content of a quoted text before it is unescaped: no quote in it is free. -/
inductive QuotedBody : List Char → Prop
  | nil : QuotedBody []
  | plain {c : Char} {cs : List Char} : c ≠ '"' → c ≠ '\\' → QuotedBody cs → QuotedBody (c :: cs)
  | pair {c : Char} {cs : List Char} : QuotedBody cs → QuotedBody ('\\' :: c :: cs)

/-- A unit is a plain character, or a backslash with any character. -/
theorem mem_quotedUnits {word : List Char} :
    word ∈ quotedUnits ↔ (∃ c, c ≠ '"' ∧ c ≠ '\\' ∧ word = [c]) ∨ ∃ c, word = ['\\', c] := by
  rw [quotedUnits, Language.mem_add, Language.mem_mul]
  simp [mem_charsIn, and_assoc, eq_comm (b := word)]

/-- A body between quotes is a sequence of units. -/
theorem mem_kstar_quotedUnits {body : List Char} : body ∈ quotedUnits∗ ↔ QuotedBody body := by
  rw [Language.mem_kstar]
  constructor
  · rintro ⟨units, rfl, hunits⟩
    induction units with
    | nil => exact .nil
    | cons piece units ih =>
        obtain ⟨hpiece, hrest⟩ := List.forall_mem_cons.mp hunits
        rcases mem_quotedUnits.mp hpiece with ⟨c, hquote, hslash, rfl⟩ | ⟨c, rfl⟩
        · exact .plain hquote hslash (ih hrest)
        · exact .pair (ih hrest)
  · intro h
    induction h with
    | nil => exact ⟨[], rfl, List.forall_mem_nil _⟩
    | @plain c _ hquote hslash _ ih =>
        obtain ⟨units, rfl, hunits⟩ := ih
        have hpiece : [c] ∈ quotedUnits := mem_quotedUnits.mpr (.inl ⟨c, hquote, hslash, rfl⟩)
        exact ⟨[c] :: units, rfl, List.forall_mem_cons.mpr ⟨hpiece, hunits⟩⟩
    | @pair c _ _ ih =>
        obtain ⟨units, rfl, hunits⟩ := ih
        have hpiece : ['\\', c] ∈ quotedUnits := mem_quotedUnits.mpr (.inr ⟨c, rfl⟩)
        exact ⟨['\\', c] :: units, rfl, List.forall_mem_cons.mpr ⟨hpiece, hunits⟩⟩

/-- A quoted text is a body between two quotes. -/
theorem mem_quotedTexts {word : List Char} :
    word ∈ quotedTexts ↔ ∃ body, QuotedBody body ∧ word = '"' :: (body ++ ['"']) := by
  rw [quotedTexts, Language.mem_mul]
  simp only [Language.mem_mul, mem_charsIn, mem_kstar_quotedUnits, beq_iff_eq]
  constructor
  · rintro ⟨_, ⟨_, rfl, rfl⟩, _, ⟨body, hbody, _, ⟨_, rfl, rfl⟩, rfl⟩, rfl⟩
    exact ⟨body, hbody, rfl⟩
  · rintro ⟨body, hbody, rfl⟩
    exact ⟨_, ⟨_, rfl, rfl⟩, _, ⟨body, hbody, _, ⟨_, rfl, rfl⟩, rfl⟩, rfl⟩

end Languages

/-- The keywords and signs with their spellings, in the order of their rules. -/
def signs : List (List String × Token) :=
  [(["digraph"], .digraph), (["node"], .node), (["edge"], .edge), (["\x7b"], .openBrace),
    (["\x7d"], .closeBrace), (["["], .openBracket), (["]"], .closeBracket), ([";"], .semicolon),
    ([","], .comma), (["="], .equals), (["->"], .arrow)]

/-- The rules after those of the signs: quoted texts, identifiers, and any other character by
itself. -/
def lastRules : List (Rule Token) :=
  [⟨quotedTexts, fun word => some (.str (.ofList (unescaped word.tail.dropLast)))⟩,
    ⟨runsOf isIdentChar isIdentChar, fun word => some (.ident (.ofList word))⟩,
    ⟨charsIn fun _ => true, fun word => word.head?.map .stray⟩]

/-- The lexical rules in their order. -/
def rules : List (Rule Token) :=
  ⟨runsOf isSpace isSpace, fun _ => none⟩ :: ⟨comments, fun _ => none⟩ ::
    (signs.map signRule ++ lastRules)

section Quoted

/-- A quoted text is read up to its closing quote. -/
theorem stringBody_append {body : List Char} (h : QuotedBody body) (taken : Nat)
    (content rest : List Char) : stringBody taken content (body ++ '"' :: rest) =
      some (content.reverse ++ unescaped body, taken + body.length + 1) := by
  induction h generalizing taken content with
  | nil => simp [stringBody, unescaped]
  | @plain c cs hquote hslash _ ih =>
      rw [List.cons_append, stringBody, ih, unescaped_cons hslash]
      · simp [Nat.add_comm 1, Nat.add_assoc]
      · exact hquote
      · exact fun hc _ => hslash hc
      · exact fun _ _ hc _ => hslash hc
  | @pair c cs _ ih =>
      rw [List.cons_append, List.cons_append, stringBody, ih, unescaped]
      simp [Nat.add_comm, Nat.add_left_comm]

/-- Only quoted texts are read as such. -/
theorem exists_quotedBody {taken taken' : Nat} {content content' cs : List Char}
    (h : stringBody taken content cs = some (content', taken')) :
    ∃ body rest, QuotedBody body ∧ cs = body ++ '"' :: rest := by
  fun_induction stringBody taken content cs with
  | case1 => exact nomatch h
  | case2 taken content rest => exact ⟨[], rest, .nil, rfl⟩
  | case3 => exact nomatch h
  | case4 taken content c cs ih =>
      obtain ⟨body, rest, hbody, rfl⟩ := ih h
      exact ⟨_, rest, .pair hbody, rfl⟩
  | case5 taken content c cs hquote hlast hslash ih =>
      obtain ⟨body, rest, hbody, rfl⟩ := ih h
      refine ⟨c :: body, rest, .plain hquote ?_ hbody, rfl⟩
      rintro rfl
      cases body <;> exact hslash _ _ rfl rfl

/-- After a quote the body is read up to the closing quote. -/
theorem read_quote (cs : List Char) : read '"' cs = match stringBody 0 [] cs with
    | some (content, taken) => (some (.str (.ofList content)), taken)
    | none => (some (.stray '"'), 0) := by
  unfold read
  rw [if_neg (by decide), if_neg (by decide)]
  rfl

/-- A quoted text is read as what its body stands for. -/
theorem read_quoted {body : List Char} (h : QuotedBody body) (rest : List Char) :
    read '"' (body ++ '"' :: rest) =
      (some (.str (.ofList (unescaped body))), body.length + 1) := by
  rw [read_quote, stringBody_append h, List.reverse_nil, List.nil_append, Nat.zero_add]

/-- A quote begins a quoted text, or it stands for itself. -/
theorem read_quote_cases (cs : List Char) :
    (∃ body rest, QuotedBody body ∧ cs = body ++ '"' :: rest) ∨
      read '"' cs = (some (.stray '"'), 0) := by
  cases hbody : stringBody 0 [] cs with
  | some result => exact .inl (exists_quotedBody hbody)
  | none => exact .inr (by rw [read_quote, hbody])

end Quoted

section Longest

/-- A word is a run of characters that identifiers have. -/
def isWord (s : String) : Bool := s != "" && s.toList.all isIdentChar

/-- Words are runs of characters of identifiers. -/
theorem mem_runsOf_of_isWord {s : String} (h : isWord s = true) :
    s.toList ∈ runsOf isIdentChar isIdentChar := by
  rw [isWord, Bool.and_eq_true, bne_iff_ne] at h
  obtain ⟨hne, hall⟩ := h
  cases hs : s.toList with
  | nil => exact absurd (String.toList_eq_nil_iff.mp hs) hne
  | cons c cs =>
      rw [hs, List.all_cons, Bool.and_eq_true, List.all_eq_true] at hall
      exact mem_runsOf.mpr ⟨c, cs, hall.1, hall.2, rfl⟩

/-- A sign is spelled by one character, by a word or by an arrow. -/
theorem spelling_cases : ∀ sign ∈ signs, ∀ s ∈ sign.1,
    s.toList.length = 1 ∨ isWord s = true ∨ s = "->" := by
  decide

/-- A comment is passed over up to the end of its line. -/
theorem read_comment {cs : List Char} (h : cs.head? = some '/') :
    read '/' cs = (none, (cs.takeWhile (· != '\n')).length) := by
  unfold read
  rw [if_neg (by decide), if_neg (by decide)]
  exact if_pos h

/-- No rule has a longer piece than the reader takes. -/
theorem length_le_read {rule : Rule Token} (hrule : rule ∈ rules) {other : List Char}
    (hother : other ∈ rule.language) {c : Char} {cs : List Char} (h : other <+: c :: cs) :
    other.length ≤ (read c cs).2 + 1 := by
  have hword : other ∈ runsOf isIdentChar isIdentChar → other.length ≤ (read c cs).2 + 1 :=
    fun hrun => length_le_of_run hrun h fun hc => by rw [read_word hc]
  simp only [rules, lastRules, List.mem_cons, List.mem_append, List.mem_map, List.not_mem_nil,
    or_false] at hrule
  rcases hrule with rfl | rfl | ⟨sign, hsign, rfl⟩ | rfl | rfl | rfl
  · exact length_le_of_run hother h fun hc => by rw [read_space hc]
  · obtain ⟨line, hline, rfl⟩ := mem_comments.mp hother
    obtain ⟨rfl, hrest⟩ := List.cons_prefix_cons.mp h
    obtain ⟨rest, rfl⟩ := hrest
    rw [read_comment rfl]
    refine Nat.succ_le_succ (length_le_takeWhile (List.prefix_append _ rest) ?_)
    exact List.forall_mem_cons.mpr ⟨rfl, hline⟩
  · obtain ⟨s, hs, rfl⟩ := mem_spelled.mp hother
    rcases spelling_cases sign hsign s hs with hone | hident | rfl
    · omega
    · exact hword (mem_runsOf_of_isWord hident)
    · obtain ⟨rest, hrest⟩ := h
      obtain ⟨rfl, rfl⟩ := List.cons.inj hrest
      exact Nat.le_refl _
  · obtain ⟨body, hbody, rfl⟩ := mem_quotedTexts.mp hother
    obtain ⟨rfl, rest, rfl⟩ := List.cons_prefix_cons.mp h
    rw [List.append_assoc, List.singleton_append, read_quoted hbody]
    simp
  · exact hword hother
  · obtain ⟨d, -, rfl⟩ := mem_charsIn.mp hother
    exact Nat.le_add_left 1 _

/-- No more is read than there is. -/
theorem read_le (c : Char) (cs : List Char) : (read c cs).2 ≤ cs.length := by
  have hrun : ∀ p : Char → Bool, (cs.takeWhile p).length ≤ cs.length :=
    fun p => (List.takeWhile_sublist p).length_le
  by_cases hquote : c = '"'
  · subst hquote
    rcases read_quote_cases cs with ⟨body, rest, hbody, rfl⟩ | hstray
    · rw [read_quoted hbody]
      simp
    · rw [hstray]
      exact Nat.zero_le _
  unfold read
  split
  · exact hrun _
  split
  · exact hrun _
  split
  case h_8 =>
    split
    · obtain ⟨rest, rfl⟩ := List.head?_eq_some_iff.mp ‹_›
      exact Nat.le_add_left 1 _
    · exact Nat.zero_le _
  case h_9 =>
    split
    · exact hrun _
    · exact Nat.zero_le _
  case h_10 => exact absurd rfl hquote
  all_goals exact Nat.zero_le _

end Longest

section Earliest

/-- Of the signs only the keywords are words. -/
theorem eq_of_isWord : ∀ sign ∈ signs, ∀ s ∈ sign.1, isWord s = true →
    s = "digraph" ∨ s = "node" ∨ s = "edge" := by
  decide

/-- A word is a keyword if it is spelled so, and else an identifier. -/
theorem signOf_word {word : List Char} (h : isWord (.ofList word) = true) :
    (signOf signs word).or (some (.ident (.ofList word))) = some (ofWord (.ofList word)) := by
  by_cases hdigraph : String.ofList word = "digraph"
  · obtain rfl : word = "digraph".toList := by rw [← hdigraph, String.toList_ofList]
    rfl
  by_cases hnode : String.ofList word = "node"
  · obtain rfl : word = "node".toList := by rw [← hnode, String.toList_ofList]
    rfl
  by_cases hedge : String.ofList word = "edge"
  · obtain rfl : word = "edge".toList := by rw [← hedge, String.toList_ofList]
    rfl
  have hnone : signOf signs word = none := by
    refine signOf_eq_none fun sign hsign s hs heq => ?_
    subst heq
    rw [String.ofList_toList] at h hdigraph hnode hedge
    rcases eq_of_isWord sign hsign s hs h with rfl | rfl | rfl
    · exact hdigraph rfl
    · exact hnode rfl
    · exact hedge rfl
  rw [hnone, Option.none_or, ofWord, if_neg hdigraph, if_neg hnode, if_neg hedge]

/-- No single character is a quoted text. -/
theorem singleton_notMem_quotedTexts (c : Char) : [c] ∉ quotedTexts := by
  intro hmem
  obtain ⟨body, -, heq⟩ := mem_quotedTexts.mp hmem
  simpa using (List.cons.inj heq).2

/-- A character by itself that is no sign is a stray one. -/
theorem firstMatch_stray {c : Char} (hc : isIdentChar c = false)
    (h : signOf signs [c] = none) :
    FirstMatch (signs.map signRule ++ lastRules) [c] (some (.stray c)) := by
  have hlast : FirstMatch lastRules [c] (some (.stray c)) :=
    .later (singleton_notMem_quotedTexts c) (.later (not_mem_runsOf hc []) (.here ⟨c, rfl, rfl⟩))
  have hmatch := firstMatch_signs signs fun _ => hlast
  rwa [h] at hmatch

/-- A word is a sign or an identifier. -/
theorem firstMatch_word {word : List Char} (h : word ∈ runsOf isIdentChar isIdentChar) :
    FirstMatch (signs.map signRule ++ lastRules) word (some (ofWord (.ofList word))) := by
  obtain ⟨c, cs, hc, hcs, rfl⟩ := mem_runsOf.mp h
  have hquote : c :: cs ∉ quotedTexts := by
    intro hmem
    obtain ⟨body, -, heq⟩ := mem_quotedTexts.mp hmem
    rw [(List.cons.inj heq).1] at hc
    exact absurd hc (by decide)
  have hword : isWord (.ofList (c :: cs)) = true := by
    simp [isWord, hc, List.all_eq_true.mpr hcs]
  rw [← signOf_word hword]
  exact firstMatch_signs signs fun _ => .later hquote (.here h)

/-- A quoted text is that text, and no sign. -/
theorem firstMatch_quoted {body : List Char} (h : QuotedBody body) :
    FirstMatch (signs.map signRule ++ lastRules) ('"' :: (body ++ ['"']))
      (some (.str (.ofList (unescaped body)))) := by
  have hnone : signOf signs ('"' :: (body ++ ['"'])) = none := by
    refine signOf_eq_none fun sign hsign s hs heq => ?_
    have hhead : ∀ sign ∈ signs, ∀ s ∈ sign.1, s.toList.head? ≠ some '"' := by decide
    exact hhead sign hsign s hs (by rw [heq]; rfl)
  have hlast : FirstMatch lastRules ('"' :: (body ++ ['"']))
      (some (.str (.ofList (unescaped ('"' :: (body ++ ['"'])).tail.dropLast)))) :=
    .here (mem_quotedTexts.mpr ⟨body, h, rfl⟩)
  rw [List.tail_cons, List.dropLast_concat] at hlast
  have hmatch := firstMatch_signs signs fun _ => hlast
  rwa [hnone] at hmatch

/-- The piece that the reader takes has the token of the earliest rule that has the piece. -/
theorem firstMatch_read (c : Char) (cs : List Char) :
    FirstMatch rules (c :: cs.take (read c cs).2) (read c cs).1 := by
  by_cases hspace : isSpace c = true
  · rw [read_space hspace, take_length_takeWhile]
    exact .here (cons_takeWhile_mem_runsOf hspace cs)
  refine .later (not_mem_runsOf (Bool.not_eq_true _ ▸ hspace) _) ?_
  by_cases hcomment : c = '/' ∧ cs.head? = some '/'
  · obtain ⟨rfl, hslash⟩ := hcomment
    rw [read_comment hslash, take_length_takeWhile]
    obtain ⟨line, rfl⟩ := List.head?_eq_some_iff.mp hslash
    refine .here (mem_comments.mpr ⟨line.takeWhile (· != '\n'), ?_, rfl⟩)
    exact fun d hd => List.mem_takeWhile_imp (p := (· != '\n')) hd
  refine .later (fun hmem => hcomment ?_) ?_
  · obtain ⟨line, -, heq⟩ := mem_comments.mp hmem
    obtain ⟨hc, htake⟩ := List.cons.inj heq
    obtain ⟨rest, hrest⟩ : '/' :: line <+: cs := htake ▸ List.take_prefix _ cs
    exact ⟨hc, hrest ▸ rfl⟩
  by_cases hident : isIdentChar c = true
  · rw [read_word hident, take_length_takeWhile]
    exact firstMatch_word (cons_takeWhile_mem_runsOf hident cs)
  by_cases hquote : c = '"'
  · subst hquote
    rcases read_quote_cases cs with ⟨body, rest, hbody, rfl⟩ | hstray
    · have htake : (body ++ '"' :: rest).take (body.length + 1) = body ++ ['"'] := by
        rw [List.take_length_add_append]
        rfl
      rw [read_quoted hbody, htake]
      exact firstMatch_quoted hbody
    · rw [hstray]
      exact firstMatch_stray rfl rfl
  unfold read
  rw [if_neg hspace, if_neg hident]
  -- one case for each character with which a sign starts, and one for all others
  split
  case h_1 | h_2 | h_3 | h_4 | h_5 | h_6 | h_7 => exact firstMatch_of_signOf rfl _
  case h_8 =>
    split
    · exact firstMatch_taken (take_of_head? ‹_›) rfl
    · exact firstMatch_stray rfl rfl
  case h_9 =>
    rw [if_neg fun hslash => hcomment ⟨rfl, hslash⟩]
    exact firstMatch_stray rfl rfl
  case h_10 => exact absurd rfl hquote
  case h_11 =>
    refine firstMatch_stray (Bool.not_eq_true _ ▸ hident) ?_
    simp_all [signOf, signs, eq_comm (b := c)]

end Earliest

/-- The reader of descriptions takes what the rules take. -/
theorem implements_read : Implements read rules :=
  implements_of_longest read_le (fun _ hrule _ hother _ _ => length_le_read hrule hother)
    firstMatch_read

section Content

/-- How the piece of a token determines what the token says. -/
def HasPiece : Token → String → Prop
  | .ident name, piece => name = piece
  | .str content, piece =>
    ∃ body, piece = "\"" ++ body ++ "\"" ∧ content = .ofList (unescaped body.toList)
  | .stray c, piece => piece = String.singleton c
  | token, piece => ∃ sign ∈ signs, sign.2 = token ∧ piece ∈ sign.1

/-- The separators between tokens. -/
def IsSeparator (piece : String) : Prop :=
  (∀ c ∈ piece.toList, isSpace c = true) ∨ ∃ line, piece = "//" ++ line ∧ '\n' ∉ line.toList

/-- Pieces without a token are separators, and the others have what their tokens say. -/
theorem fits_of_firstMatch {word : List Char} {token? : Option Token}
    (h : FirstMatch rules word token?) : Fits IsSeparator HasPiece (.ofList word) token? := by
  have hsigns : ∀ sign ∈ signs, ∀ s ∈ sign.1, sign.2.HasPiece s := by
    simp [signs, HasPiece]
  obtain ⟨rule, hrule, hword, rfl⟩ := h.exists_rule
  simp only [rules, lastRules, List.mem_cons, List.mem_append, List.mem_map, List.not_mem_nil,
    or_false] at hrule
  rcases hrule with rfl | rfl | ⟨sign, hsign, rfl⟩ | rfl | rfl | rfl
  · refine .inl fun c hc => ?_
    rw [String.toList_ofList] at hc
    exact forall_of_mem_runsOf hword c hc
  · obtain ⟨line, hline, rfl⟩ := mem_comments.mp hword
    refine .inr ⟨.ofList line, ?_, fun hnewline => ?_⟩
    · rw [← String.toList_inj]
      simp
    · rw [String.toList_ofList] at hnewline
      exact absurd (hline _ hnewline) (by decide)
  · obtain ⟨s, hs, rfl⟩ := mem_spelled.mp hword
    rw [String.ofList_toList]
    exact hsigns sign hsign s hs
  · obtain ⟨body, -, rfl⟩ := mem_quotedTexts.mp hword
    refine ⟨.ofList body, ?_, ?_⟩
    · rw [← String.toList_inj]
      simp
    · rw [List.tail_cons, List.dropLast_concat, String.toList_ofList]
  · exact rfl
  · obtain ⟨c, -, rfl⟩ := mem_charsIn.mp hword
    exact String.singleton_eq_ofList.symm

end Content

end ProcessLogic.Description.Token
