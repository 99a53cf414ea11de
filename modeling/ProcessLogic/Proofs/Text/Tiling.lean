import ProcessLogic.Proofs.Description.Lexicon
import ProcessLogic.Proofs.Formula.Lexicon

/-!
# Lexemes tile a text

From the first byte of a text to the last, lexemes and separators follow one another: each is the
longest piece that the rules have where it starts, no two overlap, and the piece of a lexeme says
what its token is. This holds of every lexer whose reader implements its rules, so of both.
-/

namespace ProcessLogic.Text

variable {τ : Type} {rules : List (Rule τ)} {read : Reader τ}

/-- The bytes `start ..< stop` of a text begin and end between characters: they are those of
`piece`, with `front` before it and `rest` after it. -/
structure SliceAt (text : String) (start stop : Nat) (front piece rest : String) : Prop where
  text_eq : text = front ++ (piece ++ rest)
  start_eq : start = front.utf8ByteSize
  stop_eq : stop = start + piece.utf8ByteSize

/-- Beginnings of a text with equally many bytes are the same. -/
theorem append_inj_of_utf8ByteSize {front front' rest rest' : String}
    (h : front ++ rest = front' ++ rest') (hsize : front.utf8ByteSize = front'.utf8ByteSize) :
    front = front' ∧ rest = rest' := by
  have hlists : front.toList ++ rest.toList = front'.toList ++ rest'.toList := by
    rw [← String.toList_append, h, String.toList_append]
  rw [← byteLength_toList, ← byteLength_toList] at hsize
  have hnil : ∀ more : List Char, byteLength more = 0 → more = [] :=
    fun more hmore => by_contra fun hne => Nat.ne_of_gt (byteLength_pos hne) hmore
  have hfront : front.toList = front'.toList := by
    rcases List.append_eq_append_iff.mp hlists with ⟨more, heq, -⟩ | ⟨more, heq, -⟩ <;>
    · rw [heq, byteLength_append] at hsize
      rw [heq, hnil more (by omega), List.append_nil]
  obtain rfl := String.toList_inj.mp hfront
  exact ⟨rfl, (String.append_right_inj _).mp h⟩

/-- What stands at some bytes of a text is determined. -/
theorem SliceAt.unique {text front piece rest front' piece' rest' : String} {start stop : Nat}
    (h : SliceAt text start stop front piece rest)
    (h' : SliceAt text start stop front' piece' rest') : piece = piece' := by
  have hfront := append_inj_of_utf8ByteSize (h.text_eq.symm.trans h'.text_eq)
    (h.start_eq.symm.trans h'.start_eq)
  have hsize := h.stop_eq.symm.trans h'.stop_eq
  exact (append_inj_of_utf8ByteSize hfront.2 (Nat.add_left_cancel hsize)).1

/-- The bytes `start ..< stop` of a text are the piece that the rules take there. -/
def TakenAt (rules : List (Rule τ)) (text : String) (token? : Option τ) (start stop : Nat)
    (piece : String) : Prop :=
  ∃ front rest, SliceAt text start stop front piece rest ∧
    Takes rules (piece ++ rest).toList piece.toList token?

/-- How lexemes lie in their text. `separates` is a property of the pieces between them, and
`hasPiece` a relation of their tokens to their pieces. -/
structure Tiling (rules : List (Rule τ)) (separates : String → Prop) (hasPiece : τ → String → Prop)
    (text : String) (ls : List (Lexeme τ)) : Prop where
  /-- To cut off the longest piece again and again comes to the end of the text with these lexemes
  and with no others. -/
  lexed_iff : ∀ found, Lexed rules 0 text.toList found ↔ found = ls
  length_le : ls.length ≤ text.utf8ByteSize
  start_lt_stop : ∀ l ∈ ls, l.start < l.stop
  in_order : ls.Pairwise fun l l' => l.stop ≤ l'.start
  lexeme : ∀ l ∈ ls, ∃ piece, TakenAt rules text (some l.token) l.start l.stop piece ∧
    hasPiece l.token piece
  /-- The token of a lexeme is that of its piece by the earliest rule that has the piece. -/
  token_iff : ∀ l ∈ ls, ∀ front piece rest, SliceAt text l.start l.stop front piece rest →
    ∀ token?, FirstMatch rules piece.toList token? ↔ token? = some l.token
  /-- A byte outside of all lexemes is one of a separator that has no byte of a lexeme. -/
  gap : ∀ b < text.utf8ByteSize, (∀ l ∈ ls, b < l.start ∨ l.stop ≤ b) →
    ∃ start stop piece, TakenAt rules text none start stop piece ∧ separates piece ∧
      (start ≤ b ∧ b < stop) ∧ ∀ l ∈ ls, l.stop ≤ start ∨ stop ≤ l.start

/-- A piece that the rules take somewhere in a text whose first byte has the number `pos`. -/
structure PieceAt (rules : List (Rule τ)) (pos : Nat) (text : List Char) (token? : Option τ)
    (start stop : Nat) (front word rest : List Char) : Prop where
  text_eq : text = front ++ (word ++ rest)
  takes : Takes rules (word ++ rest) word token?
  start_eq : start = pos + byteLength front
  stop_eq : stop = start + byteLength word

section Pieces

variable {pos : Nat} {text : List Char} {ls : List (Lexeme τ)}

/-- A piece of the rest of a text is a piece of the text. -/
theorem PieceAt.append {token? : Option τ} {start stop : Nat} {front word rest : List Char}
    (first : List Char)
    (h : PieceAt rules (pos + byteLength first) text token? start stop front word rest) :
    PieceAt rules pos (first ++ text) token? start stop (first ++ front) word rest where
  text_eq := by rw [h.text_eq, List.append_assoc]
  takes := h.takes
  start_eq := by rw [h.start_eq, byteLength_append, Nat.add_assoc]
  stop_eq := h.stop_eq

/-- Every lexeme is taken by the rules. -/
theorem Lexed.exists_pieceAt (h : Lexed rules pos text ls) {l : Lexeme τ} (hl : l ∈ ls) :
    ∃ front word rest, PieceAt rules pos text (some l.token) l.start l.stop front word rest := by
  induction h with
  | nil => exact nomatch hl
  | @piece pos word rest token? ls htakes _ ih =>
      rcases List.mem_append.mp hl with hfirst | hlater
      · obtain ⟨t, rfl, rfl⟩ := Option.map_eq_some_iff.mp (Option.mem_toList.mp hfirst)
        exact ⟨[], word, rest, rfl, htakes, rfl, rfl⟩
      · obtain ⟨front, piece, after, hpiece⟩ := ih hlater
        exact ⟨_, _, _, hpiece.append word⟩

/-- No lexeme starts before its text. -/
theorem Lexed.start_ge (h : Lexed rules pos text ls) {l : Lexeme τ} (hl : l ∈ ls) :
    pos ≤ l.start := by
  obtain ⟨front, word, rest, hpiece⟩ := h.exists_pieceAt hl
  rw [hpiece.start_eq]
  exact Nat.le_add_right _ _

/-- There are no more lexemes than bytes. -/
theorem Lexed.length_le (h : Lexed rules pos text ls) : ls.length ≤ byteLength text := by
  induction h with
  | nil => exact Nat.le_refl 0
  | @piece pos word rest token? ls htakes _ ih =>
      have hpos := byteLength_pos htakes.ne_nil
      rw [List.length_append, byteLength_append]
      cases token? with
      | none => simpa using Nat.le_trans ih (Nat.le_add_left _ _)
      | some t => simp only [Option.map_some, Option.toList_some, List.length_singleton]; omega

/-- Every byte is one of a lexeme or of a separator, and no lexeme has a byte of a separator. -/
theorem Lexed.cover (h : Lexed rules pos text ls) {b : Nat} (hpos : pos ≤ b)
    (hb : b < pos + byteLength text) : (∃ l ∈ ls, l.start ≤ b ∧ b < l.stop) ∨
      ∃ start stop front word rest, PieceAt rules pos text none start stop front word rest ∧
        start ≤ b ∧ b < stop ∧ ∀ l ∈ ls, l.stop ≤ start ∨ stop ≤ l.start := by
  induction h with
  | nil => exact absurd hb (Nat.not_lt.mpr hpos)
  | @piece pos word rest token? ls htakes hrest ih =>
      by_cases hfirst : b < pos + byteLength word
      · cases token? with
        | some t => exact .inl ⟨_, List.mem_cons_self, hpos, hfirst⟩
        | none =>
            refine .inr ⟨_, _, [], word, rest, ⟨rfl, htakes, rfl, rfl⟩, hpos, hfirst, ?_⟩
            exact fun l hl => .inr (hrest.start_ge hl)
      · rw [byteLength_append, ← Nat.add_assoc] at hb
        rcases ih (Nat.le_of_not_lt hfirst) hb with ⟨l, hl, hspan⟩ |
          ⟨start, stop, front, piece, after, hpiece, hstart, hstop, hapart⟩
        · exact .inl ⟨l, List.mem_append_right _ hl, hspan⟩
        · refine .inr ⟨start, stop, _, _, _, hpiece.append word, hstart, hstop, fun l hl => ?_⟩
          rcases List.mem_append.mp hl with hl | hl
          · obtain ⟨t, -, rfl⟩ := Option.map_eq_some_iff.mp (Option.mem_toList.mp hl)
            have hle := hpiece.start_eq
            exact .inl (by simp only; omega)
          · exact hapart l hl

end Pieces

/-- A piece at some bytes, as a string. -/
theorem PieceAt.takenAt {text : String} {token? : Option τ} {start stop : Nat}
    {front word rest : List Char}
    (h : PieceAt rules 0 text.toList token? start stop front word rest) :
    TakenAt rules text token? start stop (.ofList word) := by
  refine ⟨.ofList front, .ofList rest, ⟨?_, ?_, ?_⟩, ?_⟩
  · rw [← String.ofList_append, ← String.ofList_append, ← h.text_eq, String.ofList_toList]
  · rw [h.start_eq, Nat.zero_add, byteLength_eq_utf8ByteSize]
  · rw [h.stop_eq, byteLength_eq_utf8ByteSize]
  · rw [← String.ofList_append, String.toList_ofList, String.toList_ofList]
    exact h.takes

/-- A reader that implements its rules tiles every text. -/
theorem Implements.tiling (h : Implements read rules) {separates : String → Prop}
    {hasPiece : τ → String → Prop}
    (hfits : ∀ word token?, FirstMatch rules word token? →
      Fits separates hasPiece (.ofList word) token?)
    (text : String) : Tiling rules separates hasPiece text (lexemes read text.toList) := by
  have hlexed : Lexed rules 0 text.toList (lexemes read text.toList) := h.lexed_iff.mpr rfl
  have htaken : ∀ l ∈ lexemes read text.toList, ∃ piece,
      TakenAt rules text (some l.token) l.start l.stop piece ∧ hasPiece l.token piece := by
    intro l hl
    obtain ⟨front, word, rest, hpiece⟩ := hlexed.exists_pieceAt hl
    exact ⟨_, hpiece.takenAt, hfits _ _ hpiece.takes.first⟩
  refine ⟨fun found => h.lexed_iff, ?_, ?_, pairwise_lexemesAt read 0 _, htaken, ?_, ?_⟩
  · exact byteLength_toList text ▸ hlexed.length_le
  · intro l hl
    obtain ⟨front, c, rest, hstands⟩ := exists_standsAfter hl
    exact hstands.start_lt_stop
  · intro l hl front piece rest hslice token?
    obtain ⟨taken, ⟨front', rest', hslice', htakes⟩, -⟩ := htaken l hl
    obtain rfl := hslice.unique hslice'
    exact ⟨fun hmatch => hmatch.unique htakes.first, fun heq => heq ▸ htakes.first⟩
  · intro b hb hout
    rw [← byteLength_toList, ← Nat.zero_add (byteLength _)] at hb
    rcases hlexed.cover (Nat.zero_le b) hb with ⟨l, hl, hstart, hstop⟩ |
      ⟨start, stop, front, word, rest, hpiece, hstart, hstop, hapart⟩
    · exact absurd (hout l hl) (by omega)
    · exact ⟨start, stop, _, hpiece.takenAt, hfits _ _ hpiece.takes.first, ⟨hstart, hstop⟩, hapart⟩

/-- The lexemes of a formula and those of a description tile every text. Between those of a formula
there are blanks, between those of a description blanks and comments. -/
theorem lexemes_tile (text : String) :
    Tiling Formula.Token.rules Formula.Token.IsSeparator Formula.Token.HasPiece text
      (Formula.Token.scan text) ∧
    Tiling Description.Token.rules Description.Token.IsSeparator Description.Token.HasPiece text
      (Description.Token.scan text) := by
  constructor
  · exact Formula.Token.implements_read.tiling (fun _ _ => Formula.Token.fits_of_firstMatch) text
  · exact Description.Token.implements_read.tiling
      (fun _ _ => Description.Token.fits_of_firstMatch) text

/-- A letter of two bytes, a quoted text with an escaped quote, a comment, and a quote that nothing
closes; in a formula an unfinished constant and an unfinished arrow. -/
theorem lexemes_tile_unfinished :
    Description.Token.scan "é\"a\\\"b\"//x\n\"y" =
        [⟨.stray 'é', 0, 2⟩, ⟨.str "a\"b", 2, 8⟩, ⟨.stray '"', 12, 13⟩, ⟨.ident "y", 13, 14⟩] ∧
    (∃ start stop piece,
      TakenAt Description.Token.rules "é\"a\\\"b\"//x\n\"y" none start stop piece ∧
        Description.Token.IsSeparator piece ∧ start ≤ 9 ∧ 9 < stop) ∧
    Formula.Token.scan "Tru<-" =
        [⟨.stray 'T', 0, 1⟩, ⟨.ident "ru", 1, 3⟩, ⟨.stray '<', 3, 4⟩, ⟨.stray '-', 4, 5⟩] ∧
    ∃ piece, TakenAt Formula.Token.rules "Tru<-" (some (.ident "ru")) 1 3 piece ∧ "ru" = piece := by
  have hdescription : Description.Token.scan "é\"a\\\"b\"//x\n\"y" =
    [⟨.stray 'é', 0, 2⟩, ⟨.str "a\"b", 2, 8⟩, ⟨.stray '"', 12, 13⟩, ⟨.ident "y", 13, 14⟩] := rfl
  have hformula : Formula.Token.scan "Tru<-" =
    [⟨.stray 'T', 0, 1⟩, ⟨.ident "ru", 1, 3⟩, ⟨.stray '<', 3, 4⟩, ⟨.stray '-', 4, 5⟩] := rfl
  refine ⟨hdescription, ?_, hformula, ?_⟩
  · obtain ⟨start, stop, piece, htaken, hseparates, hspan, -⟩ :=
      (lexemes_tile "é\"a\\\"b\"//x\n\"y").2.gap 9 (by decide) (by rw [hdescription]; decide)
    exact ⟨start, stop, piece, htaken, hseparates, hspan⟩
  · exact (lexemes_tile "Tru<-").1.lexeme ⟨.ident "ru", 1, 3⟩ (by rw [hformula]; decide)

/-- A carriage return and a tab are blanks for both, a form feed is one for neither. -/
example : Formula.Token.scan "a\r\tb\x0c" =
    [⟨.ident "a", 0, 1⟩, ⟨.ident "b", 3, 4⟩, ⟨.stray '\x0c', 4, 5⟩] := rfl

example : Description.Token.scan "a\r\tb\x0c" =
    [⟨.ident "a", 0, 1⟩, ⟨.ident "b", 3, 4⟩, ⟨.stray '\x0c', 4, 5⟩] := rfl

end ProcessLogic.Text
