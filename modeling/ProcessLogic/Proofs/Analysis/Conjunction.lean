import Mathlib.Data.List.Induction
import ProcessLogic.Analysis.Redundancy
import ProcessLogic.Formula.Semantics
import ProcessLogic.Proofs.Formula.Parser
import ProcessLogic.Proofs.Formula.Suffix
import ProcessLogic.Proofs.Text.Join

/-!
# The written conjunction is the conjunction

Formulas in parentheses with `&` between them are read as their conjunction, grouped to the
left, however each of them is written.
-/

namespace ProcessLogic

open Text

namespace Formula

/-- The conjunction of some formulas, grouped to the left; `true` for none. -/
def conjoin : List Formula → Formula
  | [] => .const true
  | f :: fs => fs.foldl (.binary .and) f

/-- The tokens of some texts, each in parentheses after an `&`. -/
def conjuncts (texts : List String) : List Token :=
  texts.flatMap fun text =>
    .binary .and :: (.openParen :: tokens Token.read text.toList ++ [.closeParen])

namespace ParserState

/-- What has been read is `f`, as far as an `&` or the end of the text is concerned. -/
structure Holding (value : Formula) (stack : List Frame) (f : Formula) : Prop where
  before_and : collapse (fun opened => closedBy opened .and) value stack = (f, [])
  at_end : collapse (fun _ => true) value stack = (f, [])

/-- A formula without an open operator is what has been read. -/
theorem holding_single (f : Formula) : Holding f [] f := ⟨rfl, rfl⟩

/-- An open `&` is closed by the next one and by the end of the text, to the left. -/
theorem holding_and (f g : Formula) : Holding g [.binary .and f] (.binary .and f g) :=
  ⟨rfl, rfl⟩

/-- The machine reads further conjuncts one by one. -/
theorem reads_conjuncts {texts : List String} {fs : List Formula}
    (h : texts.map parse = fs.map .ok) {value f : Formula} {stack : List Frame}
    (hf : Holding value stack f) :
    ∃ s, (complete value stack).reads (conjuncts texts) = some s ∧
      s.finish? = some (fs.foldl (.binary .and) f) := by
  induction texts generalizing fs value f stack with
  | nil =>
      obtain rfl := List.map_eq_nil_iff.mp h.symm
      exact ⟨_, rfl, by rw [finish?, hf.at_end]; rfl⟩
  | cons text texts ih =>
      obtain ⟨g, fs, rfl, hg, hfs⟩ := List.map_eq_cons_iff.mp h.symm
      obtain ⟨s, hs, hfinish⟩ := parse_eq_ok_iff.mp hg.symm
      have hstep : (complete value stack).step (.binary .and) =
          some (.operand [.binary .and f]) := by
        rw [step, hf.before_and]
      obtain ⟨s', hs', hfinish'⟩ := ih hfs.symm (holding_and f g)
      refine ⟨s', ?_, hfinish'⟩
      rw [conjuncts, List.flatMap_cons, List.cons_append, reads, List.foldlM_cons, hstep]
      change (operand [.binary .and f]).reads _ = some s'
      rw [reads_append, reads_parenthesised hs hfinish]
      exact hs'

end ParserState

/-- A text in parentheses is read as it is read alone. -/
theorem tokens_parenthesised (text : String) (rest : List Char) :
    tokens Token.read ('(' :: (text.toList ++ ')' :: rest)) =
      .openParen :: tokens Token.read text.toList ++ [.closeParen] ++ tokens Token.read rest := by
  rw [Token.tokens_openParen, Token.local_closeParen.tokens_append, Token.tokens_closeParen]
  simp

/-- The texts that are joined, each in its parentheses, are read one after another. -/
theorem tokens_conjuncts (texts : List String) :
    tokens Token.read (texts.flatMap fun text => " & ".toList ++ ("(" ++ text ++ ")").toList) =
      conjuncts texts := by
  induction texts with
  | nil => rfl
  | cons text texts ih =>
      have hchars : " & ".toList ++ ("(" ++ text ++ ")").toList =
          ' ' :: '&' :: ' ' :: '(' :: (text.toList ++ [')']) := by simp
      rw [List.flatMap_cons, hchars, conjuncts, List.flatMap_cons, ← conjuncts, ← ih]
      simp only [List.cons_append, List.append_assoc, List.nil_append, Token.tokens_blank_cons,
        Token.tokens_and, tokens_parenthesised]

/-- The tokens of a written conjunction. -/
theorem tokens_conjunction (text : String) (texts : List String) :
    tokens Token.read (conjunction (text :: texts)).toList =
      .openParen :: tokens Token.read text.toList ++ [.closeParen] ++ conjuncts texts := by
  have hchars : ("(" ++ text ++ ")").toList = '(' :: (text.toList ++ [')']) := by simp
  rw [conjunction, if_neg (by simp), List.map_cons, toList_intercalate_cons, List.flatMap_map,
    hchars, List.cons_append, List.append_assoc, List.singleton_append, tokens_parenthesised,
    tokens_conjuncts]

/-- Texts of formulas are conjoined to the text of their conjunction. -/
theorem parse_conjunction {texts : List String} {fs : List Formula}
    (h : texts.map parse = fs.map .ok) : parse (conjunction texts) = .ok (conjoin fs) := by
  cases texts with
  | nil =>
      obtain rfl := List.map_eq_nil_iff.mp h.symm
      rfl
  | cons text texts =>
      obtain ⟨f, fs, rfl, hf, hfs⟩ := List.map_eq_cons_iff.mp h.symm
      obtain ⟨s, hs, hfinish⟩ := parse_eq_ok_iff.mp hf.symm
      obtain ⟨s', hs', hfinish'⟩ :=
        ParserState.reads_conjuncts hfs.symm (ParserState.holding_single f)
      refine parse_eq_ok_iff.mpr ⟨s', ?_, hfinish'⟩
      rw [tokens_conjunction, ParserState.reads_append,
        ParserState.reads_parenthesised hs hfinish]
      exact hs'

/-- A formula that joins the formulas of a list with `&`, the last one outermost. A single formula
is itself, and none are joined to `true`. -/
inductive JoinsLeft : List Formula → Formula → Prop
  | none : JoinsLeft [] (.const true)
  | one (f : Formula) : JoinsLeft [f] f
  | and {fs : List Formula} {f : Formula} (g : Formula) : fs ≠ [] → JoinsLeft fs f →
      JoinsLeft (fs ++ [g]) (.binary .and f g)

/-- A formula at the end is joined to the conjunction of those before it. -/
theorem conjoin_concat {fs : List Formula} (h : fs ≠ []) (g : Formula) :
    conjoin (fs ++ [g]) = .binary .and (conjoin fs) g := by
  obtain ⟨f, fs, rfl⟩ := List.exists_cons_of_ne_nil h
  rw [List.cons_append, conjoin, conjoin, List.foldl_append]
  rfl

/-- Formulas nest to the left in exactly one way. -/
theorem joinsLeft_iff {fs : List Formula} {f : Formula} : JoinsLeft fs f ↔ f = conjoin fs := by
  constructor
  · intro h
    induction h with
    | none => rfl
    | one => rfl
    | and g hne _ ih => rw [conjoin_concat hne, ih]
  · rintro rfl
    induction fs using List.reverseRecOn with
    | nil => exact .none
    | append_singleton fs g ih =>
        by_cases hne : fs = []
        · rw [hne]
          exact .one g
        · rw [conjoin_concat hne]
          exact .and g hne ih

/-- Formulas that are joined demand what all of them do. -/
theorem JoinsLeft.holds_iff {fs : List Formula} {f : Formula} (h : JoinsLeft fs f) (events : Trace)
    (i : Nat) : Holds events f i ↔ ∀ g ∈ fs, Holds events g i := by
  induction h with
  | none => simp [Holds]
  | one => simp
  | and g _ _ ih => simp only [Holds, ih, List.forall_mem_append, List.forall_mem_singleton]

/-- Texts of formulas, however they are written, are joined to the text of a formula that joins
theirs from the left, and demands what all of them do. -/
theorem parse_conjunction_joins {texts : List String} {fs : List Formula}
    (h : texts.map parse = fs.map .ok) :
    ∃ joined, parse (conjunction texts) = .ok joined ∧ JoinsLeft fs joined ∧
      ∀ events i, Holds events joined i ↔ ∀ f ∈ fs, Holds events f i := by
  have hjoins : JoinsLeft fs (conjoin fs) := joinsLeft_iff.mpr rfl
  exact ⟨conjoin fs, parse_conjunction h, hjoins, hjoins.holds_iff⟩

/-- Operators that bind less tightly than `&`, blanks and other spellings stay inside their own
formula. -/
theorem parse_conjunction_joins_mixed :
    conjunction ["a <-> b", " TRUE||c ", "d W e -> f"] =
        "(a <-> b) & ( TRUE||c ) & (d W e -> f)" ∧
      ∃ joined, parse "(a <-> b) & ( TRUE||c ) & (d W e -> f)" = .ok joined ∧
        JoinsLeft [.binary .equiv (.prop "a") (.prop "b"),
          .binary .or (.const true) (.prop "c"),
          .binary .implies (.binary .weakUntil (.prop "d") (.prop "e")) (.prop "f")] joined := by
  have hwritten : conjunction ["a <-> b", " TRUE||c ", "d W e -> f"] =
      "(a <-> b) & ( TRUE||c ) & (d W e -> f)" := rfl
  have hread : ["a <-> b", " TRUE||c ", "d W e -> f"].map parse =
      [binary .equiv (.prop "a") (.prop "b"), binary .or (.const true) (.prop "c"),
        binary .implies (.binary .weakUntil (.prop "d") (.prop "e")) (.prop "f")].map .ok := rfl
  obtain ⟨joined, hparse, hjoins, -⟩ := parse_conjunction_joins hread
  exact ⟨hwritten, joined, hwritten ▸ hparse, hjoins⟩

/-- What conjunctions keep holds of the conjunction of formulas of which it holds. -/
theorem conjoin_induction {P : Formula → Prop} (htrue : P (.const true))
    (hand : ∀ f g, P f → P g → P (.binary .and f g)) {fs : List Formula} (h : ∀ f ∈ fs, P f) :
    P (conjoin fs) := by
  cases fs with
  | nil => exact htrue
  | cons f fs =>
      obtain ⟨hf, hfs⟩ := List.forall_mem_cons.mp h
      rw [conjoin]
      induction fs generalizing f with
      | nil => exact hf
      | cons g fs ih =>
          obtain ⟨hg, hrest⟩ := List.forall_mem_cons.mp hfs
          have hfg := hand f g hf hg
          exact ih _ (List.forall_mem_cons.mpr ⟨hfg, hrest⟩) hfg hrest

/-- A conjunction holds exactly if all its parts do. -/
theorem holds_conjoin (fs : List Formula) (trace : Trace) :
    (conjoin fs).nnf.holds trace = fs.all fun f => f.nnf.holds trace := by
  have hfold : ∀ (fs : List Formula) (f : Formula),
      (fs.foldl (.binary .and) f).nnf.holds trace =
        (f.nnf.holds trace && fs.all fun g => g.nnf.holds trace) := by
    intro fs
    induction fs with
    | nil => simp
    | cons g fs ih =>
        intro f
        have hand : (binary .and f g).nnf = .and f.nnf g.nnf := rfl
        rw [List.foldl_cons, ih, hand, Nnf.holds_and, List.all_cons, Bool.and_assoc]
  cases fs with
  | nil => rfl
  | cons f fs => exact hfold fs f

theorem mem_occurrences_conjoin {fs : List Formula} {p : String} :
    p ∈ (conjoin fs).occurrences ↔ ∃ f ∈ fs, p ∈ f.occurrences := by
  have hfold : ∀ (fs : List Formula) (f : Formula),
      p ∈ (fs.foldl (.binary .and) f).occurrences ↔
        p ∈ f.occurrences ∨ ∃ g ∈ fs, p ∈ g.occurrences := by
    intro fs
    induction fs with
    | nil => simp
    | cons g fs ih =>
        intro f
        rw [List.foldl_cons, ih, occurrences, List.mem_append]
        simp [or_assoc]
  cases fs with
  | nil => simp [conjoin, occurrences]
  | cons f fs =>
      rw [conjoin, hfold]
      simp

end Formula

end ProcessLogic
