import ProcessLogic.Proofs.Formula.Parser

/-!
# The machine reads the sentences of the grammar

What is open on the stack, from the outside in, is a chain of operators in which none closes the
one outside it. From the grammar to the machine: a derivation of a level is read as a value with
open operators of at least this level on top of the stack. From the machine to the grammar: what
has been read is the tokens of the stack followed by those of the value. So the machine accepts the
sentences and no other token sequence, and a sentence is a sentence for one formula only.
-/

namespace ProcessLogic

namespace BinaryOp

/-- The level of the left operand. -/
def leftLevel (op : BinaryOp) : Nat := if op.groupsRight then op.level + 1 else op.level

/-- The level of the right operand. -/
def rightLevel (op : BinaryOp) : Nat := if op.groupsRight then op.level else op.level + 1

theorem level_lt (op : BinaryOp) : op.level < 5 := by
  cases op <;> decide

/-- No left operand binds more weakly than its operator. -/
theorem level_le_leftLevel (op : BinaryOp) : op.level ≤ op.leftLevel := by
  rw [leftLevel]
  split <;> omega

theorem leftLevel_le (op : BinaryOp) : op.leftLevel ≤ 5 := by
  have h := op.level_lt
  rw [leftLevel]
  split <;> omega

/-- No right operand binds more weakly than its operator. -/
theorem level_le_rightLevel (op : BinaryOp) : op.level ≤ op.rightLevel := by
  rw [rightLevel]
  split <;> omega

theorem rightLevel_le (op : BinaryOp) : op.rightLevel ≤ 5 := by
  have h := op.level_lt
  rw [rightLevel]
  split <;> omega

/-- The operators of a level group to the same side. -/
theorem groupsRight_eq {op op' : BinaryOp} (h : op.level = op'.level) :
    op.groupsRight = op'.groupsRight := by
  cases op <;> cases op' <;> first | rfl | exact absurd h (by decide)

end BinaryOp

namespace Formula

variable {n m : Nat} {ts us vs : List Token} {f g value : Formula} {stack inner : List Frame}

namespace Derives

theorem level_le (h : Derives n ts f) : n ≤ 5 := by
  cases h with
  | right op => exact Nat.le_of_lt op.level_lt
  | left op => exact Nat.le_of_lt op.level_lt
  | lift _ hn => exact Nat.le_of_lt hn
  | _ => exact Nat.le_refl 5

/-- What derives at a tight level derives at every looser one. -/
theorem loosen (h : Derives n ts f) (hle : m ≤ n) : Derives m ts f := by
  induction hle with
  | refl => exact h
  | @step k _ ih =>
      have hk : k < 5 := h.level_le
      exact ih (.lift k hk h)

/-- Both ways of grouping in one rule. -/
theorem binary (op : BinaryOp) (hts : Derives op.leftLevel ts f)
    (hus : Derives op.rightLevel us g) :
    Derives op.level (ts ++ .binary op :: us) (.binary op f g) := by
  unfold BinaryOp.leftLevel at hts
  unfold BinaryOp.rightLevel at hus
  cases hright : op.groupsRight with
  | true =>
      rw [hright] at hts hus
      exact .right op hright hts hus
  | false =>
      rw [hright] at hts hus
      exact .left op hright hts hus

end Derives

namespace ParserState

theorem reads_cons {s s' : ParserState} {t : Token} (h : s.step t = some s') (ts : List Token) :
    s.reads (t :: ts) = s'.reads ts := by
  rw [reads, List.foldlM_cons, h]
  rfl

/-- An open operator is closed by a weaker one, and by one of its level that groups to the left. -/
theorem closedBy_iff {opened op : BinaryOp} : closedBy opened op = true ↔
    op.level < opened.level ∨ (op.level = opened.level ∧ op.groupsRight = false) := by
  simp [closedBy]

/-- An operator closes those of at least the level of its left operand. -/
theorem closedBy_iff_leftLevel_le {opened op : BinaryOp} :
    closedBy opened op = true ↔ op.leftLevel ≤ opened.level := by
  rw [closedBy_iff, BinaryOp.leftLevel]
  cases op.groupsRight with
  | true => exact (or_iff_left fun h => nomatch h.2).trans Nat.lt_iff_add_one_le
  | false => simp [Nat.le_iff_lt_or_eq]

/-- An operator stays open if it binds looser than what comes, or as tight and groups right. -/
theorem closedBy_eq_false_iff {opened op : BinaryOp} : closedBy opened op = false ↔
    opened.level < op.level ∨ (opened.level = op.level ∧ opened.groupsRight = true) := by
  rw [Bool.eq_false_iff, ne_eq, closedBy_iff]
  rcases Nat.lt_trichotomy opened.level op.level with hlt | heq | hgt
  · simp only [hlt, true_or, iff_true]
    omega
  · have hgroup := BinaryOp.groupsRight_eq heq
    cases hright : op.groupsRight <;> simp [heq, hgroup, hright]
  · simp only [hgt, true_or, not_true, false_iff]
    omega

/-- What is on top of the stack stays open before an operator of a level. -/
def Room (n : Nat) : List Frame → Prop
  | .unary _ :: _ => False
  | .binary op _ :: _ => op.level < n ∨ (op.level = n ∧ op.groupsRight = true)
  | _ => True

/-- An open operator stays open before a stronger one, and before one of its level that groups to
the right. -/
theorem room_binary {op : BinaryOp} {left : Formula} : Room n (.binary op left :: stack) ↔
    op.level < n ∨ (op.level = n ∧ op.groupsRight = true) := Iff.rfl

/-- There is room on top of an operator for its right operand. -/
theorem room_rightLevel (op : BinaryOp) (left : Formula) (stack : List Frame) :
    Room op.rightLevel (.binary op left :: stack) := by
  rw [room_binary, BinaryOp.rightLevel]
  split
  · exact Or.inr ⟨rfl, ‹_›⟩
  · exact Or.inl (Nat.lt_succ_self _)

/-- Where there is room for an operand of a level, the level is that of the right operand or
tighter. -/
theorem rightLevel_le_of_room {op : BinaryOp} {left : Formula}
    (h : Room n (.binary op left :: stack)) : op.rightLevel ≤ n := by
  rw [BinaryOp.rightLevel]
  rcases room_binary.mp h with hlt | ⟨heq, hright⟩
  · split <;> omega
  · rw [if_pos hright]
    omega

/-- What stays open before an operator does so before a stronger one. -/
theorem Room.mono (h : Room n stack) (hle : n ≤ m) : Room m stack := by
  cases stack with
  | nil => trivial
  | cons frame stack =>
      cases frame with
      | unary op => exact h.elim
      | paren => trivial
      | binary op left =>
          rcases room_binary.mp h with hlt | ⟨heq, hright⟩
          · exact Or.inl (Nat.lt_of_lt_of_le hlt hle)
          · rcases Nat.lt_or_eq_of_le hle with hlt | rfl
            · exact Or.inl (heq ▸ hlt)
            · exact Or.inr ⟨heq, hright⟩

/-- With room for an operator on top of the stack, a value is complete. -/
theorem Room.settle_eq (h : Room n stack) (value : Formula) :
    settle value stack = .complete value stack := by
  cases stack with
  | nil => rfl
  | cons frame stack =>
      cases frame with
      | unary op => exact h.elim
      | paren => rfl
      | binary op left => rfl

/-- Before an operator of the level the stack stays as it is. -/
theorem Room.collapse_eq {op : BinaryOp} (h : Room op.level stack) (value : Formula) :
    collapse (fun opened => closedBy opened op) value stack = (value, stack) := by
  cases stack with
  | nil => rfl
  | cons frame stack =>
      cases frame with
      | unary op => exact h.elim
      | paren => rfl
      | binary opened left =>
          have hopen := closedBy_eq_false_iff.mpr (room_binary.mp h)
          rw [collapse, hopen]
          rfl

/-! ### From the grammar to the machine -/

/-- A value with open operators of at least a level, which close to a formula. -/
inductive Pending (n : Nat) (value : Formula) : List Frame → Formula → Prop
  | nothing : Pending n value [] value
  | operator {g : Formula} {inner : List Frame} (op : BinaryOp) (left : Formula) :
      n ≤ op.level → Pending n value inner g →
      Pending n value (inner ++ [.binary op left]) (.binary op left g)

/-- Open operators of at least a level are so of any weaker level. -/
theorem Pending.loosen (h : Pending n value inner f) (hle : m ≤ n) : Pending m value inner f := by
  induction h with
  | nothing => exact .nothing
  | operator op left hop _ ih => exact .operator op left (Nat.le_trans hle hop) ih

/-- Whatever closes the operators of the level closes the pending ones. -/
theorem Pending.collapse_eq {closed : BinaryOp → Bool} (h : Pending n value inner f)
    (hclosed : ∀ op : BinaryOp, n ≤ op.level → closed op = true) (stack : List Frame) :
    collapse closed value (inner ++ stack) = collapse closed f stack := by
  induction h generalizing stack with
  | nothing => rfl
  | operator op left hop _ ih =>
      rw [List.append_assoc, List.singleton_append, ih, collapse, if_pos (hclosed op hop)]

/-- The machine reads the tokens as an operand. -/
def ReadsOperand (ts : List Token) (f : Formula) : Prop :=
  ∀ stack, (operand stack).reads ts = some (settle f stack)

/-- The machine reads the tokens as a chain of operators of at least a level. -/
def ReadsChain (n : Nat) (ts : List Token) (f : Formula) : Prop :=
  ∀ stack, Room n stack → ∃ value inner,
    (operand stack).reads ts = some (.complete value (inner ++ stack)) ∧ Pending n value inner f

/-- An operand is a chain of any level. -/
theorem ReadsOperand.chain (h : ReadsOperand ts f) (n : Nat) : ReadsChain n ts f := by
  intro stack hroom
  refine ⟨f, [], ?_, .nothing⟩
  rw [h stack, hroom.settle_eq]
  rfl

/-- A chain of at least a level is so of any weaker level. -/
theorem ReadsChain.loosen (h : ReadsChain n ts f) (hle : m ≤ n) : ReadsChain m ts f := by
  intro stack hroom
  obtain ⟨value, inner, hread, hpending⟩ := h stack (hroom.mono hle)
  exact ⟨value, inner, hread, hpending.loosen hle⟩

/-- A chain read to its end is the formula. -/
theorem ReadsChain.finish (h : ReadsChain n ts f) :
    ∃ s, (operand []).reads ts = some s ∧ s.finish? = some f := by
  obtain ⟨value, inner, hread, hpending⟩ := h [] trivial
  refine ⟨_, hread, ?_⟩
  rw [finish?, hpending.collapse_eq (fun _ _ => rfl)]
  rfl

/-- The operator closes its left operand and stays open for its right one. -/
theorem ReadsChain.binary {op : BinaryOp} (hts : ReadsChain op.leftLevel ts f)
    (hus : ReadsChain op.rightLevel us g) :
    ReadsChain op.level (ts ++ .binary op :: us) (.binary op f g) := by
  intro stack hroom
  obtain ⟨value, inner, hread, hpending⟩ := hts stack (hroom.mono op.level_le_leftLevel)
  have hstep : (complete value (inner ++ stack)).step (.binary op) =
      some (.operand (.binary op f :: stack)) := by
    have hclosed : ∀ opened : BinaryOp, op.leftLevel ≤ opened.level → closedBy opened op = true :=
      fun _ hle => closedBy_iff_leftLevel_le.mpr hle
    rw [step, hpending.collapse_eq hclosed stack, hroom.collapse_eq]
  obtain ⟨value', inner', hread', hpending'⟩ :=
    hus (.binary op f :: stack) (room_rightLevel op f stack)
  refine ⟨value', inner' ++ [.binary op f], ?_,
    .operator op f (Nat.le_refl _) (hpending'.loosen op.level_le_rightLevel)⟩
  rw [reads_append, hread, Option.bind_some, reads_cons hstep, hread', List.append_assoc,
    List.singleton_append]

/-- A derivation is read as a chain, and one of the tightest level as an operand. -/
theorem reads_of_derives (h : Derives n ts f) :
    ReadsChain n ts f ∧ (n = 5 → ReadsOperand ts f) := by
  induction h with
  | ident name =>
      have hread : ReadsOperand [.ident name] (.prop name) := fun _ => rfl
      exact ⟨hread.chain 5, fun _ => hread⟩
  | const value =>
      have hread : ReadsOperand [.const value] (.const value) := fun _ => rfl
      exact ⟨hread.chain 5, fun _ => hread⟩
  | @paren ts f _ ih =>
      have hread : ReadsOperand (.openParen :: ts ++ [.closeParen]) f := by
        obtain ⟨s, hs, hf⟩ := ih.1.finish
        exact fun stack => reads_parenthesised hs hf stack
      exact ⟨hread.chain 5, fun _ => hread⟩
  | @unary op ts f _ ih =>
      have hread : ReadsOperand (.unary op :: ts) (.unary op f) := fun stack =>
        ih.2 rfl (.unary op :: stack)
      exact ⟨hread.chain 5, fun _ => hread⟩
  | right op hright _ _ ihts ihus =>
      refine ⟨ReadsChain.binary ?_ ?_, fun h5 => absurd h5 (Nat.ne_of_lt op.level_lt)⟩
      · rw [BinaryOp.leftLevel, if_pos hright]
        exact ihts.1
      · rw [BinaryOp.rightLevel, if_pos hright]
        exact ihus.1
  | left op hleft _ _ ihts ihus =>
      refine ⟨ReadsChain.binary ?_ ?_, fun h5 => absurd h5 (Nat.ne_of_lt op.level_lt)⟩
      · rw [BinaryOp.leftLevel, hleft]
        exact ihts.1
      · rw [BinaryOp.rightLevel, hleft]
        exact ihus.1
  | lift n hn _ ih =>
      exact ⟨ih.1.loosen (Nat.le_succ n), fun h5 => absurd h5 (Nat.ne_of_lt hn)⟩

/-! ### From the machine to the grammar -/

/-- The tokens that have been read into a stack. -/
inductive Opened : List Frame → List Token → Prop
  | nil : Opened [] []
  | paren {stack : List Frame} {ts : List Token} :
      Opened stack ts → Opened (.paren :: stack) (ts ++ [.openParen])
  | unary (op : PrefixOp) {stack : List Frame} {ts : List Token} :
      Opened stack ts → Opened (.unary op :: stack) (ts ++ [.unary op])
  | binary (op : BinaryOp) {stack : List Frame} {ts us : List Token} {left : Formula} :
      Opened stack ts → Room op.level stack → Derives op.leftLevel us left →
      Opened (.binary op left :: stack) (ts ++ (us ++ [.binary op]))

/-- The tokens that have been read into a state. -/
inductive Spells : ParserState → List Token → Prop
  | operand {stack : List Frame} {ts : List Token} :
      Opened stack ts → Spells (.operand stack) ts
  | complete {value : Formula} {stack : List Frame} {ts us : List Token} :
      Opened stack ts → Room 5 stack → Derives 5 us value →
        Spells (.complete value stack) (ts ++ us)

/-- Prefix operators take the operand after them. -/
theorem Opened.settle (h : Opened stack ts) (hvalue : Derives 5 us value) :
    Spells (ParserState.settle value stack) (ts ++ us) := by
  induction h generalizing us value with
  | nil => exact .complete .nil trivial hvalue
  | paren hstack => exact .complete (.paren hstack) trivial hvalue
  | unary op _ ih =>
      rw [List.append_assoc]
      exact ih (.unary op hvalue)
  | binary op hstack hroom hleft =>
      exact .complete (.binary op hstack hroom hleft) (Or.inl op.level_lt) hvalue

/-- What closing operators leaves: the same tokens, a value of a level for which there is room on
the stack, and on top of the stack no operator that is closed. -/
structure Collapsed (closed : BinaryOp → Bool) (ts : List Token) (value : Formula)
    (stack : List Frame) : Prop where
  spelled : ∃ n us vs, ts = us ++ vs ∧ Opened stack us ∧ Derives n vs value ∧ Room n stack ∧
    (n = 5 ∨ ∃ op, closed op = true ∧ n = op.level)
  stays : ∀ op left rest, stack = .binary op left :: rest → closed op = false

/-- Closing operators keeps the tokens and leaves room for the one that closed them. -/
theorem Opened.collapse (closed : BinaryOp → Bool) (h : Opened stack ts) (hroom : Room n stack)
    (hvalue : Derives n us value) (hn : n = 5 ∨ ∃ op, closed op = true ∧ n = op.level) :
    Collapsed closed (ts ++ us) (ParserState.collapse closed value stack).1
      (ParserState.collapse closed value stack).2 := by
  induction h generalizing n us value with
  | nil => exact ⟨⟨n, [], us, rfl, .nil, hvalue, hroom, hn⟩, fun _ _ _ he => nomatch he⟩
  | paren hstack =>
      exact ⟨⟨n, _, us, rfl, .paren hstack, hvalue, hroom, hn⟩, fun _ _ _ he => nomatch he⟩
  | unary op => exact hroom.elim
  | @binary op stack ts vs left hstack hop hleft ih =>
      cases hclosed : closed op with
      | true =>
          have hright : Derives op.rightLevel us value :=
            hvalue.loosen (rightLevel_le_of_room hroom)
          have hjoined := ih hop (hleft.binary op hright) (Or.inr ⟨op, hclosed, rfl⟩)
          simpa only [ParserState.collapse, hclosed, if_true, List.append_assoc,
            List.singleton_append] using hjoined
      | false =>
          simp only [ParserState.collapse, hclosed]
          refine ⟨⟨n, _, us, rfl, .binary op hstack hop hleft, hvalue, hroom, hn⟩, ?_⟩
          rintro op' left' rest' he
          obtain ⟨he, -⟩ := List.cons.inj he
          obtain ⟨rfl, -⟩ := Frame.binary.inj he
          exact hclosed

/-- What closing operators leaves holds of a state with a value. -/
theorem Collapsed.of_complete (closed : BinaryOp → Bool)
    (h : Spells (.complete value stack) ts) :
    Collapsed closed ts (ParserState.collapse closed value stack).1
      (ParserState.collapse closed value stack).2 := by
  cases h with
  | complete hstack hroom hvalue => exact hstack.collapse closed hroom hvalue (Or.inl rfl)

/-- The left operand of an operator is what the operator closes. -/
theorem Collapsed.opened_binary {op : BinaryOp}
    (h : Collapsed (fun opened => closedBy opened op) ts value stack) :
    Opened (.binary op value :: stack) (ts ++ [.binary op]) := by
  obtain ⟨⟨n, us, vs, rfl, hstack, hvalue, hroom, hn⟩, hstays⟩ := h
  have hlevel : op.leftLevel ≤ n := by
    rcases hn with rfl | ⟨opened, hclosed, rfl⟩
    · exact op.leftLevel_le
    · exact closedBy_iff_leftLevel_le.mp hclosed
  have hroom' : Room op.level stack := by
    cases stack with
    | nil => trivial
    | cons frame rest =>
        cases frame with
        | unary op => exact hroom.elim
        | paren => trivial
        | binary opened left =>
            exact closedBy_eq_false_iff.mp (hstays opened left rest rfl)
  rw [List.append_assoc]
  exact .binary op hstack hroom' (hvalue.loosen hlevel)

/-- When all operators are closed, a parenthesis or nothing is left open. -/
theorem Collapsed.all (h : Collapsed (fun _ => true) ts value stack) :
    ∃ us vs, ts = us ++ vs ∧ Opened stack us ∧ Sentence vs value := by
  obtain ⟨⟨n, us, vs, rfl, hstack, hvalue, -, -⟩, -⟩ := h
  exact ⟨us, vs, rfl, hstack, hvalue.loosen (Nat.zero_le n)⟩

/-- A step adds its token to what has been read. -/
theorem Spells.step {s s' : ParserState} {t : Token} (h : Spells s ts) (hs : s.step t = some s') :
    Spells s' (ts ++ [t]) := by
  cases s with
  | operand stack =>
      cases h with
      | operand hstack =>
          cases t with
          | ident name =>
              obtain rfl := Option.some.inj hs
              exact hstack.settle (.ident name)
          | const value =>
              obtain rfl := Option.some.inj hs
              exact hstack.settle (.const value)
          | unary op =>
              obtain rfl := Option.some.inj hs
              exact .operand (.unary op hstack)
          | openParen =>
              obtain rfl := Option.some.inj hs
              exact .operand (.paren hstack)
          | closeParen => cases hs
          | binary op => cases hs
          | stray c => cases hs
  | complete value stack =>
      cases t with
      | binary op =>
          obtain rfl := Option.some.inj hs
          exact .operand (Collapsed.of_complete _ h).opened_binary
      | closeParen =>
          obtain ⟨us, vs, rfl, hstack, hvalue⟩ := (Collapsed.of_complete (fun _ => true) h).all
          rw [ParserState.step] at hs
          generalize collapse (fun _ => true) value stack = result at hs hstack hvalue
          obtain ⟨inner, rest⟩ := result
          cases hstack with
          | nil => cases hs
          | unary op => cases hs
          | binary op => cases hs
          | paren hrest =>
              obtain rfl := Option.some.inj hs
              rw [List.append_assoc, List.append_assoc]
              exact hrest.settle (.paren hvalue)
      | ident name => cases hs
      | const value => cases hs
      | unary op => cases hs
      | openParen => cases hs
      | stray c => cases hs

/-- A run reads on from what has been read. -/
theorem Spells.reads {s s' : ParserState} (h : Spells s ts) (hs : s.reads us = some s') :
    Spells s' (ts ++ us) := by
  induction us generalizing s ts with
  | nil =>
      obtain rfl := Option.some.inj hs
      rwa [List.append_nil]
  | cons t us ih =>
      rw [ParserState.reads, List.foldlM_cons] at hs
      obtain ⟨r, hr, hrest⟩ := Option.bind_eq_some_iff.mp hs
      have hall := ih (h.step hr) hrest
      rwa [List.append_assoc] at hall

/-- A state in which the text may end has read a sentence. -/
theorem Spells.sentence {s : ParserState} (h : Spells s ts) (hf : s.finish? = some f) :
    Sentence ts f := by
  cases s with
  | operand stack => cases hf
  | complete value stack =>
      obtain ⟨us, vs, rfl, hstack, hvalue⟩ := (Collapsed.of_complete (fun _ => true) h).all
      rw [finish?] at hf
      generalize collapse (fun _ => true) value stack = result at hf hstack hvalue
      obtain ⟨value', rest⟩ := result
      cases hstack with
      | nil =>
          obtain rfl := Option.some.inj hf
          exact hvalue
      | paren => cases hf
      | unary op => cases hf
      | binary op => cases hf

end ParserState

/-- The machine accepts the sentences of the grammar, each as its formula. -/
theorem exists_reads_iff_sentence : (∃ s, (ParserState.operand []).reads ts = some s ∧
    s.finish? = some f) ↔ Sentence ts f := by
  constructor
  · rintro ⟨s, hs, hf⟩
    exact (ParserState.Spells.reads (.operand .nil) hs).sentence hf
  · intro h
    exact (ParserState.reads_of_derives h).1.finish

/-- A sentence derives one formula only. -/
theorem Sentence.unique (hf : Sentence ts f) (hg : Sentence ts g) : f = g := by
  obtain ⟨s, hs, hfinish⟩ := exists_reads_iff_sentence.mpr hf
  obtain ⟨s', hs', hfinish'⟩ := exists_reads_iff_sentence.mpr hg
  obtain rfl := Option.some.inj (hs.symm.trans hs')
  exact Option.some.inj (hfinish.symm.trans hfinish')

/-- A text is read as a formula exactly if its tokens are a sentence for it. -/
theorem parse_eq_ok_iff_sentence {text : String} :
    parse text = .ok f ↔ Sentence (Text.tokens Token.read text.toList) f := by
  rw [parse_eq_ok_iff, exists_reads_iff_sentence]

end Formula

end ProcessLogic
