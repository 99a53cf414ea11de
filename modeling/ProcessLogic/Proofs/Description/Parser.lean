import ProcessLogic.Description.Parser
import ProcessLogic.Proofs.Text.Machine

/-!
# The parser accepts every sentence

A derivation in the grammar tells the machine what to collect at every place, so it reads each
sentence to its end and has the statements of the derivation.
-/

namespace ProcessLogic.Description

open Text

/-- The first lexeme and the others, when the first token is known. -/
theorem exists_cons_of_tokensOf {ls : List (Lexeme Token)} {t : Token} {ts : List Token}
    (h : tokensOf ls = t :: ts) : ∃ l ls', ls = l :: ls' ∧ l.token = t ∧ tokensOf ls' = ts :=
  List.map_eq_cons_iff.mp h

namespace ParserState

/-- A name or a value goes to one place, whether it is quoted or not. -/
theorem step_value {t : Token} {value : String} (h : Named t value) {l : Lexeme Token}
    (hl : l.token = t) (owner : Owner) (attributes : Attributes) (key : String)
    (statements : List Statement) :
    step ⟨.equals owner attributes key, statements⟩ l =
      some ⟨.value owner ((key, value) :: attributes), statements⟩ := by
  cases h <;> rw [step, hl] <;> rfl

/-- The machine collects the pairs of an attribute list. -/
theorem leads_pairs {ts : List Token} {attributes : Attributes} (h : Pairs ts attributes)
    {ls : List (Lexeme Token)} (hls : tokensOf ls = ts) {place : Place} (owner : Owner)
    (collected : Attributes) {statements : List Statement}
    (hkey : ∀ (l : Lexeme Token) (key : String), l.token = .ident key →
      step ⟨place, statements⟩ l = some ⟨.key owner collected key, statements⟩) :
    Leads step ⟨place, statements⟩ ls
      ⟨.value owner (attributes.reverse ++ collected), statements⟩ := by
  induction h generalizing ls place collected with
  | one key hnamed =>
      obtain ⟨l₁, ls, rfl, h₁, hls⟩ := exists_cons_of_tokensOf hls
      obtain ⟨l₂, ls, rfl, h₂, hls⟩ := exists_cons_of_tokensOf hls
      obtain ⟨l₃, ls, rfl, h₃, hls⟩ := exists_cons_of_tokensOf hls
      obtain rfl := List.map_eq_nil_iff.mp hls
      exact .cons (hkey l₁ key h₁) (.cons (by rw [step, h₂]; rfl)
        (.cons (step_value hnamed h₃ owner collected key statements) (.nil _)))
  | more key hnamed hrest ih =>
      obtain ⟨l₁, ls, rfl, h₁, hls⟩ := exists_cons_of_tokensOf hls
      obtain ⟨l₂, ls, rfl, h₂, hls⟩ := exists_cons_of_tokensOf hls
      obtain ⟨l₃, ls, rfl, h₃, hls⟩ := exists_cons_of_tokensOf hls
      obtain ⟨l₄, ls, rfl, h₄, hls⟩ := exists_cons_of_tokensOf hls
      refine .cons (hkey l₁ key h₁) (.cons (by rw [step, h₂]; rfl)
        (.cons (step_value hnamed h₃ owner collected key statements)
          (.cons (by rw [step, h₄]; rfl) ?_)))
      rw [List.reverse_cons, List.append_assoc, List.singleton_append]
      exact ih hls _ fun l key hl => by rw [step, hl]; rfl

/-- The machine collects an attribute list, from wherever one may start. -/
theorem leads_attributeList {ts : List Token} {attributes : Attributes}
    (h : AttributeList ts attributes) {ls : List (Lexeme Token)} (hls : tokensOf ls = ts)
    {place : Place} {owner : Owner} {statements : List Statement}
    (hopen : ∀ l : Lexeme Token, l.token = .openBracket →
      step ⟨place, statements⟩ l = some ⟨.openBracket owner, statements⟩) :
    Leads step ⟨place, statements⟩ ls ⟨.closeBracket owner attributes.reverse, statements⟩ := by
  cases h with
  | empty =>
      obtain ⟨l₁, ls, rfl, h₁, hls⟩ := exists_cons_of_tokensOf hls
      obtain ⟨l₂, ls, rfl, h₂, hls⟩ := exists_cons_of_tokensOf hls
      obtain rfl := List.map_eq_nil_iff.mp hls
      exact .cons (hopen l₁ h₁) (.cons (by rw [step, h₂]; rfl) (.nil _))
  | pairs hpairs =>
      obtain ⟨l₁, ls, rfl, h₁, hls⟩ := exists_cons_of_tokensOf hls
      obtain ⟨body, last, rfl, hbody, hlast⟩ := List.map_eq_append_iff.mp hls
      obtain ⟨l₂, ls, rfl, h₂, hls⟩ := exists_cons_of_tokensOf hlast
      obtain rfl := List.map_eq_nil_iff.mp hls
      refine .cons (hopen l₁ h₁) ((leads_pairs hpairs hbody owner []
        fun l key hl => by rw [step, hl]; rfl).append (.cons (by rw [step, h₂]; rfl) ?_))
      rw [List.append_nil]
      exact .nil _

/-- An attribute list and a semicolon complete the statement of their owner. -/
theorem leads_close {ts : List Token} {attributes : Attributes}
    (h : AttributeList ts attributes) {ls : List (Lexeme Token)}
    (hls : tokensOf ls = ts ++ [.semicolon]) {place : Place} (owner : Owner)
    {statements : List Statement}
    (hopen : ∀ l : Lexeme Token, l.token = .openBracket →
      step ⟨place, statements⟩ l = some ⟨.openBracket owner, statements⟩) :
    Leads step ⟨place, statements⟩ ls
      ⟨.statement, owner.statement attributes :: statements⟩ := by
  obtain ⟨body, last, rfl, hbody, hlast⟩ := List.map_eq_append_iff.mp hls
  obtain ⟨l, ls, rfl, hl, hnil⟩ := exists_cons_of_tokensOf hlast
  obtain rfl := List.map_eq_nil_iff.mp hnil
  refine (leads_attributeList h hbody hopen).append (.cons (r := ⟨.statement, _⟩) ?_ (.nil _))
  rw [step, hl]
  simp only [close, List.reverse_reverse]

/-- A name starts a node statement or an edge. -/
theorem step_name {t : Token} {name : String} (h : Named t name) {l : Lexeme Token}
    (hl : l.token = t) (statements : List Statement) :
    ∃ isStr, step ⟨.statement, statements⟩ l = some ⟨.word name isStr l.start, statements⟩ := by
  cases h with
  | ident => exact ⟨false, by rw [step, hl]; rfl⟩
  | str => exact ⟨true, by rw [step, hl]; rfl⟩

/-- A name after an arrow is the target of an edge. -/
theorem step_target {t : Token} {target : String} (h : Named t target) {l : Lexeme Token}
    (hl : l.token = t) (source : String) (start : Nat) (statements : List Statement) :
    ∃ isStr, step ⟨.arrow source start, statements⟩ l =
      some ⟨.target (.edge source target start) isStr, statements⟩ := by
  cases h with
  | ident => exact ⟨false, by rw [step, hl]; rfl⟩
  | str => exact ⟨true, by rw [step, hl]; rfl⟩

/-- The machine reads a statement and adds it to those it has. -/
theorem leads_statement {first : Lexeme Token} {others : List (Lexeme Token)}
    {statement : Statement}
    (h : StatementTokens first.start (tokensOf (first :: others)) statement)
    (statements : List Statement) :
    Leads step ⟨.statement, statements⟩ (first :: others)
      ⟨.statement, statement :: statements⟩ := by
  generalize hts : tokensOf (first :: others) = ts at h
  change first.token :: tokensOf others = ts at hts
  cases h with
  | nodeDefaults hlist =>
      obtain ⟨hfirst, hothers⟩ := List.cons.inj hts
      exact .cons (by rw [step, hfirst]; rfl)
        (leads_close hlist hothers .nodeDefaults fun l hl => by rw [step, hl]; rfl)
  | edgeDefaults hlist =>
      obtain ⟨hfirst, hothers⟩ := List.cons.inj hts
      exact .cons (by rw [step, hfirst]; rfl)
        (leads_close hlist hothers .edgeDefaults fun l hl => by rw [step, hl]; rfl)
  | graphAttribute key hnamed =>
      obtain ⟨hfirst, hothers⟩ := List.cons.inj hts
      obtain ⟨l₂, ls, rfl, h₂, hls⟩ := exists_cons_of_tokensOf hothers
      obtain ⟨l₃, ls, rfl, h₃, hls⟩ := exists_cons_of_tokensOf hls
      obtain ⟨l₄, ls, rfl, h₄, hls⟩ := exists_cons_of_tokensOf hls
      obtain rfl := List.map_eq_nil_iff.mp hls
      refine .cons (by rw [step, hfirst]; rfl) (.cons (by rw [step, h₂]; rfl)
        (.cons (r := ⟨.graphValue, statements⟩) ?_ (.cons (by rw [step, h₄]; rfl) (.nil _))))
      cases hnamed <;> rw [step, h₃] <;> rfl
  | node hnamed =>
      obtain ⟨hfirst, hothers⟩ := List.cons.inj hts
      obtain ⟨l₂, ls, rfl, h₂, hls⟩ := exists_cons_of_tokensOf hothers
      obtain rfl := List.map_eq_nil_iff.mp hls
      obtain ⟨isStr, hname⟩ := step_name hnamed hfirst statements
      exact .cons hname (.cons (by rw [step, h₂]; rfl) (.nil _))
  | nodeWith hnamed hlist =>
      rename_i name _ _
      obtain ⟨hfirst, hothers⟩ := List.cons.inj hts
      obtain ⟨isStr, hname⟩ := step_name hnamed hfirst statements
      exact .cons hname
        (leads_close hlist hothers (.node name) fun l hl => by rw [step, hl]; rfl)
  | edge hsource htarget =>
      obtain ⟨hfirst, hothers⟩ := List.cons.inj hts
      obtain ⟨l₂, ls, rfl, h₂, hls⟩ := exists_cons_of_tokensOf hothers
      obtain ⟨l₃, ls, rfl, h₃, hls⟩ := exists_cons_of_tokensOf hls
      obtain ⟨l₄, ls, rfl, h₄, hls⟩ := exists_cons_of_tokensOf hls
      obtain rfl := List.map_eq_nil_iff.mp hls
      obtain ⟨isStr, hname⟩ := step_name hsource hfirst statements
      obtain ⟨isStr', htarget⟩ := step_target htarget h₃ _ first.start statements
      exact .cons hname (.cons (by rw [step, h₂]; rfl)
        (.cons htarget (.cons (by rw [step, h₄]; rfl) (.nil _))))
  | edgeWith hsource htarget hlist =>
      rename_i source target _ _
      obtain ⟨hfirst, hothers⟩ := List.cons.inj hts
      obtain ⟨l₂, ls, rfl, h₂, hls⟩ := exists_cons_of_tokensOf hothers
      obtain ⟨l₃, ls, rfl, h₃, hls⟩ := exists_cons_of_tokensOf hls
      obtain ⟨isStr, hname⟩ := step_name hsource hfirst statements
      obtain ⟨isStr', htarget⟩ := step_target htarget h₃ _ first.start statements
      exact .cons hname (.cons (by rw [step, h₂]; rfl) (.cons htarget
        (leads_close hlist hls (.edge source target first.start) fun l hl => by
          rw [step, hl]; rfl)))

/-- The machine reads statements one after another and keeps the last one on top. -/
theorem leads_statements {ls : List (Lexeme Token)} {read : List Statement}
    (h : Statements ls read) (statements : List Statement) :
    Leads step ⟨.statement, statements⟩ ls ⟨.statement, read.reverse ++ statements⟩ := by
  induction h generalizing statements with
  | empty => exact .nil _
  | more hfirst hrest ih =>
      rw [List.reverse_cons, List.append_assoc, List.singleton_append]
      exact (leads_statement hfirst statements).append (ih _)

/-- The closing brace after the statements ends the description. -/
theorem leads_body {body : List (Lexeme Token)} {last : Lexeme Token}
    {statements : List Statement} (h : Statements body statements)
    (hlast : last.token = .closeBrace) :
    Leads step ⟨.statement, []⟩ (body ++ [last]) ⟨.done, statements.reverse⟩ := by
  have hbody := leads_statements h []
  rw [List.append_nil] at hbody
  exact hbody.append (.cons (by rw [step, hlast]; rfl) (.nil _))

/-- The machine reads every sentence to its end and has its statements. -/
theorem leads_sentence {ls : List (Lexeme Token)} {statements : List Statement}
    (h : Sentence ls statements) : Leads step ⟨.start, []⟩ ls ⟨.done, statements.reverse⟩ := by
  cases h with
  | named hnamed hbefore hbody hlast =>
      obtain ⟨l₁, ls, rfl, h₁, hls⟩ := exists_cons_of_tokensOf hbefore
      obtain ⟨l₂, ls, rfl, h₂, hls⟩ := exists_cons_of_tokensOf hls
      obtain ⟨l₃, ls, rfl, h₃, hls⟩ := exists_cons_of_tokensOf hls
      obtain rfl := List.map_eq_nil_iff.mp hls
      have hname : ∃ isStr, step ⟨.digraph, []⟩ l₂ = some ⟨.graphName isStr, []⟩ := by
        cases hnamed with
        | ident => exact ⟨false, by rw [step, h₂]; rfl⟩
        | str => exact ⟨true, by rw [step, h₂]; rfl⟩
      obtain ⟨isStr, hname⟩ := hname
      exact .cons (by rw [step, h₁]; rfl) (.cons hname (.cons (by rw [step, h₃]; rfl)
        (leads_body hbody hlast)))
  | unnamed hbefore hbody hlast =>
      obtain ⟨l₁, ls, rfl, h₁, hls⟩ := exists_cons_of_tokensOf hbefore
      obtain ⟨l₂, ls, rfl, h₂, hls⟩ := exists_cons_of_tokensOf hls
      obtain rfl := List.map_eq_nil_iff.mp hls
      exact .cons (by rw [step, h₁]; rfl) (.cons (by rw [step, h₂]; rfl)
        (leads_body hbody hlast))

end ParserState

/-- A text whose lexemes are a sentence has the statements of the sentence. -/
theorem statements_of_sentence {text : String} {read : List Statement}
    (h : Sentence (Token.scan text) read) : statements text = .ok read := by
  have hleads := ParserState.leads_sentence h
  rw [Leads] at hleads
  rw [statements, hleads]
  simp only [ParserState.finish?, List.reverse_reverse]

end ProcessLogic.Description
