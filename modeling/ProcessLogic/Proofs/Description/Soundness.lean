import ProcessLogic.Proofs.Description.Parser

/-!
# The parser accepts nothing but sentences

The place of the machine says what has been read of the statement it is in: `Begun` lists the
tokens. A step adds its token to them or completes the statement, so whenever the machine may end it
has read a sentence for the statements that it has collected.
-/

namespace ProcessLogic.Description

open Text

variable {start : Nat} {ts us : List Token} {attributes more : Attributes} {owner : Owner}

/-- The tokens to which an attribute list belongs. -/
inductive Headed (start : Nat) : Owner → List Token → Prop
  | nodeDefaults : Headed start .nodeDefaults [.node]
  | edgeDefaults : Headed start .edgeDefaults [.edge]
  | node {t : Token} {name : String} : Named t name → Headed start (.node name) [t]
  | edge {t u : Token} {source target : String} : Named t source → Named u target →
      Headed start (.edge source target start) [t, .arrow, u]

/-- What an attribute list belongs to is a statement with the list and a semicolon. -/
theorem Headed.statementTokens (h : Headed start owner ts) (hlist : AttributeList us attributes) :
    StatementTokens start (ts ++ us ++ [.semicolon]) (owner.statement attributes) := by
  cases h with
  | nodeDefaults => exact .nodeDefaults hlist
  | edgeDefaults => exact .edgeDefaults hlist
  | node hname => exact .nodeWith hname hlist
  | edge hsource htarget => exact .edgeWith hsource htarget hlist

/-- Pairs each of which a comma follows; the attributes stand last first. -/
inductive Listed : Attributes → List Token → Prop
  | nil : Listed [] []
  | comma {attributes : Attributes} {ts : List Token} (key : String) {t : Token} {value : String} :
      Listed attributes ts → Named t value →
      Listed ((key, value) :: attributes) (ts ++ [.ident key, .equals, t, .comma])

/-- Pairs with a comma after each go on with further pairs. -/
theorem Listed.pairs (h : Listed attributes ts) (hmore : Pairs us more) :
    Pairs (ts ++ us) (attributes.reverse ++ more) := by
  induction h generalizing us more with
  | nil => exact hmore
  | comma key _ hvalue ih =>
      rw [List.append_assoc, List.reverse_cons, List.append_assoc]
      exact ih (.more key hvalue hmore)

/-- The tokens that have been read of a statement when the machine is at a place. -/
inductive Begun (start : Nat) : Place → List Token → Prop
  | nothing : Begun start .statement []
  | defaults {owner : Owner} {ts : List Token} : Headed start owner ts →
      Begun start (.defaults owner) ts
  | ident (name : String) : Begun start (.word name false start) [.ident name]
  | str (name : String) : Begun start (.word name true start) [.str name]
  | arrow {t : Token} {source : String} : Named t source →
      Begun start (.arrow source start) [t, .arrow]
  | target {t u : Token} {source target : String} (isStr : Bool) : Named t source →
      Named u target → Begun start (.target (.edge source target start) isStr) [t, .arrow, u]
  | graphEquals (key : String) : Begun start .graphEquals [.ident key, .equals]
  | graphValue (key : String) {t : Token} {value : String} : Named t value →
      Begun start .graphValue [.ident key, .equals, t]
  | openBracket {owner : Owner} {ts : List Token} : Headed start owner ts →
      Begun start (.openBracket owner) (ts ++ [.openBracket])
  | key {owner : Owner} {attributes : Attributes} {ts us : List Token} (key : String) :
      Headed start owner ts → Listed attributes us →
      Begun start (.key owner attributes key) (ts ++ .openBracket :: us ++ [.ident key])
  | equals {owner : Owner} {attributes : Attributes} {ts us : List Token} (key : String) :
      Headed start owner ts → Listed attributes us →
      Begun start (.equals owner attributes key)
        (ts ++ .openBracket :: us ++ [.ident key, .equals])
  | value {owner : Owner} {attributes : Attributes} {ts us : List Token} (key : String) {t : Token}
      {value : String} : Headed start owner ts → Listed attributes us → Named t value →
      Begun start (.value owner ((key, value) :: attributes))
        (ts ++ .openBracket :: us ++ [.ident key, .equals, t])
  | comma {owner : Owner} {attributes : Attributes} {ts us : List Token} :
      Headed start owner ts → Listed attributes us →
      Begun start (.comma owner attributes) (ts ++ .openBracket :: us)
  | closeBracket {owner : Owner} {attributes : Attributes} {ts us : List Token} :
      Headed start owner ts → AttributeList us attributes.reverse →
      Begun start (.closeBracket owner attributes) (ts ++ us)

/-- What one more token makes of a statement: it goes on, it is complete, or the text of the graph
ends instead. -/
inductive Continued (start : Nat) (statements : List Statement) (ts : List Token) :
    ParserState → Prop
  | within {place : Place} : Begun start place ts → Continued start statements ts ⟨place, statements⟩
  | complete {statement : Statement} : StatementTokens start ts statement →
      Continued start statements ts ⟨.statement, statement :: statements⟩
  | ended : ts = [.closeBrace] → Continued start statements ts ⟨.done, statements⟩

section Step

-- one lemma for each kind of place, with a case for each token that the machine takes there

variable {statements : List Statement} {l : Lexeme Token} {s : ParserState} {key value : String}

/-- A statement begins with a word, or with a keyword whose defaults it sets. -/
theorem continued_of_statement (hs : ParserState.step ⟨.statement, statements⟩ l = some s) :
    Continued l.start statements [l.token] s := by
  obtain ⟨token, first, stop⟩ := l
  cases token with
  | node =>
      obtain rfl := Option.some.inj hs
      exact .within (.defaults .nodeDefaults)
  | edge =>
      obtain rfl := Option.some.inj hs
      exact .within (.defaults .edgeDefaults)
  | ident name =>
      obtain rfl := Option.some.inj hs
      exact .within (.ident name)
  | str name =>
      obtain rfl := Option.some.inj hs
      exact .within (.str name)
  | closeBrace =>
      obtain rfl := Option.some.inj hs
      exact .ended rfl
  | _ => exact nomatch hs

/-- A word is a node, the source of an edge or, if it is a plain one, a graph attribute. -/
theorem Named.continued {t : Token} {name : String} {isStr : Bool} (h : Named t name)
    (hplain : isStr = false → t = .ident name)
    (hs : ParserState.step ⟨.word name isStr start, statements⟩ l = some s) :
    Continued start statements ([t] ++ [l.token]) s := by
  obtain ⟨token, first, stop⟩ := l
  cases token with
  | semicolon =>
      obtain rfl := Option.some.inj hs
      exact .complete (.node h)
  | openBracket =>
      obtain rfl := Option.some.inj hs
      exact .within (.openBracket (.node h))
  | arrow =>
      obtain rfl := Option.some.inj hs
      exact .within (.arrow h)
  | equals =>
      cases isStr with
      | true => exact nomatch hs
      | false =>
          obtain rfl := Option.some.inj hs
          obtain rfl := hplain rfl
          exact .within (.graphEquals name)
  | _ => exact nomatch hs

/-- An arrow points at a word. -/
theorem Named.continued_arrow {t : Token} {source : String} (h : Named t source)
    (hs : ParserState.step ⟨.arrow source start, statements⟩ l = some s) :
    Continued start statements ([t, .arrow] ++ [l.token]) s := by
  obtain ⟨token, first, stop⟩ := l
  cases token with
  | ident name =>
      obtain rfl := Option.some.inj hs
      exact .within (.target false h (.ident name))
  | str name =>
      obtain rfl := Option.some.inj hs
      exact .within (.target true h (.str name))
  | _ => exact nomatch hs

/-- An edge is complete, or it has attributes. -/
theorem Named.continued_target {t u : Token} {source target : String} {isStr : Bool}
    (hsource : Named t source) (htarget : Named u target)
    (hs : ParserState.step ⟨.target (.edge source target start) isStr, statements⟩ l = some s) :
    Continued start statements ([t, .arrow, u] ++ [l.token]) s := by
  obtain ⟨token, first, stop⟩ := l
  cases token with
  | semicolon =>
      obtain rfl := Option.some.inj hs
      exact .complete (.edge hsource htarget)
  | openBracket =>
      obtain rfl := Option.some.inj hs
      exact .within (.openBracket (.edge hsource htarget))
  | _ => exact nomatch hs

/-- The value of a graph attribute is a word. -/
theorem continued_of_graphEquals
    (hs : ParserState.step ⟨.graphEquals, statements⟩ l = some s) :
    Continued start statements ([.ident key, .equals] ++ [l.token]) s := by
  obtain ⟨token, first, stop⟩ := l
  cases token with
  | ident name =>
      obtain rfl := Option.some.inj hs
      exact .within (.graphValue key (.ident name))
  | str name =>
      obtain rfl := Option.some.inj hs
      exact .within (.graphValue key (.str name))
  | _ => exact nomatch hs

/-- An attribute list has a first key, or it is empty. -/
theorem Headed.continued_openBracket (h : Headed start owner ts)
    (hs : ParserState.step ⟨.openBracket owner, statements⟩ l = some s) :
    Continued start statements (ts ++ [.openBracket] ++ [l.token]) s := by
  obtain ⟨token, first, stop⟩ := l
  rw [List.append_assoc]
  cases token with
  | ident name =>
      obtain rfl := Option.some.inj hs
      have hbegun := Begun.key name h .nil
      rw [List.append_assoc] at hbegun
      exact .within hbegun
  | closeBracket =>
      obtain rfl := Option.some.inj hs
      exact .within (.closeBracket h .empty)
  | _ => exact nomatch hs

/-- The value of an attribute is a word. -/
theorem Listed.continued_equals (h : Listed attributes us) (howner : Headed start owner ts)
    (hs : ParserState.step ⟨.equals owner attributes key, statements⟩ l = some s) :
    Continued start statements (ts ++ .openBracket :: us ++ [.ident key, .equals] ++ [l.token])
      s := by
  obtain ⟨token, first, stop⟩ := l
  rw [List.append_assoc]
  cases token with
  | ident value =>
      obtain rfl := Option.some.inj hs
      exact .within (.value key howner h (.ident value))
  | str value =>
      obtain rfl := Option.some.inj hs
      exact .within (.value key howner h (.str value))
  | _ => exact nomatch hs

/-- After an attribute there is another one, or the list is complete. -/
theorem Listed.continued_value {t : Token} (h : Listed attributes us)
    (howner : Headed start owner ts) (hvalue : Named t value)
    (hs : ParserState.step ⟨.value owner ((key, value) :: attributes), statements⟩ l = some s) :
    Continued start statements
      (ts ++ .openBracket :: us ++ [.ident key, .equals, t] ++ [l.token]) s := by
  obtain ⟨token, first, stop⟩ := l
  cases token with
  | comma =>
      obtain rfl := Option.some.inj hs
      have hall := Begun.comma howner (h.comma key hvalue)
      simp only [List.append_assoc, List.cons_append, List.nil_append] at hall ⊢
      exact .within hall
  | closeBracket =>
      obtain rfl := Option.some.inj hs
      have hlist := h.pairs (.one key hvalue)
      rw [← List.reverse_cons] at hlist
      have hall := Begun.closeBracket howner (.pairs hlist)
      simp only [List.append_assoc, List.cons_append, List.nil_append] at hall ⊢
      exact .within hall
  | _ => exact nomatch hs

end Step

/-- A step continues the statement, which starts with its first lexeme. -/
theorem Begun.step {place : Place} {statements : List Statement} {l : Lexeme Token}
    {s : ParserState} (h : Begun start place ts) (hstart : ts = [] → l.start = start)
    (hs : ParserState.step ⟨place, statements⟩ l = some s) :
    Continued start statements (ts ++ [l.token]) s := by
  cases h with
  | nothing =>
      obtain rfl := hstart rfl
      exact continued_of_statement hs
  | ident name => exact (Named.ident name).continued (fun _ => rfl) hs
  | str name =>
      have hplain : true = false → Token.str name = .ident name := nofun
      exact (Named.str name).continued hplain hs
  | arrow hsource => exact hsource.continued_arrow hs
  | target isStr hsource htarget => exact hsource.continued_target htarget hs
  | graphEquals key => exact continued_of_graphEquals hs
  | openBracket howner => exact howner.continued_openBracket hs
  | equals key howner hlisted => exact hlisted.continued_equals howner hs
  | value key howner hlisted hvalue => exact hlisted.continued_value howner hvalue hs
  -- at the other places only one token goes on
  | defaults howner =>
      obtain ⟨token, first, stop⟩ := l
      cases token with
      | openBracket =>
          obtain rfl := Option.some.inj hs
          exact .within (.openBracket howner)
      | _ => exact nomatch hs
  | graphValue key hvalue =>
      obtain ⟨token, first, stop⟩ := l
      cases token with
      | semicolon =>
          obtain rfl := Option.some.inj hs
          exact .complete (.graphAttribute key hvalue)
      | _ => exact nomatch hs
  | key name howner hlisted =>
      obtain ⟨token, first, stop⟩ := l
      cases token with
      | equals =>
          obtain rfl := Option.some.inj hs
          rw [List.append_assoc]
          exact .within (.equals name howner hlisted)
      | _ => exact nomatch hs
  | comma howner hlisted =>
      obtain ⟨token, first, stop⟩ := l
      cases token with
      | ident name =>
          obtain rfl := Option.some.inj hs
          exact .within (.key name howner hlisted)
      | _ => exact nomatch hs
  | closeBracket howner hlist =>
      obtain ⟨token, first, stop⟩ := l
      cases token with
      | semicolon =>
          obtain rfl := Option.some.inj hs
          exact .complete (howner.statementTokens hlist)
      | _ => exact nomatch hs

/-- Within a statement a text may not end. -/
theorem Begun.finish?_eq_none {place : Place} {statements : List Statement}
    (h : Begun start place ts) : ParserState.finish? ⟨place, statements⟩ = none := by
  cases h <;> rfl

/-- The heading of a description has been read. -/
def Heading (lexemes : List (Lexeme Token)) : Prop :=
  tokensOf lexemes = [.digraph, .openBrace] ∨
    ∃ t name, Named t name ∧ tokensOf lexemes = [.digraph, t, .openBrace]

/-- A heading, statements and a closing brace are a sentence. -/
theorem Heading.sentence {before body : List (Lexeme Token)} {last : Lexeme Token}
    {statements : List Statement} (h : Heading before) (hbody : Statements body statements)
    (hlast : last.token = .closeBrace) : Sentence (before ++ body ++ [last]) statements := by
  rcases h with hbefore | ⟨t, name, hnamed, hbefore⟩
  · exact .unnamed hbefore hbody hlast
  · exact .named hnamed hbefore hbody hlast

/-- Statements can be read one after another. -/
theorem Statements.append {ls us : List (Lexeme Token)} {read later : List Statement}
    (h : Statements ls read) (hlater : Statements us later) :
    Statements (ls ++ us) (read ++ later) := by
  induction h with
  | empty => exact hlater
  | more hfirst _ ih =>
      rw [List.append_assoc]
      exact .more hfirst ih

/-- The lexemes that have been read into a state. -/
inductive Spells : ParserState → List (Lexeme Token) → Prop
  | start : Spells ⟨.start, []⟩ []
  | digraph {l : Lexeme Token} : l.token = .digraph → Spells ⟨.digraph, []⟩ [l]
  | graphName {l l' : Lexeme Token} {name : String} (isStr : Bool) : l.token = .digraph →
      Named l'.token name → Spells ⟨.graphName isStr, []⟩ [l, l']
  | between {before body : List (Lexeme Token)} {statements : List Statement} :
      Heading before → Statements body statements →
      Spells ⟨.statement, statements.reverse⟩ (before ++ body)
  | within {before body others : List (Lexeme Token)} {first : Lexeme Token}
      {statements : List Statement} {place : Place} :
      Heading before → Statements body statements →
      Begun first.start place (tokensOf (first :: others)) →
      Spells ⟨place, statements.reverse⟩ (before ++ body ++ first :: others)
  | done {ls : List (Lexeme Token)} {statements : List Statement} : Sentence ls statements →
      Spells ⟨.done, statements.reverse⟩ ls

/-- What one more token makes of a statement is what has been read with that token. -/
theorem Continued.spells {before body others : List (Lexeme Token)} {first : Lexeme Token}
    {statements : List Statement} {s : ParserState}
    (h : Continued first.start statements.reverse (tokensOf (first :: others)) s)
    (hheading : Heading before) (hbody : Statements body statements) :
    Spells s (before ++ body ++ first :: others) := by
  cases h with
  | within hbegun => exact .within hheading hbody hbegun
  | @complete statement hstatement =>
      have hall := hbody.append (.more hstatement .empty)
      have hreverse : (statements ++ [statement]).reverse = statement :: statements.reverse := by
        simp
      rw [← hreverse, List.append_assoc]
      rw [List.append_nil] at hall
      exact .between hheading hall
  | ended hlast =>
      obtain ⟨hbrace, hnil⟩ := List.cons.inj hlast
      obtain rfl := List.map_eq_nil_iff.mp hnil
      exact .done (hheading.sentence hbody hbrace)

/-- A step adds its lexeme to what has been read. -/
theorem Spells.step {s s' : ParserState} {ls : List (Lexeme Token)} {l : Lexeme Token}
    (h : Spells s ls) (hs : s.step l = some s') : Spells s' (ls ++ [l]) := by
  cases h with
  | start =>
      cases htoken : l.token with
      | digraph =>
          rw [ParserState.step, htoken] at hs
          obtain rfl := Option.some.inj hs
          exact .digraph htoken
      | _ => simp [ParserState.step, htoken] at hs
  | @digraph digraph hl =>
      cases htoken : l.token with
      | ident name =>
          rw [ParserState.step, htoken] at hs
          obtain rfl := Option.some.inj hs
          have hname : Named l.token name := by
            rw [htoken]
            exact .ident name
          exact .graphName false hl hname
      | str name =>
          rw [ParserState.step, htoken] at hs
          obtain rfl := Option.some.inj hs
          have hname : Named l.token name := by
            rw [htoken]
            exact .str name
          exact .graphName true hl hname
      | openBrace =>
          rw [ParserState.step, htoken] at hs
          obtain rfl := Option.some.inj hs
          have hheading : Heading [digraph, l] := Or.inl (by simp [hl, htoken])
          exact .between hheading .empty
      | _ => simp [ParserState.step, htoken] at hs
  | @graphName digraph named name isStr hl hname =>
      cases htoken : l.token with
      | openBrace =>
          rw [ParserState.step, htoken] at hs
          obtain rfl := Option.some.inj hs
          have hheading : Heading [digraph, named, l] :=
            Or.inr ⟨named.token, name, hname, by simp [hl, htoken]⟩
          exact .between hheading .empty
      | _ => simp [ParserState.step, htoken] at hs
  | between hheading hbody =>
      have hnext := Begun.nothing.step (fun _ => rfl) hs
      exact hnext.spells hheading hbody
  | within hheading hbody hbegun =>
      have hnext := hbegun.step (fun hnil => absurd hnil (List.cons_ne_nil _ _)) hs
      rw [List.append_assoc, List.cons_append]
      rw [← List.map_singleton, ← List.map_append] at hnext
      exact hnext.spells hheading hbody
  | done hsentence => simp [ParserState.step] at hs

/-- A run reads on from what has been read. -/
theorem Spells.leads {s s' : ParserState} {ls us : List (Lexeme Token)} (h : Spells s ls)
    (hleads : Leads ParserState.step s us s') : Spells s' (ls ++ us) := by
  induction us generalizing s ls with
  | nil =>
      obtain rfl := Except.ok.inj hleads
      rwa [List.append_nil]
  | cons l us ih =>
      obtain ⟨r, hr, hrest⟩ := leads_cons_iff.mp hleads
      have hall := ih (h.step hr) hrest
      rwa [List.append_assoc] at hall

/-- A state in which the text may end has read a sentence. -/
theorem Spells.sentence {s : ParserState} {ls : List (Lexeme Token)} {statements : List Statement}
    (h : Spells s ls) (hf : s.finish? = some statements) : Sentence ls statements := by
  cases h with
  | done hsentence =>
      obtain rfl := Option.some.inj hf
      rwa [List.reverse_reverse]
  | within _ _ hbegun => exact nomatch hbegun.finish?_eq_none.symm.trans hf
  | start | digraph | graphName | between => exact nomatch hf

/-- The machine reads the sentences to their end and no other text. -/
theorem exists_leads_iff_sentence {ls : List (Lexeme Token)} {statements : List Statement} :
    (∃ s, Leads ParserState.step ⟨.start, []⟩ ls s ∧ s.finish? = some statements) ↔
      Sentence ls statements := by
  constructor
  · rintro ⟨s, hs, hf⟩
    exact (Spells.start.leads hs).sentence hf
  · intro h
    exact ⟨_, ParserState.leads_sentence h, by rw [ParserState.finish?, List.reverse_reverse]⟩

end ProcessLogic.Description
