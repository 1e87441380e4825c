import Lox.Proofs.Sentences

/- Which programs are accepted. What the grammar derives is read as it, whatever rules it breaks, and
   each broken rule is reported once; so a program has no diagnostics exactly when it is derivable
   and lawful, and then its statements are the tree of the derivation. -/
namespace Lox.Grammar

theorem not_starts_of_closes {k : Kind} (closes : closesPhrase k = true) :
    starts .assignment k = false := by
  unfold closesPhrase at closes
  split at closes
  · rfl
  · rfl
  · rfl
  · cases closes

section Phrases

variable {ts rest : List Token}

theorem expression_completes {p : Phrase} {stop : Token}
    (d : Derives .assignment ts p (stop :: rest)) (closes : closesPhrase stop.kind = true) :
    (Parse.expression ts).answer =
      (Answer.parsed p.expr (stop :: rest)).after (reports p.places) :=
  d.completes (ends_of_closes closes rest)

theorem optional_completes {value : Option Phrase} {stop : Token}
    (d : DerivesOptional ts value (stop :: rest)) (closes : closesPhrase stop.kind = true) :
    (Parse.optional stop.kind ts).answer =
      (Answer.parsed (value.map Phrase.expr) (stop :: rest)).after
        (reports (optionalPlaces value)) := by
  rw [Parse.answer_optional]
  cases d with
  | none =>
    rw [if_pos (by simp)]
    rfl
  | some derives =>
    obtain ⟨t, ts', rfl, start⟩ := derives.head
    have noStop : ¬ (t :: ts').head?.any (·.kind = stop.kind) := by
      intro same
      have same : t.kind = stop.kind := by simpa using same
      rw [same, not_starts_of_closes closes] at start
      cases start
    rw [if_neg noStop, expression_completes derives closes]
    simp [optionalPlaces]

theorem expressionStatement_completes {p : Phrase} {stop : Token}
    (d : Derives .assignment ts p (stop :: rest)) (ends : stop.kind = .symbol .semicolon) :
    (Parse.expressionStatement ts).answer =
      (Answer.parsed (.expression p.expr) rest).after (reports p.places) := by
  rw [Parse.answer_expressionStatement, expression_completes d (congrArg closesPhrase ends),
    Answer.after_bind, Answer.parsed_bind, answer_expect_of_kind ends]
  rfl

theorem variableDeclaration_completes {name : Token} {value : Option Phrase}
    (d : DerivesVariable ts name value rest) :
    (Parse.variableDeclaration ts).answer =
      (Answer.parsed (.declare name (value.map Phrase.expr)) rest).after
        (reports (optionalPlaces value)) := by
  rw [Parse.answer_variableDeclaration]
  cases d with
  | @bare _ stop _ identifier ends =>
    rw [answer_expect_of_kind identifier, Answer.parsed_bind,
      Parse.answer_initializer_cons, if_neg (by rw [ends]; decide), Answer.parsed_bind,
      answer_expect_of_kind ends]
    rfl
  | @initialized _ equals stop ts _ p identifier sign first ends =>
    rw [answer_expect_of_kind identifier, Answer.parsed_bind,
      Parse.answer_initializer_cons, if_pos sign, expression_completes first (congrArg closesPhrase ends),
      Answer.after_map, Answer.parsed_map, Answer.after_bind, Answer.parsed_bind,
      answer_expect_of_kind ends]
    rfl

theorem parameterList_completes {params : List Token} (d : DerivesParameters ts params rest)
    (some : params ≠ []) (count : Nat) {close : Token} {rest' : List Token}
    (follows : rest = close :: rest') (closes : close.kind = .symbol .rightParen) :
    (Parse.parameterList count ts).answer =
      (Answer.parsed params rest).after (reports (parameterPlaces count params)) := by
  induction d generalizing count with
  | none => exact absurd rfl some
  | @last name rest identifier =>
    subst follows
    rw [Parse.answer_parameterList, answer_expect_of_kind identifier,
      Answer.parsed_bind, entries_eq_parsed_single _ _ (by rw [closes]; decide),
      countReports_parameter]
    simp [parameterPlaces, reports_cons]
  | @more name next comma ts rest later identifier separates _ ih =>
    rw [Parse.answer_parameterList, answer_expect_of_kind identifier,
      Answer.parsed_bind, entries_comma _ _ separates, ih (List.cons_ne_nil _ _) (count + 1) follows,
      countReports_parameter, Answer.after_map, Answer.parsed_map, Answer.after_after, ← reports_cons]
    rfl

theorem parameters_completes {params : List Token} {close : Token}
    (d : DerivesParameters ts params (close :: rest)) (closes : close.kind = .symbol .rightParen) :
    (Parse.parameters ts).answer =
      (Answer.parsed params (close :: rest)).after (reports (parameterPlaces 0 params)) := by
  rw [Parse.answer_parameters]
  by_cases empty : params = []
  · cases d with
    | none =>
      rw [if_pos (by simp [closes])]
      rfl
    | last => cases empty
    | more => cases empty
  · have noClose : ¬ ts.head?.any (·.kind = .symbol .rightParen) := by
      cases d with
      | none => exact absurd rfl empty
      | last identifier => simp [identifier]
      | more identifier => simp [identifier]
    rw [if_neg noClose]
    exact parameterList_completes d empty 0 rfl closes

theorem forInitializer_completes {start : Option Start} (d : DerivesStart ts start rest) :
    (Parse.forInitializer ts).answer =
      (Answer.parsed (start.map Start.stmt) rest).after
        (reports (start.elim [] Start.places)) := by
  cases d with
  | none ends =>
    rw [Parse.answer_forInitializer_cons, if_pos ends]
    rfl
  | declare begins first =>
    rw [Parse.answer_forInitializer_cons, if_neg (by rw [begins]; decide), if_pos begins,
      variableDeclaration_completes first, Answer.after_map, Answer.parsed_map]
    rfl
  | expression first ends =>
    obtain ⟨t, ts', rfl, begins⟩ := first.head
    have noStop : t.kind ≠ .symbol .semicolon := fun same => by rw [same] at begins; cases begins
    have noVar : t.kind ≠ .keyword .var := fun same => by rw [same] at begins; cases begins
    rw [Parse.answer_forInitializer_cons, if_neg noStop, if_neg noVar,
      expressionStatement_completes first ends, Answer.after_map, Answer.parsed_map]
    rfl

end Phrases

def startsSentence : Kind → Bool
  | .keyword .for_ | .keyword .if_ | .keyword .print | .keyword .return_ | .keyword .while_
  | .symbol .leftBrace => true
  | k => starts .assignment k

theorem startsSentence_of_starts {k : Kind} (start : starts .assignment k = true) :
    startsSentence k = true := by
  unfold startsSentence
  split
  · rfl
  · rfl
  · rfl
  · rfl
  · rfl
  · rfl
  · exact start

theorem DerivesStatement.head {ts rest : List Token} {s : Sentence}
    (d : DerivesStatement ts s rest) :
    ∃ t ts', ts = t :: ts' ∧ startsSentence t.kind = true := by
  cases d with
  | expression first =>
    obtain ⟨t, ts', rfl, start⟩ := first.head
    exact ⟨t, ts', rfl, startsSentence_of_starts start⟩
  | print begins => exact ⟨_, _, rfl, congrArg startsSentence begins⟩
  | return_ begins => exact ⟨_, _, rfl, congrArg startsSentence begins⟩
  | block opens => exact ⟨_, _, rfl, congrArg startsSentence opens⟩
  | ifThen begins => exact ⟨_, _, rfl, congrArg startsSentence begins⟩
  | ifElse begins => exact ⟨_, _, rfl, congrArg startsSentence begins⟩
  | loop begins => exact ⟨_, _, rfl, congrArg startsSentence begins⟩
  | count begins => exact ⟨_, _, rfl, congrArg startsSentence begins⟩

theorem DerivesDeclaration.head {ts rest : List Token} {s : Sentence}
    (d : DerivesDeclaration ts s rest) :
    ∃ t ts', ts = t :: ts' ∧ t.kind ≠ .symbol .rightBrace := by
  cases d with
  | function begins => exact ⟨_, _, rfl, by rw [begins]; decide⟩
  | declare begins => exact ⟨_, _, rfl, by rw [begins]; decide⟩
  | statement only =>
    obtain ⟨t, ts', rfl, start⟩ := only.head
    exact ⟨t, ts', rfl, fun brace => by rw [brace] at start; cases start⟩

theorem statement_of_starts {t : Token} (start : starts .assignment t.kind = true)
    (inFunction : Bool) (ts : List Token) :
    (Parse.statement inFunction (t :: ts)).answer = (Parse.expressionStatement (t :: ts)).answer := by
  rw [Parse.answer_statement_cons]
  generalize t.kind = k at start
  split
  · cases start
  · cases start
  · cases start
  · cases start
  · cases start
  · cases start
  · rfl

theorem attempt_of_statement {ts rest : List Token} {s : Sentence}
    (d : DerivesStatement ts s rest) (inFunction : Bool) :
    Parse.attempt inFunction ts = (Parse.statement inFunction ts).answer := by
  obtain ⟨t, ts', rfl, start⟩ := d.head
  have noFun : t.kind ≠ .keyword .fun_ := fun same => by rw [same] at start; cases start
  have noVar : t.kind ≠ .keyword .var := fun same => by rw [same] at start; cases start
  simp only [Parse.attempt]
  rw [if_neg noFun, if_neg noVar]

def StatementCompletes (ts : List Token) (s : Sentence) (rest : List Token) : Prop :=
  ∀ inFunction, (Parse.statement inFunction ts).answer =
    (Answer.parsed s.stmt rest).after (reports (s.places inFunction))

def DeclarationCompletes (ts : List Token) (s : Sentence) (rest : List Token) : Prop :=
  ∀ inFunction, (Parse.declaration inFunction ts).answer =
    (Answer.parsed (some s.stmt) rest).after (reports (s.places inFunction))

/-- Declarations are the inside of a block if a brace follows, and a program if nothing does. -/
structure BodyCompletes (ts : List Token) (body : Sentences) (rest : List Token) : Prop where
  block : ∀ close rest', rest = close :: rest' → close.kind = .symbol .rightBrace →
    ∀ inFunction, (Parse.block inFunction ts).answer =
      (Answer.parsed body.stmts rest').after (reports (body.places inFunction))
  program : rest = [] → Parse.program ts = (body.stmts, reports (body.places false))

theorem BodyCompletes.none (ts : List Token) : BodyCompletes ts .none ts where
  block := by
    rintro close rest' rfl closes inFunction
    rw [Parse.answer_block_cons, if_pos closes]
    rfl
  program := by
    rintro rfl
    rw [Parse.program]
    rfl

theorem BodyCompletes.more {ts ts' rest : List Token} {s : Sentence} {body : Sentences}
    (d : DerivesDeclaration ts s ts') (first : DeclarationCompletes ts s ts')
    (later : BodyCompletes ts' body rest) : BodyCompletes ts (.more s body) rest := by
  obtain ⟨t, ts₁, rfl, noBrace⟩ := d.head
  constructor
  · intro close rest' follows closes inFunction
    rw [Parse.answer_block_cons, if_neg noBrace, first inFunction, Answer.after_bind,
      Answer.parsed_bind, later.block close rest' follows closes inFunction]
    simp [Sentences.stmts, Sentences.places]
  · intro last
    have same := first false
    rw [Parse.Declaration.answer, Answer.parsed, Answer.parsed] at same
    simp only [Answer.after, Answer.mk.injEq, Outcome.parsed.injEq, List.append_nil] at same
    obtain ⟨⟨value, left⟩, made⟩ := same
    rw [Parse.program, value, left, made, later.program last]
    simp [Sentences.stmts, Sentences.places]

theorem functionDeclaration_completes {name open_ close brace brace' : Token}
    {ts ts' rest params : List Token} {body : Sentences} (identifier : name.kind = .identifier)
    (opens : open_.kind = .symbol .leftParen)
    (first : DerivesParameters ts params (close :: brace :: ts'))
    (closes : close.kind = .symbol .rightParen) (opens' : brace.kind = .symbol .leftBrace)
    (second : BodyCompletes ts' body (brace' :: rest))
    (closes' : brace'.kind = .symbol .rightBrace) (inFunction : Bool) :
    (Parse.functionDeclaration (name :: open_ :: ts)).answer =
      (Answer.parsed (Sentence.function name params body).stmt rest).after
        (reports ((Sentence.function name params body).places inFunction)) := by
  rw [Parse.answer_functionDeclaration, answer_expect_of_kind identifier,
    Answer.parsed_bind, answer_expect_of_kind opens, Answer.parsed_bind,
    parameters_completes first closes, Answer.after_bind, Answer.parsed_bind,
    answer_expect_of_kind closes, Answer.parsed_bind,
    answer_expect_of_kind opens', Answer.parsed_bind,
    second.block brace' rest rfl closes' true]
  simp [Sentence.stmt, Sentence.places]

theorem declaration_of_attempt {ts rest : List Token} {s : Sentence} {inFunction : Bool}
    (eq : Parse.attempt inFunction ts =
      (Answer.parsed s.stmt rest).after (reports (s.places inFunction))) :
    (Parse.declaration inFunction ts).answer =
      (Answer.parsed (some s.stmt) rest).after (reports (s.places inFunction)) := by
  rw [Parse.answer_declaration, eq]
  simp [Parse.settle, Answer.after, Answer.parsed]

section Conditions

variable {keyword open_ close : Token} {ts ts' rest : List Token} {condition : Phrase}
  (opens : open_.kind = .symbol .leftParen)
  (first : Derives .assignment ts condition (close :: ts'))
  (closes : close.kind = .symbol .rightParen)
include opens first closes

theorem loop_completes (begins : keyword.kind = .keyword .while_) {body : Sentence}
    (second : StatementCompletes ts' body rest) :
    StatementCompletes (keyword :: open_ :: ts) (.loop condition body) rest := by
  intro inFunction
  rw [Parse.answer_statement_cons, begins]
  dsimp only
  rw [Parse.answer_whileStatement, answer_expect_of_kind opens, Answer.parsed_bind,
    expression_completes first (congrArg closesPhrase closes), Answer.after_bind, Answer.parsed_bind,
    answer_expect_of_kind closes, Answer.parsed_bind, second inFunction]
  simp [Sentence.stmt, Sentence.places]

theorem condition_completes (begins : keyword.kind = .keyword .if_) {thenBranch : Sentence}
    {left : List Token} (second : StatementCompletes ts' thenBranch left) (inFunction : Bool) :
    (Parse.statement inFunction (keyword :: open_ :: ts)).answer =
      (Parse.alternative inFunction condition.expr thenBranch.stmt left).after
        (reports (condition.places ++ thenBranch.places inFunction)) := by
  rw [Parse.answer_statement_cons, begins]
  dsimp only
  rw [Parse.answer_ifStatement, answer_expect_of_kind opens, Answer.parsed_bind,
    expression_completes first (congrArg closesPhrase closes), Answer.after_bind, Answer.parsed_bind,
    answer_expect_of_kind closes, Answer.parsed_bind, second inFunction]
  simp

end Conditions

theorem forClauses_completes {open_ stop close : Token} {ts ts₁ ts₂ rest : List Token}
    {start : Option Start} {condition increment : Option Phrase}
    (opens : open_.kind = .symbol .leftParen) (first : DerivesStart ts start ts₁)
    (second : DerivesOptional ts₁ condition (stop :: ts₂)) (ends : stop.kind = .symbol .semicolon)
    (third : DerivesOptional ts₂ increment (close :: rest))
    (closes : close.kind = .symbol .rightParen) :
    (Parse.forClauses (open_ :: ts)).answer =
      (Answer.parsed
        ⟨start.map Start.stmt, condition.map Phrase.expr, increment.map Phrase.expr⟩ rest).after
          (reports (start.elim [] Start.places ++ optionalPlaces condition ++
            optionalPlaces increment)) := by
  have middle := optional_completes second (congrArg closesPhrase ends)
  have last := optional_completes third (congrArg closesPhrase closes)
  rw [ends] at middle
  rw [closes] at last
  rw [Parse.answer_forClauses, answer_expect_of_kind opens, Answer.parsed_bind,
    forInitializer_completes first, Answer.after_bind, Answer.parsed_bind, middle,
    Answer.after_bind, Answer.parsed_bind, answer_expect_of_kind ends,
    Answer.parsed_bind, last, Answer.after_bind, Answer.parsed_bind,
    answer_expect_of_kind closes]
  simp

/-- What is derivable as a list of declarations is read as it, the broken rules being reported. -/
theorem DerivesBody.completes {ts rest : List Token} {body : Sentences}
    (d : DerivesBody ts body rest) : BodyCompletes ts body rest := by
  induction d using @DerivesBody.rec (fun ts s rest _ => StatementCompletes ts s rest)
      (fun ts s rest _ => DeclarationCompletes ts s rest) with
  | expression first ends =>
    intro inFunction
    obtain ⟨t, ts', rfl, start⟩ := first.head
    rw [statement_of_starts start, expressionStatement_completes first ends]
    rfl
  | print begins first ends =>
    intro inFunction
    rw [Parse.answer_statement_cons, begins]
    dsimp only
    rw [Parse.answer_printStatement, expression_completes first (congrArg closesPhrase ends),
      Answer.after_bind, Answer.parsed_bind, answer_expect_of_kind ends]
    rfl
  | return_ begins first ends =>
    intro inFunction
    have value := optional_completes first (congrArg closesPhrase ends)
    rw [ends] at value
    rw [Parse.answer_statement_cons, begins]
    dsimp only
    rw [Parse.answer_returnStatement, value, Answer.after_bind, Answer.parsed_bind,
      answer_expect_of_kind ends]
    cases inFunction <;> simp [Sentence.stmt, Sentence.places, reports_cons, Place.report?]
  | block opens _ closes inside =>
    intro inFunction
    rw [Parse.answer_statement_cons, opens]
    dsimp only
    rw [inside.block _ _ rfl closes inFunction, Answer.after_map, Answer.parsed_map]
    rfl
  | @ifThen _ _ _ _ _ rest _ _ begins opens first closes _ noElse second =>
    intro inFunction
    rw [condition_completes opens first closes begins second inFunction]
    cases rest with
    | nil => rfl
    | cons next rest =>
      simp only [Parse.alternative]
      rw [if_neg (noElse next rfl)]
      rfl
  | ifElse begins opens first closes _ else_ _ second third =>
    intro inFunction
    rw [condition_completes opens first closes begins second inFunction]
    simp only [Parse.alternative]
    rw [if_pos else_, third inFunction]
    simp [Sentence.stmt, Sentence.places]
  | loop begins opens first closes _ second =>
    exact loop_completes opens first closes begins second
  | count begins opens first second ends third closes _ fourth =>
    intro inFunction
    rw [Parse.answer_statement_cons, begins]
    dsimp only
    rw [Parse.answer_forStatement, forClauses_completes opens first second ends third closes,
      Answer.after_bind, Answer.parsed_bind, fourth inFunction, Answer.after_map, Answer.parsed_map,
      loop_stmt]
    simp [Sentence.places]
  | function begins identifier opens first closes opens' _ closes' second =>
    intro inFunction
    apply declaration_of_attempt
    simp only [Parse.attempt]
    rw [if_pos begins]
    exact functionDeclaration_completes identifier opens first closes opens' second closes' _
  | declare begins first =>
    intro inFunction
    apply declaration_of_attempt
    simp only [Parse.attempt]
    rw [if_neg (by rw [begins]; decide), if_pos begins]
    exact variableDeclaration_completes first
  | statement only ih =>
    intro inFunction
    apply declaration_of_attempt
    rw [attempt_of_statement only]
    exact ih inFunction
  | none => exact .none _
  | more one _ first later => exact .more one first later

/-- What the language asks of one phrase, its parts apart. -/
def Phrase.Obeys : Phrase → Prop
  | .assign target _ _ => ∃ token, target = .name token
  | .call _ arguments _ => arguments.length ≤ 255
  | _ => True

/-- What the language asks of one sentence, given whether a function body encloses it. -/
def Sentence.Obeys : Sentence → Bool → Prop
  | .function _ params _, _ => params.length ≤ 255
  | .return_ _ _, inFunction => inFunction = true
  | _, _ => True

def AllObey (phrases : List Phrase) (parts : List (Sentence × Bool)) : Prop :=
  (∀ p ∈ phrases, p.Obeys) ∧ ∀ part ∈ parts, part.1.Obeys part.2

theorem allObey_cons (phrases : List Phrase) (part : Sentence × Bool)
    (parts : List (Sentence × Bool)) :
    AllObey phrases (part :: parts) ↔ part.1.Obeys part.2 ∧ AllObey phrases parts := by
  rw [AllObey, List.forall_mem_cons]
  exact and_left_comm

theorem allObey_append (phrases phrases' : List Phrase) (parts parts' : List (Sentence × Bool)) :
    AllObey (phrases ++ phrases') (parts ++ parts') ↔
      AllObey phrases parts ∧ AllObey phrases' parts' := by
  rw [AllObey, List.forall_mem_append, List.forall_mem_append]
  exact and_and_and_comm

theorem allObey_phrases (phrases phrases' : List Phrase) (parts : List (Sentence × Bool)) :
    AllObey (phrases ++ phrases') parts ↔ (∀ p ∈ phrases, p.Obeys) ∧ AllObey phrases' parts := by
  rw [AllObey, List.forall_mem_append]
  exact and_assoc

theorem lawful_iff (program : Sentences) :
    Lawful program ↔ AllObey program.phrases (program.parts false) := by
  constructor
  · intro lawful
    constructor
    · intro p member
      cases p with
      | assign target equals value => exact lawful.targets target equals value member
      | call callee args close => exact lawful.arguments callee args close member
      | _ => trivial
    · rintro ⟨s, inFunction⟩ member
      cases s with
      | function name params body => exact lawful.parameters name params body inFunction member
      | return_ keyword value =>
        cases inFunction with
        | true => rfl
        | false => exact absurd member (lawful.returns keyword value)
      | _ => trivial
  · rintro ⟨phrases, sentences⟩
    constructor
    · intro target equals value member
      exact phrases _ member
    · intro callee args close member
      exact phrases _ member
    · intro name params body inFunction member
      exact sentences _ member
    · intro keyword value member
      cases sentences _ member

@[simp] theorem reports_cons_eq_nil (x : Place) (xs : List Place) :
    reports (x :: xs) = [] ↔ x.report? = none ∧ reports xs = [] := by
  rw [reports_cons]
  cases x.report? <;> simp

theorem assignment_report_eq_none (target : Phrase) (equals : Token) :
    (Place.assignment target equals).report? = none ↔ ∃ token, target = .name token := by
  cases target <;> simp [Place.report?]

@[simp] theorem reports_append_eq_nil (xs ys : List Place) :
    reports (xs ++ ys) = [] ↔ reports xs = [] ∧ reports ys = [] := by
  rw [reports_append, List.append_eq_nil_iff]

theorem phrase_reports_eq_nil (p : Phrase) :
    reports p.places = [] ↔ ∀ q ∈ p.parts, q.Obeys := by
  -- The entries of a call are counted from `index`; an empty list has none that is too many.
  induction p using @Phrase.rec _ fun args => ∀ index,
      reports (args.places index) = [] ↔
        (∀ q ∈ args.parts, q.Obeys) ∧ (args.length = 0 ∨ index + args.length ≤ 255) with
  | constant value => simp [Phrase.places, Phrase.parts, Phrase.Obeys]
  | name token => simp [Phrase.places, Phrase.parts, Phrase.Obeys]
  | group inner ih => simp [Phrase.places, Phrase.parts, Phrase.Obeys, ih]
  | unary op operand ih => simp [Phrase.places, Phrase.parts, Phrase.Obeys, ih]
  | binary left op right first second =>
    simp [Phrase.places, Phrase.parts, Phrase.Obeys, first, second, or_imp, forall_and]
  | assign target equals value first second =>
    rw [Phrase.places, Phrase.parts, reports_append_eq_nil, reports_append_eq_nil, first, second,
      reports_cons_eq_nil, assignment_report_eq_none, List.forall_mem_cons, List.forall_mem_append]
    constructor
    · rintro ⟨⟨left, right⟩, named, -⟩
      exact ⟨named, left, right⟩
    · rintro ⟨named, left, right⟩
      exact ⟨⟨left, right⟩, named, rfl⟩
  | call callee arguments close first second =>
    rw [Phrase.places, Phrase.parts, reports_append_eq_nil, first, second 0, List.forall_mem_cons,
      List.forall_mem_append]
    constructor
    · rintro ⟨left, right, few⟩
      have few : arguments.length ≤ 255 := by omega
      exact ⟨few, left, right⟩
    · rintro ⟨few, left, right⟩
      have few : arguments.length ≤ 255 := few
      exact ⟨left, right, by omega⟩
  | none index => simp [Arguments.places, Arguments.parts, Arguments.length]
  | more first value later ih others index =>
    rw [Arguments.places, Arguments.parts, Arguments.length, List.cons_append, reports_cons_eq_nil,
      reports_append_eq_nil, ih, others (index + 1), List.forall_mem_append]
    have report : (Place.argument index first).report? = none ↔ index < 255 := by
      simp [Place.report?]
    rw [report]
    constructor
    · rintro ⟨less, left, right, few⟩
      exact ⟨⟨left, right⟩, by omega⟩
    · rintro ⟨⟨left, right⟩, few⟩
      exact ⟨by omega, left, right, by omega⟩

theorem optional_reports_eq_nil (value : Option Phrase) :
    reports (optionalPlaces value) = [] ↔ ∀ q ∈ optionalParts value, q.Obeys := by
  cases value with
  | none => simp [optionalPlaces, optionalParts]
  | some p => exact phrase_reports_eq_nil p

theorem start_reports_eq_nil (start : Option Start) :
    reports (start.elim [] Start.places) = [] ↔
      ∀ q ∈ start.elim [] Start.phrases, q.Obeys := by
  cases start with
  | none => simp
  | some start =>
    cases start with
    | declare name value => exact optional_reports_eq_nil value
    | expression value => exact phrase_reports_eq_nil value

theorem parameter_reports_eq_nil (index : Nat) (params : List Token) :
    reports (parameterPlaces index params) = [] ↔
      params.length = 0 ∨ index + params.length ≤ 255 := by
  induction params generalizing index with
  | nil => simp [parameterPlaces]
  | cons name later ih =>
    have report : (Place.parameter index name).report? = none ↔ index < 255 := by
      simp [Place.report?]
    rw [parameterPlaces, reports_cons_eq_nil, report, ih, List.length_cons]
    omega

theorem sentences_reports_eq_nil (body : Sentences) (inFunction : Bool) :
    reports (body.places inFunction) = [] ↔ AllObey body.phrases (body.parts inFunction) := by
  induction body using @Sentences.rec (fun s => ∀ inFunction,
      reports (s.places inFunction) = [] ↔ AllObey s.phrases (s.parts inFunction))
      generalizing inFunction with
  | expression value inFunction =>
    simp [Sentence.places, Sentence.phrases, Sentence.parts, AllObey, Sentence.Obeys,
      phrase_reports_eq_nil]
  | print value inFunction =>
    simp [Sentence.places, Sentence.phrases, Sentence.parts, AllObey, Sentence.Obeys,
      phrase_reports_eq_nil]
  | return_ keyword value inFunction =>
    have report : (Place.return_ inFunction keyword).report? = none ↔ inFunction = true := by
      cases inFunction <;> simp [Place.report?]
    have alone : (Sentence.return_ keyword value).parts inFunction =
        [(.return_ keyword value, inFunction)] := by simp [Sentence.parts]
    rw [Sentence.places, reports_cons_eq_nil, report, optional_reports_eq_nil, alone, allObey_cons]
    simp [AllObey, Sentence.Obeys, Sentence.phrases]
  | declare name value inFunction =>
    simp [Sentence.places, Sentence.phrases, Sentence.parts, AllObey, Sentence.Obeys,
      optional_reports_eq_nil]
  | function name params body ih inFunction =>
    rw [Sentence.places, reports_append_eq_nil, parameter_reports_eq_nil, ih, Sentence.parts,
      Sentence.phrases, allObey_cons, Sentence.Obeys]
    have few : (params.length = 0 ∨ 0 + params.length ≤ 255) ↔ params.length ≤ 255 := by omega
    rw [few]
  | block body ih inFunction =>
    rw [Sentence.places, ih, Sentence.parts, Sentence.phrases, allObey_cons]
    simp [Sentence.Obeys]
  | ifThen condition thenBranch ih inFunction =>
    rw [Sentence.places, reports_append_eq_nil, phrase_reports_eq_nil, ih, Sentence.parts,
      Sentence.phrases, allObey_cons, allObey_phrases]
    simp [Sentence.Obeys]
  | ifElse condition thenBranch elseBranch first second inFunction =>
    rw [Sentence.places, reports_append_eq_nil, reports_append_eq_nil, phrase_reports_eq_nil, first,
      second, Sentence.parts, Sentence.phrases, allObey_cons, List.append_assoc, allObey_phrases,
      allObey_append]
    simp [Sentence.Obeys, and_assoc]
  | loop condition body ih inFunction =>
    rw [Sentence.places, reports_append_eq_nil, phrase_reports_eq_nil, ih, Sentence.parts,
      Sentence.phrases, allObey_cons, allObey_phrases]
    simp [Sentence.Obeys]
  | count start condition increment body ih inFunction =>
    rw [Sentence.places, reports_append_eq_nil, reports_append_eq_nil, reports_append_eq_nil,
      start_reports_eq_nil, optional_reports_eq_nil, optional_reports_eq_nil, ih, Sentence.parts,
      Sentence.phrases, allObey_cons, allObey_phrases, List.forall_mem_append,
      List.forall_mem_append]
    simp [Sentence.Obeys]
  | none => simp [Sentences.places, Sentences.phrases, Sentences.parts, AllObey]
  | more first later ih others =>
    rw [Sentences.places, reports_append_eq_nil, ih, others, Sentences.phrases, Sentences.parts,
      allObey_append]

theorem reports_eq_nil_iff_lawful (program : Sentences) :
    reports (program.places false) = [] ↔ Lawful program := by
  rw [sentences_reports_eq_nil, lawful_iff]

theorem ofTokens_append_end {ts : List Token} {endToken : Token} (ending : endToken.kind = .eof)
    (only : ∀ t ∈ ts, t.kind ≠ .eof) : Cursor.ofTokens (ts ++ [endToken]) = ⟨ts, endToken⟩ := by
  have passes : ∀ t ∈ ts, decide (t.kind ≠ .eof) = true := by
    intro t member
    exact decide_eq_true (only t member)
  unfold Cursor.ofTokens
  rw [List.dropWhile_append_of_pos passes, List.takeWhile_append_of_pos passes]
  simp [ending]

/-- A program up to its only end token is accepted exactly when it is derivable and lawful, and a
derivable one gives the tree of its derivation and one diagnostic for each place where it breaks a
rule. -/
theorem program_accepted_iff (ts : List Token) (endToken : Token) (ending : endToken.kind = .eof)
    (only : ∀ t ∈ ts, t.kind ≠ .eof) :
    ((Cursor.ofTokens (ts ++ [endToken])).program.diagnostics = [] ↔
        ∃ tree, DerivesProgram ts tree ∧ Lawful tree) ∧
      ∀ tree, DerivesProgram ts tree →
        (Cursor.ofTokens (ts ++ [endToken])).program.result = tree.stmts ∧
        (Cursor.ofTokens (ts ++ [endToken])).program.diagnostics =
          (reports (tree.places false)).map (·.diagnostic endToken) := by
  rw [ofTokens_append_end ending only]
  have derived : ∀ tree, DerivesProgram ts tree →
      Parse.program ts = (tree.stmts, reports (tree.places false)) :=
    fun tree derives => derives.completes.program rfl
  refine ⟨⟨?_, ?_⟩, ?_⟩
  · intro none
    have quiet : (Parse.program ts).2 = [] := List.map_eq_nil_iff.mp none
    have clean : Clean (Parse.program ts).2 := by
      rw [quiet]
      nofun
    obtain ⟨tree, derives, eq⟩ := program_reads clean
    rw [eq] at quiet
    exact ⟨tree, derives, (reports_eq_nil_iff_lawful tree).mp quiet⟩
  · rintro ⟨tree, derives, lawful⟩
    have quiet := (reports_eq_nil_iff_lawful tree).mpr lawful
    simp [Cursor.program, Cursor.reading, derived tree derives, quiet]
  · intro tree derives
    simp [Cursor.program, Cursor.reading, derived tree derives]

/-- In `if (a) 1 = b;` only the equals sign is reported, and the left side is kept. -/
theorem program_accepted_constant_target :
    let a : Token := ⟨.identifier, "a", 1⟩
    let b : Token := ⟨.identifier, "b", 1⟩
    let equals : Token := ⟨.symbol .equal, "=", 1⟩
    let ts : List Token := [⟨.keyword .if_, "if", 1⟩, ⟨.symbol .leftParen, "(", 1⟩, a,
      ⟨.symbol .rightParen, ")", 1⟩, ⟨.number 1, "1", 1⟩, equals, b, ⟨.symbol .semicolon, ";", 1⟩]
    let reading := (Cursor.ofTokens (ts ++ [⟨.eof, "", 1⟩])).program
    reading.result = [.ifThen (.reference a) (.expression (.literal (.number 1)))] ∧
      reading.diagnostics = [⟨1, " at '='", "Invalid assignment target."⟩] := by
  intro a b equals ts reading
  have derives : DerivesProgram ts (.more (.ifThen (.name a)
      (.expression (.assign (.constant (.number 1)) equals (.name b)))) .none) := by
    have plain : ∀ {p : Phrase} {ts rest : List Token}, Derives .primary ts p rest →
        Derives (.layer .or) ts p rest :=
      fun d => .operand (.operand (.operand (.operand (.operand (.operand (.call (.primary d)))))))
    refine .more (.statement (.ifThen rfl rfl (.operation (plain (.name rfl))) rfl ?_ ?_)) .none
    · exact .expression
        (.assign (plain (.constant (.number 1))) rfl (.operation (plain (.name rfl)))) rfl
    · nofun
  exact (program_accepted_iff ts ⟨.eof, "", 1⟩ rfl (by decide)).2 _ derives

end Lox.Grammar
