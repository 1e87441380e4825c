import Lox.Proofs.Layered

/- The grammar of programs, as derivations that take tokens off the front of a list and leave the
   rest. It is more permissive than the language: any operation may stand left of an equals sign,
   lists have any length, and a return may stand anywhere. What the language forbids beyond it is
   said of derived trees, at the places where it can go wrong. -/
namespace Lox.Grammar

mutual
/-- Expressions as they are written. -/
inductive Phrase where
  | constant (value : Literal)
  | name (token : Token)
  | group (inner : Phrase)
  | unary (op : Token) (operand : Phrase)
  | binary (left : Phrase) (op : Token) (right : Phrase)
  | assign (target : Phrase) (equals : Token) (value : Phrase)
  | call (callee : Phrase) (arguments : Arguments) (close : Token)

inductive Arguments where
  | none
  | more (first : Token) (value : Phrase) (later : Arguments)
end

inductive Start where
  | declare (name : Token) (value : Option Phrase)
  | expression (value : Phrase)

mutual
/-- Statements and declarations as they are written. -/
inductive Sentence where
  | expression (value : Phrase)
  | print (value : Phrase)
  | return_ (keyword : Token) (value : Option Phrase)
  | declare (name : Token) (value : Option Phrase)
  | function (name : Token) (params : List Token) (body : Sentences)
  | block (body : Sentences)
  | ifThen (condition : Phrase) (thenBranch : Sentence)
  | ifElse (condition : Phrase) (thenBranch elseBranch : Sentence)
  | loop (condition : Phrase) (body : Sentence)
  | count (start : Option Start) (condition increment : Option Phrase) (body : Sentence)

inductive Sentences where
  | none
  | more (first : Sentence) (later : Sentences)
end

inductive Constant : Kind → Literal → Prop where
  | nil : Constant (.keyword .nil) .nil
  | yes : Constant (.keyword .true_) (.bool true)
  | no : Constant (.keyword .false_) (.bool false)
  | number (x : Float) : Constant (.number x) (.number x)
  | string (s : String) : Constant (.string s) (.string s)

/-- The levels of expressions, loosest first. -/
inductive Level where
  | assignment
  | layer (l : Layer)
  | unary
  | call
  | primary

def operandLevel : Layer → Level
  | .or => .layer .and
  | .and => .layer .equality
  | .equality => .layer .comparison
  | .comparison => .layer .term
  | .term => .layer .factor
  | .factor => .unary

mutual
inductive Derives : Level → List Token → Phrase → List Token → Prop where
  | constant {t : Token} {value : Literal} {rest : List Token} (stands : Constant t.kind value) :
      Derives .primary (t :: rest) (.constant value) rest
  | name {t : Token} {rest : List Token} (identifier : t.kind = .identifier) :
      Derives .primary (t :: rest) (.name t) rest
  | group {open_ close : Token} {ts rest : List Token} {inner : Phrase}
      (opens : open_.kind = .symbol .leftParen) (first : Derives .assignment ts inner (close :: rest))
      (closes : close.kind = .symbol .rightParen) :
      Derives .primary (open_ :: ts) (.group inner) rest
  | primary {ts rest : List Token} {p : Phrase} (only : Derives .primary ts p rest) :
      Derives .call ts p rest
  | callNone {open_ close : Token} {ts rest : List Token} {callee : Phrase}
      (first : Derives .call ts callee (open_ :: close :: rest))
      (opens : open_.kind = .symbol .leftParen) (closes : close.kind = .symbol .rightParen) :
      Derives .call ts (.call callee .none close) rest
  | callSome {open_ close : Token} {ts ts' rest : List Token} {callee : Phrase} {args : Arguments}
      (first : Derives .call ts callee (open_ :: ts')) (opens : open_.kind = .symbol .leftParen)
      (inside : DerivesArguments ts' args (close :: rest))
      (closes : close.kind = .symbol .rightParen) :
      Derives .call ts (.call callee args close) rest
  | call {ts rest : List Token} {p : Phrase} (only : Derives .call ts p rest) :
      Derives .unary ts p rest
  | unary {op : Token} {ts rest : List Token} {operand : Phrase}
      (sign : op.kind = .symbol .bang ∨ op.kind = .symbol .minus)
      (inner : Derives .unary ts operand rest) : Derives .unary (op :: ts) (.unary op operand) rest
  | operand {l : Layer} {ts rest : List Token} {p : Phrase}
      (only : Derives (operandLevel l) ts p rest) : Derives (.layer l) ts p rest
  | binary {l : Layer} {op : Token} {ts ts' rest : List Token} {left right : Phrase}
      (first : Derives (.layer l) ts left (op :: ts')) (belongs : op.kind.layer? = some l)
      (second : Derives (operandLevel l) ts' right rest) :
      Derives (.layer l) ts (.binary left op right) rest
  | operation {ts rest : List Token} {p : Phrase} (only : Derives (.layer .or) ts p rest) :
      Derives .assignment ts p rest
  | assign {equals : Token} {ts ts' rest : List Token} {target value : Phrase}
      (first : Derives (.layer .or) ts target (equals :: ts'))
      (sign : equals.kind = .symbol .equal) (second : Derives .assignment ts' value rest) :
      Derives .assignment ts (.assign target equals value) rest

inductive DerivesArguments : List Token → Arguments → List Token → Prop where
  | last {t : Token} {ts rest : List Token} {value : Phrase}
      (only : Derives .assignment (t :: ts) value rest) :
      DerivesArguments (t :: ts) (.more t value .none) rest
  | more {t comma : Token} {ts ts' rest : List Token} {value : Phrase} {later : Arguments}
      (first : Derives .assignment (t :: ts) value (comma :: ts'))
      (separates : comma.kind = .symbol .comma) (others : DerivesArguments ts' later rest) :
      DerivesArguments (t :: ts) (.more t value later) rest
end

inductive DerivesOptional : List Token → Option Phrase → List Token → Prop where
  | none {ts : List Token} : DerivesOptional ts none ts
  | some {ts rest : List Token} {p : Phrase} (only : Derives .assignment ts p rest) :
      DerivesOptional ts (some p) rest

inductive DerivesVariable : List Token → Token → Option Phrase → List Token → Prop where
  | bare {name stop : Token} {rest : List Token} (identifier : name.kind = .identifier)
      (ends : stop.kind = .symbol .semicolon) : DerivesVariable (name :: stop :: rest) name none rest
  | initialized {name equals stop : Token} {ts rest : List Token} {value : Phrase}
      (identifier : name.kind = .identifier) (sign : equals.kind = .symbol .equal)
      (first : Derives .assignment ts value (stop :: rest)) (ends : stop.kind = .symbol .semicolon) :
      DerivesVariable (name :: equals :: ts) name (some value) rest

inductive DerivesParameters : List Token → List Token → List Token → Prop where
  | none {ts : List Token} : DerivesParameters ts [] ts
  | last {name : Token} {rest : List Token} (identifier : name.kind = .identifier) :
      DerivesParameters (name :: rest) [name] rest
  | more {name next comma : Token} {ts rest later : List Token}
      (identifier : name.kind = .identifier) (separates : comma.kind = .symbol .comma)
      (others : DerivesParameters ts (next :: later) rest) :
      DerivesParameters (name :: comma :: ts) (name :: next :: later) rest

inductive DerivesStart : List Token → Option Start → List Token → Prop where
  | none {stop : Token} {rest : List Token} (ends : stop.kind = .symbol .semicolon) :
      DerivesStart (stop :: rest) none rest
  | declare {keyword name : Token} {ts rest : List Token} {value : Option Phrase}
      (begins : keyword.kind = .keyword .var) (first : DerivesVariable ts name value rest) :
      DerivesStart (keyword :: ts) (some (.declare name value)) rest
  | expression {stop : Token} {ts rest : List Token} {value : Phrase}
      (first : Derives .assignment ts value (stop :: rest)) (ends : stop.kind = .symbol .semicolon) :
      DerivesStart ts (some (.expression value)) rest

mutual
inductive DerivesStatement : List Token → Sentence → List Token → Prop where
  | expression {stop : Token} {ts rest : List Token} {value : Phrase}
      (first : Derives .assignment ts value (stop :: rest)) (ends : stop.kind = .symbol .semicolon) :
      DerivesStatement ts (.expression value) rest
  | print {keyword stop : Token} {ts rest : List Token} {value : Phrase}
      (begins : keyword.kind = .keyword .print)
      (first : Derives .assignment ts value (stop :: rest)) (ends : stop.kind = .symbol .semicolon) :
      DerivesStatement (keyword :: ts) (.print value) rest
  | return_ {keyword stop : Token} {ts rest : List Token} {value : Option Phrase}
      (begins : keyword.kind = .keyword .return_)
      (first : DerivesOptional ts value (stop :: rest)) (ends : stop.kind = .symbol .semicolon) :
      DerivesStatement (keyword :: ts) (.return_ keyword value) rest
  | block {open_ close : Token} {ts rest : List Token} {body : Sentences}
      (opens : open_.kind = .symbol .leftBrace) (inside : DerivesBody ts body (close :: rest))
      (closes : close.kind = .symbol .rightBrace) : DerivesStatement (open_ :: ts) (.block body) rest
  | ifThen {keyword open_ close : Token} {ts ts' rest : List Token} {condition : Phrase}
      {thenBranch : Sentence} (begins : keyword.kind = .keyword .if_)
      (opens : open_.kind = .symbol .leftParen)
      (first : Derives .assignment ts condition (close :: ts'))
      (closes : close.kind = .symbol .rightParen) (second : DerivesStatement ts' thenBranch rest)
      (noElse : ∀ next ∈ rest.head?, next.kind ≠ .keyword .else_) :
      DerivesStatement (keyword :: open_ :: ts) (.ifThen condition thenBranch) rest
  | ifElse {keyword open_ close otherwise : Token} {ts ts' ts'' rest : List Token}
      {condition : Phrase} {thenBranch elseBranch : Sentence} (begins : keyword.kind = .keyword .if_)
      (opens : open_.kind = .symbol .leftParen)
      (first : Derives .assignment ts condition (close :: ts'))
      (closes : close.kind = .symbol .rightParen)
      (second : DerivesStatement ts' thenBranch (otherwise :: ts''))
      (else_ : otherwise.kind = .keyword .else_) (third : DerivesStatement ts'' elseBranch rest) :
      DerivesStatement (keyword :: open_ :: ts) (.ifElse condition thenBranch elseBranch) rest
  | loop {keyword open_ close : Token} {ts ts' rest : List Token} {condition : Phrase}
      {body : Sentence} (begins : keyword.kind = .keyword .while_)
      (opens : open_.kind = .symbol .leftParen)
      (first : Derives .assignment ts condition (close :: ts'))
      (closes : close.kind = .symbol .rightParen) (second : DerivesStatement ts' body rest) :
      DerivesStatement (keyword :: open_ :: ts) (.loop condition body) rest
  | count {keyword open_ stop close : Token} {ts ts₁ ts₂ ts₃ rest : List Token}
      {start : Option Start} {condition increment : Option Phrase} {body : Sentence}
      (begins : keyword.kind = .keyword .for_) (opens : open_.kind = .symbol .leftParen)
      (first : DerivesStart ts start ts₁) (second : DerivesOptional ts₁ condition (stop :: ts₂))
      (ends : stop.kind = .symbol .semicolon)
      (third : DerivesOptional ts₂ increment (close :: ts₃))
      (closes : close.kind = .symbol .rightParen) (fourth : DerivesStatement ts₃ body rest) :
      DerivesStatement (keyword :: open_ :: ts) (.count start condition increment body) rest

inductive DerivesDeclaration : List Token → Sentence → List Token → Prop where
  | function {keyword name open_ close brace brace' : Token} {ts ts' rest params : List Token}
      {body : Sentences} (begins : keyword.kind = .keyword .fun_)
      (identifier : name.kind = .identifier) (opens : open_.kind = .symbol .leftParen)
      (first : DerivesParameters ts params (close :: brace :: ts'))
      (closes : close.kind = .symbol .rightParen) (opens' : brace.kind = .symbol .leftBrace)
      (second : DerivesBody ts' body (brace' :: rest)) (closes' : brace'.kind = .symbol .rightBrace) :
      DerivesDeclaration (keyword :: name :: open_ :: ts) (.function name params body) rest
  | declare {keyword name : Token} {ts rest : List Token} {value : Option Phrase}
      (begins : keyword.kind = .keyword .var) (first : DerivesVariable ts name value rest) :
      DerivesDeclaration (keyword :: ts) (.declare name value) rest
  | statement {ts rest : List Token} {s : Sentence} (only : DerivesStatement ts s rest) :
      DerivesDeclaration ts s rest

inductive DerivesBody : List Token → Sentences → List Token → Prop where
  | none {ts : List Token} : DerivesBody ts .none ts
  | more {ts ts' rest : List Token} {first : Sentence} {later : Sentences}
      (one : DerivesDeclaration ts first ts') (others : DerivesBody ts' later rest) :
      DerivesBody ts (.more first later) rest
end

def DerivesProgram (ts : List Token) (program : Sentences) : Prop := DerivesBody ts program []

mutual
/-- The tree of a phrase. An assignment to anything but a name is its left side. -/
def Phrase.expr : Phrase → Expr
  | .constant value => .literal value
  | .name token => .reference token
  | .group inner => .grouping inner.expr
  | .unary op operand => .unary op operand.expr
  | .binary left op right =>
    if op.kind.layer? = some .or ∨ op.kind.layer? = some .and then
      .logical left.expr op right.expr
    else .binary left.expr op right.expr
  | .assign (.name token) _ value => .assign token value.expr
  | .assign target _ _ => target.expr
  | .call callee arguments close => .call callee.expr close arguments.exprs

def Arguments.exprs : Arguments → List Expr
  | .none => []
  | .more _ value later => value.expr :: later.exprs
end

def Arguments.length : Arguments → Nat
  | .none => 0
  | .more _ _ later => later.length + 1

def Start.stmt : Start → Stmt
  | .declare name value => .declare name (value.map Phrase.expr)
  | .expression value => .expression value.expr

def afterStart : Option Start → Stmt → Stmt
  | none, loop => loop
  | some start, loop => .block [start.stmt, loop]

def beforeIncrement (body : Stmt) : Option Phrase → Stmt
  | none => body
  | some increment => .block [body, .expression increment.expr]

mutual
/-- The tree of a sentence. A counted loop is a plain one, and without a condition it goes on. -/
def Sentence.stmt : Sentence → Stmt
  | .expression value => .expression value.expr
  | .print value => .print value.expr
  | .return_ keyword value => .return_ keyword (value.map Phrase.expr)
  | .declare name value => .declare name (value.map Phrase.expr)
  | .function name params body => .function name params body.stmts
  | .block body => .block body.stmts
  | .ifThen condition thenBranch => .ifThen condition.expr thenBranch.stmt
  | .ifElse condition thenBranch elseBranch =>
    .ifElse condition.expr thenBranch.stmt elseBranch.stmt
  | .loop condition body => .loop condition.expr body.stmt
  | .count start condition increment body =>
    afterStart start (.loop (condition.elim (.literal (.bool true)) Phrase.expr)
      (beforeIncrement body.stmt increment))

def Sentences.stmts : Sentences → List Stmt
  | .none => []
  | .more first later => first.stmt :: later.stmts
end

/-- A place where a tree of the grammar can break a rule of the language. -/
inductive Place where
  | assignment (target : Phrase) (equals : Token)
  | argument (index : Nat) (first : Token)
  | parameter (index : Nat) (name : Token)
  | return_ (inFunction : Bool) (keyword : Token)

def Place.report? : Place → Option Report
  | .assignment (.name _) _ => none
  | .assignment _ equals => some ⟨some equals, .violated .assignmentTarget⟩
  | .argument index first =>
    if index < 255 then none else some ⟨some first, .violated .tooManyArguments⟩
  | .parameter index name =>
    if index < 255 then none else some ⟨some name, .violated .tooManyParameters⟩
  | .return_ true _ => none
  | .return_ false keyword => some ⟨some keyword, .violated .returnOutsideFunction⟩

mutual
def Phrase.places : Phrase → List Place
  | .constant _ | .name _ => []
  | .group inner => inner.places
  | .unary _ operand => operand.places
  | .binary left _ right => left.places ++ right.places
  | .assign target equals value => target.places ++ value.places ++ [.assignment target equals]
  | .call callee arguments _ => callee.places ++ arguments.places 0

def Arguments.places (index : Nat) : Arguments → List Place
  | .none => []
  | .more first value later => .argument index first :: value.places ++ later.places (index + 1)
end

def optionalPlaces (value : Option Phrase) : List Place := value.elim [] Phrase.places

def parameterPlaces (index : Nat) : List Token → List Place
  | [] => []
  | name :: later => .parameter index name :: parameterPlaces (index + 1) later

def Start.places : Start → List Place
  | .declare _ value => optionalPlaces value
  | .expression value => value.places

mutual
def Sentence.places (inFunction : Bool) : Sentence → List Place
  | .expression value | .print value => value.places
  | .return_ keyword value => .return_ inFunction keyword :: optionalPlaces value
  | .declare _ value => optionalPlaces value
  | .function _ params body => parameterPlaces 0 params ++ body.places true
  | .block body => body.places inFunction
  | .ifThen condition thenBranch => condition.places ++ thenBranch.places inFunction
  | .ifElse condition thenBranch elseBranch =>
    condition.places ++ thenBranch.places inFunction ++ elseBranch.places inFunction
  | .loop condition body => condition.places ++ body.places inFunction
  | .count start condition increment body =>
    start.elim [] Start.places ++ optionalPlaces condition ++ optionalPlaces increment ++
      body.places inFunction

def Sentences.places (inFunction : Bool) : Sentences → List Place
  | .none => []
  | .more first later => first.places inFunction ++ later.places inFunction
end

/-- What is reported of a program: one report for each place where it breaks a rule. -/
def reports (places : List Place) : List Report := places.filterMap Place.report?

mutual
def Phrase.parts : Phrase → List Phrase
  | .constant value => [.constant value]
  | .name token => [.name token]
  | .group inner => .group inner :: inner.parts
  | .unary op operand => .unary op operand :: operand.parts
  | .binary left op right => .binary left op right :: (left.parts ++ right.parts)
  | .assign target equals value => .assign target equals value :: (target.parts ++ value.parts)
  | .call callee arguments close =>
    .call callee arguments close :: (callee.parts ++ arguments.parts)

def Arguments.parts : Arguments → List Phrase
  | .none => []
  | .more _ value later => value.parts ++ later.parts
end

def optionalParts (value : Option Phrase) : List Phrase := value.elim [] Phrase.parts

def Start.phrases : Start → List Phrase
  | .declare _ value => optionalParts value
  | .expression value => value.parts

mutual
def Sentence.phrases : Sentence → List Phrase
  | .expression value | .print value => value.parts
  | .return_ _ value | .declare _ value => optionalParts value
  | .function _ _ body | .block body => body.phrases
  | .ifThen condition thenBranch => condition.parts ++ thenBranch.phrases
  | .ifElse condition thenBranch elseBranch =>
    condition.parts ++ thenBranch.phrases ++ elseBranch.phrases
  | .loop condition body => condition.parts ++ body.phrases
  | .count start condition increment body =>
    start.elim [] Start.phrases ++ optionalParts condition ++ optionalParts increment ++
      body.phrases

def Sentences.phrases : Sentences → List Phrase
  | .none => []
  | .more first later => first.phrases ++ later.phrases
end

mutual
/-- A sentence and all sentences inside it, each with whether a function body encloses it. -/
def Sentence.parts (inFunction : Bool) : Sentence → List (Sentence × Bool)
  | .function name params body =>
    (.function name params body, inFunction) :: body.parts true
  | .block body => (.block body, inFunction) :: body.parts inFunction
  | .ifThen condition thenBranch =>
    (.ifThen condition thenBranch, inFunction) :: thenBranch.parts inFunction
  | .ifElse condition thenBranch elseBranch =>
    (.ifElse condition thenBranch elseBranch, inFunction) ::
      (thenBranch.parts inFunction ++ elseBranch.parts inFunction)
  | .loop condition body => (.loop condition body, inFunction) :: body.parts inFunction
  | .count start condition increment body =>
    (.count start condition increment body, inFunction) :: body.parts inFunction
  | s => [(s, inFunction)]

def Sentences.parts (inFunction : Bool) : Sentences → List (Sentence × Bool)
  | .none => []
  | .more first later => first.parts inFunction ++ later.parts inFunction
end

/-- What the language asks of a program beyond the grammar. -/
structure Lawful (program : Sentences) : Prop where
  targets : ∀ target equals value, .assign target equals value ∈ program.phrases →
    ∃ token, target = .name token
  arguments : ∀ callee args close, .call callee args close ∈ program.phrases → args.length ≤ 255
  parameters : ∀ name params body inFunction,
    (.function name params body, inFunction) ∈ program.parts false → params.length ≤ 255
  returns : ∀ keyword value, (.return_ keyword value, false) ∉ program.parts false

end Lox.Grammar
