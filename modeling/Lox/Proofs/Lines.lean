import Lox.Proofs.Recovery
import Mathlib.Data.List.TakeWhile

/- Source lines in tokens and in all that is built of tokens. Lines can be changed together by a
   function; reading changed tokens gives the changed trees and reports, so no reading function
   looks at a line. -/
namespace Lox

/-- Data with source lines in it. -/
class Lined (α : Type) where
  relabel : (Nat → Nat) → α → α
  relabel_id : ∀ a, relabel id a = a
  relabel_relabel : ∀ (g h : Nat → Nat) (a : α), relabel g (relabel h a) = relabel (g ∘ h) a

export Lined (relabel)

attribute [simp] Lined.relabel_id Lined.relabel_relabel

variable {α β : Type} [Lined α] [Lined β] (g h : Nat → Nat)

/-- Every line replaced by zero. -/
def unlined (a : α) : α := relabel (fun _ => 0) a

@[simp] theorem unlined_relabel (a : α) : unlined (relabel g a) = unlined a := by
  unfold unlined
  rw [Lined.relabel_relabel]
  rfl

instance : Lined Unit := ⟨fun _ a => a, fun _ => rfl, fun _ _ _ => rfl⟩
instance : Lined String := ⟨fun _ a => a, fun _ => rfl, fun _ _ _ => rfl⟩

instance : Lined Token where
  relabel g t := { t with line := g t.line }
  relabel_id _ := rfl
  relabel_relabel _ _ _ := rfl

instance : Lined (List α) where
  relabel g as := as.map (relabel g)
  relabel_id as := List.map_id'' Lined.relabel_id as
  relabel_relabel g h as := by simp

instance : Lined (Option α) where
  relabel g a := a.map (relabel g)
  relabel_id a := by cases a <;> simp
  relabel_relabel g h a := by cases a <;> simp

instance : Lined (α × β) where
  relabel g p := (relabel g p.1, relabel g p.2)
  relabel_id p := by simp
  relabel_relabel g h p := by simp

section Lists

@[simp] theorem relabel_nil : relabel g ([] : List α) = [] := rfl

@[simp] theorem relabel_cons (a : α) (as : List α) :
    relabel g (a :: as) = relabel g a :: relabel g as := rfl

@[simp] theorem relabel_append (as bs : List α) :
    relabel g (as ++ bs) = relabel g as ++ relabel g bs := List.map_append

@[simp] theorem length_relabel (as : List α) : (relabel g as).length = as.length :=
  List.length_map _

@[simp] theorem head?_relabel (as : List α) : (relabel g as).head? = relabel g as.head? :=
  List.head?_map

@[simp] theorem relabel_some (a : α) : relabel g (some a) = some (relabel g a) := rfl

@[simp] theorem toList_relabel (a : Option α) : (relabel g a).toList = relabel g a.toList := by
  cases a <;> rfl

end Lists

section Tokens

variable (t : Token)

@[simp] theorem kind_relabel : (relabel g t).kind = t.kind := rfl

@[simp] theorem lexeme_relabel : (relabel g t).lexeme = t.lexeme := rfl

end Tokens

mutual
def Expr.relabel (g : Nat → Nat) : Expr → Expr
  | .literal l => .literal l
  | .grouping e => .grouping (e.relabel g)
  | .unary op e => .unary (Lined.relabel g op) (e.relabel g)
  | .binary a op b => .binary (a.relabel g) (Lined.relabel g op) (b.relabel g)
  | .logical a op b => .logical (a.relabel g) (Lined.relabel g op) (b.relabel g)
  | .reference name => .reference (Lined.relabel g name)
  | .assign name e => .assign (Lined.relabel g name) (e.relabel g)
  | .call f paren args => .call (f.relabel g) (Lined.relabel g paren) (Expr.relabelAll g args)
def Expr.relabelAll (g : Nat → Nat) : List Expr → List Expr
  | [] => []
  | e :: es => e.relabel g :: Expr.relabelAll g es
end

mutual
theorem Expr.relabel_id : ∀ e : Expr, e.relabel id = e
  | .literal _ | .reference _ => rfl
  | .grouping e | .unary _ e | .assign _ e => by simp [Expr.relabel, relabel_id e]
  | .binary a _ b | .logical a _ b => by simp [Expr.relabel, relabel_id a, relabel_id b]
  | .call f _ args => by simp [Expr.relabel, relabel_id f, relabelAll_id args]
theorem Expr.relabelAll_id : ∀ es : List Expr, Expr.relabelAll id es = es
  | [] => rfl
  | e :: es => by rw [Expr.relabelAll, relabel_id e, relabelAll_id es]
end

mutual
theorem Expr.relabel_relabel : ∀ e : Expr, (e.relabel h).relabel g = e.relabel (g ∘ h)
  | .literal _ | .reference _ => rfl
  | .grouping e | .unary _ e | .assign _ e => by simp [Expr.relabel, relabel_relabel e]
  | .binary a _ b | .logical a _ b => by
    simp [Expr.relabel, relabel_relabel a, relabel_relabel b]
  | .call f _ args => by simp [Expr.relabel, relabel_relabel f, relabelAll_relabelAll args]
theorem Expr.relabelAll_relabelAll :
    ∀ es : List Expr, Expr.relabelAll g (Expr.relabelAll h es) = Expr.relabelAll (g ∘ h) es
  | [] => rfl
  | e :: es => by
    rw [Expr.relabelAll, Expr.relabelAll, Expr.relabelAll, relabel_relabel e,
      relabelAll_relabelAll es]
end

instance : Lined Expr := ⟨Expr.relabel, Expr.relabel_id, Expr.relabel_relabel⟩

theorem Expr.relabelAll_eq (es : List Expr) : Expr.relabelAll g es = Lined.relabel g es := by
  induction es with
  | nil => rfl
  | cons e es ih => rw [Expr.relabelAll, ih]; rfl

mutual
def Stmt.relabel (g : Nat → Nat) : Stmt → Stmt
  | .expression e => .expression (Lined.relabel g e)
  | .print e => .print (Lined.relabel g e)
  | .declare name value => .declare (Lined.relabel g name) (Lined.relabel g value)
  | .block body => .block (Stmt.relabelAll g body)
  | .ifThen c s => .ifThen (Lined.relabel g c) (s.relabel g)
  | .ifElse c s t => .ifElse (Lined.relabel g c) (s.relabel g) (t.relabel g)
  | .loop c s => .loop (Lined.relabel g c) (s.relabel g)
  | .function name params body =>
    .function (Lined.relabel g name) (Lined.relabel g params) (Stmt.relabelAll g body)
  | .return_ keyword value => .return_ (Lined.relabel g keyword) (Lined.relabel g value)
def Stmt.relabelAll (g : Nat → Nat) : List Stmt → List Stmt
  | [] => []
  | s :: ss => s.relabel g :: Stmt.relabelAll g ss
end

mutual
theorem Stmt.relabel_id : ∀ s : Stmt, s.relabel id = s
  | .expression _ | .print _ | .declare _ _ | .return_ _ _ => by simp [Stmt.relabel]
  | .block body | .function _ _ body => by simp [Stmt.relabel, relabelAll_id body]
  | .ifThen _ s | .loop _ s => by simp [Stmt.relabel, relabel_id s]
  | .ifElse _ s t => by simp [Stmt.relabel, relabel_id s, relabel_id t]
theorem Stmt.relabelAll_id : ∀ ss : List Stmt, Stmt.relabelAll id ss = ss
  | [] => rfl
  | s :: ss => by rw [Stmt.relabelAll, relabel_id s, relabelAll_id ss]
end

mutual
theorem Stmt.relabel_relabel : ∀ s : Stmt, (s.relabel h).relabel g = s.relabel (g ∘ h)
  | .expression _ | .print _ | .declare _ _ | .return_ _ _ => by simp [Stmt.relabel]
  | .block body | .function _ _ body => by simp [Stmt.relabel, relabelAll_relabelAll body]
  | .ifThen _ s | .loop _ s => by simp [Stmt.relabel, relabel_relabel s]
  | .ifElse _ s t => by simp [Stmt.relabel, relabel_relabel s, relabel_relabel t]
theorem Stmt.relabelAll_relabelAll :
    ∀ ss : List Stmt, Stmt.relabelAll g (Stmt.relabelAll h ss) = Stmt.relabelAll (g ∘ h) ss
  | [] => rfl
  | s :: ss => by
    rw [Stmt.relabelAll, Stmt.relabelAll, Stmt.relabelAll, relabel_relabel s,
      relabelAll_relabelAll ss]
end

instance : Lined Stmt := ⟨Stmt.relabel, Stmt.relabel_id, Stmt.relabel_relabel⟩

theorem Stmt.relabelAll_eq (ss : List Stmt) : Stmt.relabelAll g ss = Lined.relabel g ss := by
  induction ss with
  | nil => rfl
  | cons s ss ih => rw [Stmt.relabelAll, ih]; rfl

@[simp] theorem Expr.relabel_call (f : Expr) (paren : Token) (args : List Expr) :
    Lined.relabel g (Expr.call f paren args) =
      .call (Lined.relabel g f) (Lined.relabel g paren) (Lined.relabel g args) := by
  rw [← Expr.relabelAll_eq]
  rfl

@[simp] theorem Stmt.relabel_block (body : List Stmt) :
    Lined.relabel g (Stmt.block body) = .block (Lined.relabel g body) := by
  rw [← Stmt.relabelAll_eq]
  rfl

@[simp] theorem Stmt.relabel_function (name : Token) (params : List Token) (body : List Stmt) :
    Lined.relabel g (Stmt.function name params body) =
      .function (Lined.relabel g name) (Lined.relabel g params) (Lined.relabel g body) := by
  rw [← Stmt.relabelAll_eq]
  rfl

instance : Lined Report where
  relabel g r := { r with token? := relabel g r.token? }
  relabel_id r := by simp
  relabel_relabel g h r := by simp

instance : Lined Parse.ForClauses where
  relabel g c := ⟨relabel g c.initializer, relabel g c.condition, relabel g c.increment⟩
  relabel_id c := by simp
  relabel_relabel g h c := by simp

instance : Lined (Outcome α) where
  relabel g
    | .parsed value rest => .parsed (relabel g value) (relabel g rest)
    | .unmet what rest => .unmet what (relabel g rest)
  relabel_id o := by cases o <;> simp
  relabel_relabel g h o := by cases o <;> simp

instance : Lined (Answer α) where
  relabel g a := ⟨relabel g a.outcome, relabel g a.reports⟩
  relabel_id a := by simp
  relabel_relabel g h a := by simp

namespace Answer

variable {g}

@[simp] theorem relabel_parsed (value : α) (rest : List Token) :
    relabel g (parsed value rest) = parsed (relabel g value) (relabel g rest) := rfl

@[simp] theorem relabel_unmet (what : Expectation) (rest : List Token) :
    relabel g (unmet what rest : Answer α) = unmet what (relabel g rest) := rfl

@[simp] theorem relabel_after (earlier : List Report) (a : Answer α) :
    relabel g (a.after earlier) = (relabel g a).after (relabel g earlier) := by
  simp [relabel, after]

theorem relabel_bind {a : Answer α} {next next' : α → List Token → Answer β}
    (second : ∀ value rest, a.outcome = .parsed value rest →
      next' (relabel g value) (relabel g rest) = relabel g (next value rest)) :
    (relabel g a).bind next' = relabel g (a.bind next) := by
  rcases a.eq_parsed_or_unmet with ⟨value, rest, eq⟩ | ⟨what, rest, eq⟩
  · have outcome : a.outcome = .parsed value rest := congrArg Answer.outcome eq
    rw [eq, relabel_after, after_bind, after_bind, relabel_after, relabel_parsed, parsed_bind,
      parsed_bind, second value rest outcome]
  · rw [eq]
    simp

theorem relabel_map {a : Answer α} {f f' : α → β}
    (second : ∀ value, f' (relabel g value) = relabel g (f value)) :
    (relabel g a).map f' = relabel g (a.map f) :=
  relabel_bind fun value rest _ => by rw [second, relabel_parsed]

end Answer

@[simp] theorem relabel_expect (what : Expectation) (ts : List Token) :
    (expect what (relabel g ts)).answer = relabel g (expect what ts).answer := by
  cases ts with
  | nil => rfl
  | cons t rest =>
    rw [relabel_cons, answer_expect_cons, answer_expect_cons, kind_relabel]
    split <;> rfl

namespace Parse

variable {g} {ts : List Token}

theorem head?_any_relabel (p : Kind → Bool) :
    (relabel g ts).head?.any (fun t => p t.kind) = ts.head?.any (fun t => p t.kind) := by
  cases ts <;> rfl

theorem combine_relabel (left : Expr) (op : Token) (right : Expr) :
    combine (relabel g left) (relabel g op) (relabel g right) =
      relabel g (combine left op right) := by
  unfold combine
  rw [kind_relabel]
  split <;> rfl

theorem assignTo_relabel (target : Expr) (equals : Token) (value : Expr) :
    assignTo (relabel g target) (relabel g equals) (relabel g value) =
      (relabel g (assignTo target equals value).1, relabel g (assignTo target equals value).2) := by
  cases target <;> rfl

theorem countReports_relabel (rule : Violation) (count : Nat) (ts : List Token) :
    countReports rule count (relabel g ts) = relabel g (countReports rule count ts) := by
  unfold countReports
  split
  · rw [head?_relabel]
    rfl
  · rfl

theorem entries_relabel {later : List Token → Answer (List α)} (first : α)
    (shorter : ∀ rest : List Token, rest.length < ts.length →
      later (relabel g rest) = relabel g (later rest)) :
    entries later (relabel g first) (relabel g ts) = relabel g (entries later first ts) := by
  cases ts with
  | nil => rfl
  | cons t rest =>
    simp only [relabel_cons, entries, kind_relabel]
    split
    · rw [shorter rest (by simp)]
      exact Answer.relabel_map fun value => rfl
    · rfl

/-- Every function that reads expressions does on relabelled tokens what it does on `ts`. -/
structure ExpressionsRelabel (g : Nat → Nat) (ts : List Token) : Prop where
  expression : (expression (relabel g ts)).answer = relabel g (expression ts).answer
  operation : ∀ power, (operation power (relabel g ts)).answer = relabel g (operation power ts).answer
  operators : ∀ power left, (operators power (relabel g left) (relabel g ts)).answer =
    relabel g (operators power left ts).answer
  unary : (unary (relabel g ts)).answer = relabel g (unary ts).answer
  calls : ∀ callee, (calls (relabel g callee) (relabel g ts)).answer =
    relabel g (calls callee ts).answer
  arguments : (arguments (relabel g ts)).answer = relabel g (arguments ts).answer
  argumentList : ∀ count, (argumentList count (relabel g ts)).answer =
    relabel g (argumentList count ts).answer

section Expressions

variable (shorter : ∀ rest : List Token, rest.length < ts.length → ExpressionsRelabel g rest)
include shorter

theorem primary_relabel : (primary (relabel g ts)).answer = relabel g (primary ts).answer := by
  cases ts with
  | nil =>
    rw [relabel_nil, answer_primary_nil]
    rfl
  | cons t rest =>
    rw [relabel_cons, answer_primary_cons, answer_primary_cons, kind_relabel]
    cases constant? t.kind with
    | some l => rfl
    | none =>
      dsimp only
      split
      · rfl
      · split
        · rw [(shorter rest (by simp)).expression]
          refine Answer.relabel_bind fun inner rest₁ _ => ?_
          rw [relabel_expect]
          exact Answer.relabel_map fun _ => rfl
        · rfl

theorem calls_relabel (callee : Expr) :
    (calls (relabel g callee) (relabel g ts)).answer = relabel g (calls callee ts).answer := by
  cases ts with
  | nil =>
    rw [relabel_nil, answer_calls_nil, answer_calls_nil]
    rfl
  | cons t rest =>
    rw [relabel_cons, answer_calls_cons, answer_calls_cons, kind_relabel]
    split
    · rw [(shorter rest (by simp)).arguments]
      refine Answer.relabel_bind fun args rest₁ first => ?_
      rw [relabel_expect]
      refine Answer.relabel_bind fun paren rest₂ second => ?_
      have less₁ := (Reply.leaves_of_parsed first).length_le
      have less₂ := Reply.shorter_of_parsed second
      rw [← Expr.relabel_call]
      exact (shorter rest₂ (by rw [List.length_cons]; omega)).calls _
    · rfl

theorem call_relabel : (call (relabel g ts)).answer = relabel g (call ts).answer := by
  rw [answer_call, answer_call, primary_relabel shorter]
  refine Answer.relabel_bind fun callee rest parsed => ?_
  exact (shorter rest (Reply.shorter_of_parsed parsed)).calls callee

theorem unary_relabel : (unary (relabel g ts)).answer = relabel g (unary ts).answer := by
  have plain := call_relabel shorter
  cases ts with
  | nil =>
    rw [relabel_nil, answer_unary_nil]
    exact plain
  | cons t rest =>
    rw [relabel_cons] at plain ⊢
    rw [answer_unary_cons, answer_unary_cons, kind_relabel]
    split
    · rw [(shorter rest (by simp)).unary]
      exact Answer.relabel_map fun _ => rfl
    · exact plain

theorem operators_relabel (power : Nat) (left : Expr) :
    (operators power (relabel g left) (relabel g ts)).answer =
      relabel g (operators power left ts).answer := by
  cases ts with
  | nil =>
    rw [relabel_nil, answer_operators_nil, answer_operators_nil]
    rfl
  | cons op rest =>
    rw [relabel_cons, answer_operators_cons, answer_operators_cons, kind_relabel]
    cases op.kind.bindingPower? with
    | none => rfl
    | some powers =>
      dsimp only
      split
      · rfl
      · rw [(shorter rest (by simp)).operation]
        refine Answer.relabel_bind fun right rest' parsed => ?_
        have less := Reply.shorter_of_parsed parsed
        rw [combine_relabel]
        exact (shorter rest' (by rw [List.length_cons]; omega)).operators power _

theorem operation_relabel (power : Nat) :
    (operation power (relabel g ts)).answer = relabel g (operation power ts).answer := by
  rw [answer_operation, answer_operation, unary_relabel shorter]
  refine Answer.relabel_bind fun left rest parsed => ?_
  exact (shorter rest (Reply.shorter_of_parsed parsed)).operators power left

theorem expression_relabel_of_shorter :
    (expression (relabel g ts)).answer = relabel g (expression ts).answer := by
  rw [answer_expression, answer_expression, operation_relabel shorter]
  refine Answer.relabel_bind fun target left parsed => ?_
  have less := Reply.shorter_of_parsed parsed
  cases left with
  | nil => rfl
  | cons t rest =>
    simp only [relabel_cons, assignment, kind_relabel]
    split
    · rw [(shorter rest (Nat.lt_of_succ_lt less)).expression]
      refine Answer.relabel_bind fun value rest' _ => ?_
      rw [assignTo_relabel, Answer.relabel_after, Answer.relabel_parsed]
    · rfl

theorem argumentList_relabel (count : Nat) :
    (argumentList count (relabel g ts)).answer = relabel g (argumentList count ts).answer := by
  rw [answer_argumentList, answer_argumentList, expression_relabel_of_shorter shorter,
    Answer.relabel_after, countReports_relabel]
  congr 1
  refine Answer.relabel_bind fun first left parsed => ?_
  have less := Reply.shorter_of_parsed parsed
  exact entries_relabel first fun rest less' =>
    (shorter rest (Nat.lt_trans less' less)).argumentList (count + 1)

theorem arguments_relabel :
    (arguments (relabel g ts)).answer = relabel g (arguments ts).answer := by
  rw [answer_arguments, answer_arguments, argumentList_relabel shorter,
    head?_any_relabel (· = .symbol .rightParen)]
  split <;> rfl

end Expressions

theorem expressionsRelabel (g : Nat → Nat) (ts : List Token) : ExpressionsRelabel g ts := by
  induction ts using shorterInduction with
  | step ts ih =>
    exact ⟨expression_relabel_of_shorter ih, operation_relabel ih, operators_relabel ih,
      unary_relabel ih, calls_relabel ih, arguments_relabel ih, argumentList_relabel ih⟩

@[simp] theorem expression_relabel (ts : List Token) :
    (expression (relabel g ts)).answer = relabel g (expression ts).answer :=
  (expressionsRelabel g ts).expression

section Clauses

@[simp] theorem optional_relabel (stop : Kind) (ts : List Token) :
    (optional stop (relabel g ts)).answer = relabel g (optional stop ts).answer := by
  rw [answer_optional, answer_optional, head?_any_relabel (· = stop), expression_relabel]
  split
  · rfl
  · exact Answer.relabel_map fun _ => rfl

theorem expression_expect_relabel {f : Expr → Stmt} (what : Expectation)
    (built : ∀ e, f (relabel g e) = relabel g (f e)) (ts : List Token) :
    ((expression (relabel g ts)).answer.bind fun expr rest =>
        (expect what rest).answer.map fun _ => f expr) =
      relabel g ((expression ts).answer.bind fun expr rest =>
        (expect what rest).answer.map fun _ => f expr) := by
  rw [expression_relabel]
  refine Answer.relabel_bind fun expr rest _ => ?_
  rw [relabel_expect]
  exact Answer.relabel_map fun _ => built expr

theorem expressionStatement_relabel (ts : List Token) :
    (expressionStatement (relabel g ts)).answer = relabel g (expressionStatement ts).answer := by
  rw [answer_expressionStatement, answer_expressionStatement]
  exact expression_expect_relabel _ (fun _ => rfl) ts

theorem printStatement_relabel (ts : List Token) :
    (printStatement (relabel g ts)).answer = relabel g (printStatement ts).answer := by
  rw [answer_printStatement, answer_printStatement]
  exact expression_expect_relabel _ (fun _ => rfl) ts

theorem returnStatement_relabel (inFunction : Bool) (keyword : Token) (ts : List Token) :
    (returnStatement inFunction (relabel g keyword) (relabel g ts)).answer =
      relabel g (returnStatement inFunction keyword ts).answer := by
  rw [answer_returnStatement, answer_returnStatement, Answer.relabel_after, optional_relabel]
  congr 1
  · split <;> rfl
  · refine Answer.relabel_bind fun value rest _ => ?_
    rw [relabel_expect]
    exact Answer.relabel_map fun _ => rfl

theorem initializer_relabel (ts : List Token) :
    (initializer (relabel g ts)).answer = relabel g (initializer ts).answer := by
  cases ts with
  | nil => rfl
  | cons t rest =>
    rw [relabel_cons, answer_initializer_cons, answer_initializer_cons, kind_relabel,
      expression_relabel]
    split
    · exact Answer.relabel_map fun _ => rfl
    · rfl

theorem variableDeclaration_relabel (ts : List Token) :
    (variableDeclaration (relabel g ts)).answer = relabel g (variableDeclaration ts).answer := by
  rw [answer_variableDeclaration, answer_variableDeclaration, relabel_expect]
  refine Answer.relabel_bind fun name rest₁ _ => ?_
  rw [initializer_relabel]
  refine Answer.relabel_bind fun value rest₂ _ => ?_
  rw [relabel_expect]
  exact Answer.relabel_map fun _ => rfl

theorem parameterList_relabel (count : Nat) (ts : List Token) :
    (parameterList count (relabel g ts)).answer = relabel g (parameterList count ts).answer := by
  induction ts using shorterInduction generalizing count with
  | step ts ih =>
    rw [answer_parameterList, answer_parameterList, relabel_expect, Answer.relabel_after,
      countReports_relabel]
    congr 1
    refine Answer.relabel_bind fun first left parsed => ?_
    have less := Reply.shorter_of_parsed parsed
    exact entries_relabel first fun rest less' => ih rest (Nat.lt_trans less' less) (count + 1)

theorem parameters_relabel (ts : List Token) :
    (parameters (relabel g ts)).answer = relabel g (parameters ts).answer := by
  rw [answer_parameters, answer_parameters, parameterList_relabel,
    head?_any_relabel (· = .symbol .rightParen)]
  split <;> rfl

theorem forInitializer_relabel (ts : List Token) :
    (forInitializer (relabel g ts)).answer = relabel g (forInitializer ts).answer := by
  have plain := expressionStatement_relabel (g := g) ts
  cases ts with
  | nil =>
    rw [relabel_nil] at plain ⊢
    rw [answer_forInitializer_nil]
    exact (congrArg (Answer.map some) plain).trans (Answer.relabel_map fun _ => rfl)
  | cons t rest =>
    rw [relabel_cons] at plain ⊢
    rw [answer_forInitializer_cons, answer_forInitializer_cons, kind_relabel, plain,
      variableDeclaration_relabel]
    split
    · rfl
    · split <;> exact Answer.relabel_map fun _ => rfl

theorem forClauses_relabel (ts : List Token) :
    (forClauses (relabel g ts)).answer = relabel g (forClauses ts).answer := by
  rw [answer_forClauses, answer_forClauses, relabel_expect]
  refine Answer.relabel_bind fun _ rest₁ _ => ?_
  rw [forInitializer_relabel]
  refine Answer.relabel_bind fun first rest₂ _ => ?_
  rw [optional_relabel]
  refine Answer.relabel_bind fun condition rest₃ _ => ?_
  rw [relabel_expect]
  refine Answer.relabel_bind fun _ rest₄ _ => ?_
  rw [optional_relabel]
  refine Answer.relabel_bind fun increment rest₅ _ => ?_
  rw [relabel_expect]
  exact Answer.relabel_map fun _ => rfl

theorem ForClauses.loop_relabel (clauses : ForClauses) (body : Stmt) :
    (relabel g clauses).loop (relabel g body) = relabel g (clauses.loop body) := by
  obtain ⟨initializer, condition, increment⟩ := clauses
  cases initializer <;> cases condition <;> cases increment <;> rfl

end Clauses

theorem skipToBoundary_relabel (ts : List Token) :
    skipToBoundary (relabel g ts) = relabel g (skipToBoundary ts) := by
  induction ts with
  | nil => rfl
  | cons t rest ih =>
    simp only [relabel_cons, skipToBoundary, kind_relabel, head?_any_relabel (·.startsStatement)]
    split
    · rfl
    · exact ih

theorem settle_relabel (a : Answer Stmt) : settle (relabel g a) = relabel g (settle a) := by
  obtain ⟨outcome, reports⟩ := a
  cases outcome with
  | parsed stmt rest =>
    rw [settle_parsed]
    exact settle_parsed _ _ _
  | unmet what rest =>
    rw [settle_unmet]
    refine (settle_unmet what (relabel g rest) (relabel g reports)).trans ?_
    rw [skipToBoundary_relabel, head?_relabel]
    simp [relabel]

structure StatementsRelabel (g : Nat → Nat) (ts : List Token) : Prop where
  statement : ∀ inFunction, (statement inFunction (relabel g ts)).answer =
    relabel g (statement inFunction ts).answer
  block : ∀ inFunction, (block inFunction (relabel g ts)).answer =
    relabel g (block inFunction ts).answer

section Statements

variable (shorter : ∀ rest : List Token, rest.length < ts.length → StatementsRelabel g rest)
  (inFunction : Bool)
include shorter

theorem forStatement_relabel :
    (forStatement inFunction (relabel g ts)).answer =
      relabel g (forStatement inFunction ts).answer := by
  rw [answer_forStatement, answer_forStatement, forClauses_relabel]
  refine Answer.relabel_bind fun clauses rest parsed => ?_
  rw [(shorter rest (Reply.shorter_of_parsed parsed)).statement]
  exact Answer.relabel_map fun body => clauses.loop_relabel body

theorem ifStatement_relabel :
    (ifStatement inFunction (relabel g ts)).answer =
      relabel g (ifStatement inFunction ts).answer := by
  rw [answer_ifStatement, answer_ifStatement, relabel_expect]
  refine Answer.relabel_bind fun _ rest₁ first => ?_
  rw [expression_relabel]
  refine Answer.relabel_bind fun condition rest₂ second => ?_
  rw [relabel_expect]
  refine Answer.relabel_bind fun _ rest₃ third => ?_
  have less₁ := Reply.shorter_of_parsed first
  have less₂ := Reply.shorter_of_parsed second
  have less₃ := Reply.shorter_of_parsed third
  rw [(shorter rest₃ (by omega)).statement]
  refine Answer.relabel_bind fun thenBranch left fourth => ?_
  have less₄ := Reply.shorter_of_parsed fourth
  cases left with
  | nil => rfl
  | cons t rest =>
    rw [List.length_cons] at less₄
    simp only [relabel_cons, alternative, kind_relabel]
    split
    · rw [(shorter rest (by omega)).statement]
      exact Answer.relabel_map fun _ => rfl
    · rfl

theorem whileStatement_relabel :
    (whileStatement inFunction (relabel g ts)).answer =
      relabel g (whileStatement inFunction ts).answer := by
  rw [answer_whileStatement, answer_whileStatement, relabel_expect]
  refine Answer.relabel_bind fun _ rest₁ first => ?_
  rw [expression_relabel]
  refine Answer.relabel_bind fun condition rest₂ second => ?_
  rw [relabel_expect]
  refine Answer.relabel_bind fun _ rest₃ third => ?_
  have less₁ := Reply.shorter_of_parsed first
  have less₂ := Reply.shorter_of_parsed second
  have less₃ := Reply.shorter_of_parsed third
  rw [(shorter rest₃ (by omega)).statement]
  exact Answer.relabel_map fun _ => rfl

theorem functionDeclaration_relabel :
    (functionDeclaration (relabel g ts)).answer = relabel g (functionDeclaration ts).answer := by
  rw [answer_functionDeclaration, answer_functionDeclaration, relabel_expect]
  refine Answer.relabel_bind fun name rest₁ first => ?_
  rw [relabel_expect]
  refine Answer.relabel_bind fun _ rest₂ second => ?_
  rw [parameters_relabel]
  refine Answer.relabel_bind fun params rest₃ third => ?_
  rw [relabel_expect]
  refine Answer.relabel_bind fun _ rest₄ fourth => ?_
  rw [relabel_expect]
  refine Answer.relabel_bind fun _ rest₅ fifth => ?_
  have less₁ := Reply.shorter_of_parsed first
  have less₂ := Reply.shorter_of_parsed second
  have less₃ := (Reply.leaves_of_parsed third).length_le
  have less₄ := Reply.shorter_of_parsed fourth
  have less₅ := Reply.shorter_of_parsed fifth
  rw [(shorter rest₅ (by omega)).block]
  exact Answer.relabel_map fun body => (Stmt.relabel_function g name params body).symm

theorem statement_relabel_of_shorter :
    (statement inFunction (relabel g ts)).answer = relabel g (statement inFunction ts).answer := by
  have plain := expressionStatement_relabel (g := g) ts
  cases ts with
  | nil =>
    rw [relabel_nil, answer_statement_nil]
    exact plain
  | cons t rest =>
    have shorter' (rest' : List Token) (less : rest'.length < rest.length) :=
      shorter rest' (Nat.lt_succ_of_lt less)
    rw [relabel_cons] at plain ⊢
    rw [answer_statement_cons, answer_statement_cons, kind_relabel]
    split
    · exact forStatement_relabel shorter' inFunction
    · exact ifStatement_relabel shorter' inFunction
    · exact printStatement_relabel rest
    · exact returnStatement_relabel inFunction t rest
    · exact whileStatement_relabel shorter' inFunction
    · rw [(shorter rest (by simp)).block]
      exact Answer.relabel_map fun body => (Stmt.relabel_block g body).symm
    · exact plain

theorem attempt_relabel :
    attempt inFunction (relabel g ts) = relabel g (attempt inFunction ts) := by
  have plain := statement_relabel_of_shorter shorter inFunction
  cases ts with
  | nil => exact plain
  | cons t rest =>
    have shorter' (rest' : List Token) (less : rest'.length < rest.length) :=
      shorter rest' (Nat.lt_succ_of_lt less)
    rw [relabel_cons] at plain ⊢
    simp only [attempt, kind_relabel]
    split
    · exact functionDeclaration_relabel shorter'
    · split
      · exact variableDeclaration_relabel rest
      · exact plain

theorem declaration_relabel_of_shorter :
    (declaration inFunction (relabel g ts)).answer =
      relabel g (declaration inFunction ts).answer := by
  rw [answer_declaration, answer_declaration, attempt_relabel shorter, settle_relabel]

theorem block_relabel :
    (block inFunction (relabel g ts)).answer = relabel g (block inFunction ts).answer := by
  have first := declaration_relabel_of_shorter shorter inFunction
  cases ts with
  | nil =>
    rw [relabel_nil, answer_block_nil]
    rfl
  | cons t rest =>
    rw [relabel_cons] at first ⊢
    rw [answer_block_cons, answer_block_cons, kind_relabel, first]
    split
    · rfl
    · refine Answer.relabel_bind fun value left parsed => ?_
      have less : left.length < (t :: rest).length := Nat.lt_succ_of_le (shorter_of_settled parsed)
      rw [(shorter left less).block, toList_relabel]
      exact Answer.relabel_map fun body => (relabel_append g value.toList body).symm

end Statements

theorem statementsRelabel (g : Nat → Nat) (ts : List Token) : StatementsRelabel g ts := by
  induction ts using shorterInduction with
  | step ts ih => exact ⟨statement_relabel_of_shorter ih, block_relabel ih⟩

theorem declaration_relabel (inFunction : Bool) (ts : List Token) :
    (declaration inFunction (relabel g ts)).answer =
      relabel g (declaration inFunction ts).answer :=
  declaration_relabel_of_shorter (fun rest _ => statementsRelabel g rest) inFunction

theorem Declaration.parts_of_answer {ts rest : List Token} {d : Declaration ts}
    {value : Option Stmt} {made : List Report}
    (eq : d.answer = (Answer.parsed value rest).after made) :
    d.value = value ∧ d.rest = rest ∧ d.reports = made := by
  simpa [Declaration.answer, Answer.parsed, Answer.after, and_assoc] using eq

theorem program_relabel (ts : List Token) :
    program (relabel g ts) = relabel g (program ts) := by
  induction ts using shorterInduction with
  | step ts ih =>
    cases ts with
    | nil =>
      rw [relabel_nil, program]
      rfl
    | cons t rest =>
      have first := declaration_relabel (g := g) false (t :: rest)
      simp only [Declaration.answer, Answer.relabel_after, Answer.relabel_parsed] at first
      obtain ⟨value, left, reports⟩ := Declaration.parts_of_answer first
      have less := (declaration false (t :: rest)).shorter
      have later := ih (declaration false (t :: rest)).rest (Nat.lt_succ_of_le less)
      rw [relabel_cons] at value left reports ⊢
      rw [program, program]
      simp only [value, left, reports, later, toList_relabel]
      simp [relabel]

end Parse

instance : Lined Diagnostic where
  relabel g d := { d with line := g d.line }
  relabel_id _ := rfl
  relabel_relabel _ _ _ := rfl

instance : Lined Cursor where
  relabel g c := ⟨relabel g c.rest, relabel g c.endToken⟩
  relabel_id c := by simp
  relabel_relabel g h c := by simp

instance : Lined (Reading α) where
  relabel g r := ⟨relabel g r.result, relabel g r.diagnostics, relabel g r.cursor⟩
  relabel_id r := by simp
  relabel_relabel g h r := by simp

namespace Cursor

variable {g}

theorem diagnostic_relabel (endToken : Token) (r : Report) :
    (relabel g r).diagnostic (relabel g endToken) = relabel g (r.diagnostic endToken) := by
  obtain ⟨token?, problem⟩ := r
  cases token? <;> rfl

theorem diagnostics_relabel (endToken : Token) (reports : List Report) :
    (relabel g reports).map (·.diagnostic (relabel g endToken)) =
      relabel g (reports.map (·.diagnostic endToken)) := by
  simp only [relabel, List.map_map]
  exact List.map_congr_left fun r _ => diagnostic_relabel endToken r

/-- Reading a program looks at no line. -/
theorem program_relabel (c : Cursor) : (relabel g c).program = relabel g c.program := by
  have trees : Parse.program (relabel g c).rest = _ := Parse.program_relabel c.rest
  have texts := diagnostics_relabel (g := g) c.endToken (Parse.program c.rest).2
  simp only [program, reading, trees]
  rw [Reading.mk.injEq]
  exact ⟨rfl, texts, rfl⟩

theorem takeWhile_relabel (p : Kind → Bool) (ts : List Token) :
    (relabel g ts).takeWhile (fun t => p t.kind) =
      relabel g (ts.takeWhile fun t => p t.kind) := by
  simp only [relabel, List.takeWhile_map]
  rfl

theorem dropWhile_relabel (p : Kind → Bool) (ts : List Token) :
    (relabel g ts).dropWhile (fun t => p t.kind) =
      relabel g (ts.dropWhile fun t => p t.kind) := by
  simp only [relabel, List.dropWhile_map]
  rfl

theorem ofTokens_relabel {ts : List Token} (ended : ∃ t ∈ ts, t.kind = .eof) :
    ofTokens (relabel g ts) = relabel g (ofTokens ts) := by
  unfold ofTokens
  rw [dropWhile_relabel (decide <| · ≠ .eof), takeWhile_relabel (decide <| · ≠ .eof)]
  cases eq : ts.dropWhile (decide <| ·.kind ≠ .eof) with
  | cons endToken later => rfl
  | nil =>
    obtain ⟨t, member, eof⟩ := ended
    have plain := List.dropWhile_eq_nil_iff.mp eq t member
    simp [eof] at plain

end Cursor
end Lox
