import Lox.Proofs.Answer
import Lox.Proofs.Reader

/- Each function of the reader follows the one that is given the tokens left and keeps nothing: it
   gives the same result, reports the same, stops before what the other leaves, and comes out with
   as many function bodies around it as it went in with. Here for expressions. -/
namespace Lox

namespace Answer

variable {α : Type}

def result (endToken : Token) (a : Answer α) : Except Refusal α :=
  match a.outcome with
  | .parsed value _ => .ok value
  | .unmet what rest => .error ⟨rest.headD endToken, what⟩

def left (a : Answer α) : List Token :=
  match a.outcome with
  | .parsed _ rest => rest
  | .unmet _ rest => rest

def reported (a : Answer α) : List Report :=
  match a.outcome with
  | .parsed _ _ => a.reports
  | .unmet what rest => a.reports ++ [⟨rest.head?, .expected what⟩]

@[simp] theorem result_after (endToken : Token) (earlier : List Report) (a : Answer α) :
    (a.after earlier).result endToken = a.result endToken := rfl

@[simp] theorem left_after (earlier : List Report) (a : Answer α) :
    (a.after earlier).left = a.left := rfl

@[simp] theorem reported_after (earlier : List Report) (a : Answer α) :
    (a.after earlier).reported = earlier ++ a.reported := by
  obtain ⟨outcome, reports⟩ := a
  cases outcome <;> simp [after, reported]

end Answer

/-- The reader stands before `ts`; then come the first end-of-file token and `later` ones. -/
structure Reader.Before (r : Reader) (ts : List Token) (endToken : Token) (later : List Token) :
    Prop where
  split : r.tokens.drop r.position = ts ++ endToken :: later
  plain : ∀ t ∈ ts, t.kind ≠ .eof

def Reader.moved (r : Reader) (position : Nat) (more : List Diagnostic) : Reader :=
  { r with position, reported := r.reported ++ more }

/-- Reading that goes by an answer: from before `ts` it gives the result, reports what the answer
does and stops before the tokens left, with as many function bodies around it as before. -/
structure Reader.Follows {α : Type} (endToken : Token) (later : List Token) (inFunction : Bool)
    (ts : List Token) (x : Reads α) (a : Answer α) : Prop where
  reads : ∀ r : Reader, r.Before ts endToken later → (inFunction = true ↔ r.depth ≠ 0) →
    ∃ position,
      x r = some (a.result endToken, r.moved position (a.reported.map (·.diagnostic endToken))) ∧
      (r.moved position (a.reported.map (·.diagnostic endToken))).Before a.left endToken later

namespace Reader

section Follows

variable {α β : Type} {e : Token} {later ts rest : List Token} {inFunction : Bool} {t : Token}
  {x : Reads α} {f : α → Reads β} {a : Answer α}

theorem bind_apply (x : Reads α) (f : α → Reads β) (r : Reader) :
    (x >>= f) r =
      match x r with
      | some (.ok a, r') => f a r'
      | some (.error why, r') => some (.error why, r')
      | none => none := rfl

theorem moved_moved (r : Reader) (position position' : Nat) (more more' : List Diagnostic) :
    (r.moved position more).moved position' more' = r.moved position' (more ++ more') := by
  simp [moved]

theorem moved_self (r : Reader) : r.moved r.position [] = r := by
  simp [moved]

theorem Before.peek {r : Reader} (before : r.Before ts e later) :
    r.tokens[r.position]? = some (ts.headD e) := by
  have first := congrArg (·[0]?) before.split
  simp only [List.getElem?_drop, Nat.add_zero] at first
  rw [first]
  cases ts <;> rfl

theorem Before.next {r : Reader} (before : r.Before (t :: rest) e later) :
    (r.moved (r.position + 1) []).Before rest e later where
  split := by
    rw [moved, ← List.drop_drop, before.split]
    rfl
  plain t member := before.plain t (List.mem_cons_of_mem _ member)

theorem Follows.congr {y : Reads α} (follows : Follows e later inFunction ts y a)
    (same : ∀ r : Reader, r.Before ts e later → x r = y r) : Follows e later inFunction ts x a := by
  refine ⟨fun r before depth => ?_⟩
  rw [same r before]
  exact follows.reads r before depth

namespace Follows

theorem pure (value : α) : Follows e later inFunction ts (pure value) (.parsed value ts) := by
  refine ⟨fun r before _ => ⟨r.position, ?_⟩⟩
  simp only [Answer.reported, Answer.parsed, List.map_nil, moved_self]
  exact ⟨rfl, before⟩

theorem bind {g : α → List Token → Answer β} (first : Follows e later inFunction ts x a)
    (second : ∀ value rest, a.outcome = .parsed value rest →
      Follows e later inFunction rest (f value) (g value rest)) :
    Follows e later inFunction ts (x >>= f) (a.bind g) := by
  refine ⟨fun r before depth => ?_⟩
  obtain ⟨position, eq, before'⟩ := first.reads r before depth
  rw [bind_apply, eq]
  obtain ⟨outcome, reports⟩ := a
  cases outcome with
  | unmet what rest => exact ⟨position, rfl, before'⟩
  | parsed value rest =>
    obtain ⟨position', eq', before''⟩ := (second value rest rfl).reads _ before' depth
    rw [moved_moved, ← List.map_append] at eq' before''
    have joined : (Answer.mk (.parsed value rest) reports).bind g = (g value rest).after reports :=
      rfl
    rw [joined, Answer.result_after, Answer.reported_after, Answer.left_after]
    exact ⟨position', eq', before''⟩

theorem map {f : α → β} (follows : Follows e later inFunction ts x a) :
    Follows e later inFunction ts (x >>= fun value => Pure.pure (f value)) (a.map f) :=
  follows.bind fun value _ _ => .pure (f value)

theorem peek {f : Token → Reads α} (follows : Follows e later inFunction ts (f (ts.headD e)) a) :
    Follows e later inFunction ts (Reader.peek >>= f) a := by
  refine follows.congr fun r before => ?_
  rw [bind_apply, Reader.peek, before.peek]
  rfl

theorem peek_nil {f : Token → Reads α} (follows : Follows e later inFunction [] (f e) a) :
    Follows e later inFunction [] (Reader.peek >>= f) a :=
  .peek follows

theorem peek_cons {f : Token → Reads α} (follows : Follows e later inFunction (t :: rest) (f t) a) :
    Follows e later inFunction (t :: rest) (Reader.peek >>= f) a :=
  .peek follows

theorem checked {kind : Kind} {f : Bool → Reads α}
    (follows : Follows e later inFunction ts (f ((ts.headD e).kind = kind)) a) :
    Follows e later inFunction ts (Reader.check kind >>= f) a := by
  refine follows.congr fun r before => ?_
  rw [bind_apply, Reader.check, bind_apply, Reader.peek, before.peek]
  rfl

theorem next {f : Token → Reads α} (follows : Follows e later inFunction rest (f t) a) :
    Follows e later inFunction (t :: rest) (Reader.next >>= f) a := by
  refine ⟨fun r before depth => ?_⟩
  have plain : t.kind ≠ .eof := before.plain t List.mem_cons_self
  obtain ⟨position, eq, before'⟩ := follows.reads _ before.next depth
  rw [moved_moved, List.nil_append] at eq before'
  refine ⟨position, ?_, before'⟩
  rw [bind_apply, Reader.next, before.peek, ← eq]
  simp only [List.headD_cons, Option.map_some, if_neg plain]
  simp only [moved, List.append_nil]

theorem report {problem : Problem} {token? : Option Token} {f : Unit → Reads α}
    (same : t.diagnostic problem = Report.diagnostic e ⟨token?, problem⟩)
    (follows : Follows e later inFunction ts (f ()) a) :
    Follows e later inFunction ts (Reader.report t problem >>= f)
      (a.after [⟨token?, problem⟩]) := by
  refine ⟨fun r before depth => ?_⟩
  have still : (r.moved r.position [t.diagnostic problem]).Before ts e later :=
    ⟨before.split, before.plain⟩
  obtain ⟨position, eq, before'⟩ := follows.reads _ still depth
  rw [moved_moved] at eq before'
  have reports : ((a.after [⟨token?, problem⟩]).reported.map (·.diagnostic e)) =
      [t.diagnostic problem] ++ a.reported.map (·.diagnostic e) := by
    rw [Answer.reported_after, List.map_append, same]
    rfl
  rw [reports, Answer.result_after, Answer.left_after]
  exact ⟨position, eq, before'⟩

end Follows

theorem eat_bind (kind : Kind) (f : Bool → Reads α) :
    (eat kind >>= f) =
      (check kind >>= fun taken => if taken then next >>= fun _ => f true else f false) := by
  funext r
  simp only [eat, bind_apply]
  match check kind r with
  | none => rfl
  | some (.error why, r') => rfl
  | some (.ok false, r') => rfl
  | some (.ok true, r') =>
    simp only [if_true, bind_apply]
    match next r' with
    | none => rfl
    | some (.error why, r'') => rfl
    | some (.ok t, r'') => rfl

variable (ends : e.kind = .eof)
include ends

theorem diagnostic_head (plain : ∀ t ∈ ts, t.kind ≠ .eof) (problem : Problem) :
    (ts.headD e).diagnostic problem = Report.diagnostic e ⟨ts.head?, problem⟩ := by
  cases ts with
  | nil => simp [Token.diagnostic, Report.diagnostic, ends]
  | cons t rest =>
    simp [Token.diagnostic, Report.diagnostic, plain t List.mem_cons_self]

theorem Follows.refuse (what : Expectation) :
    Follows e later inFunction ts (Reader.refuse what : Reads α) (.unmet what ts) := by
  refine ⟨fun r before depth => ⟨r.position, ?_, before.split, before.plain⟩⟩
  have same := diagnostic_head ends before.plain (.expected what)
  rw [Reader.refuse, bind_apply, Reader.peek, before.peek, Answer.reported, Answer.unmet]
  simp only [List.nil_append, List.map_cons, List.map_nil, ← same]
  rfl

/-- Code that looks for a token goes on in one way before it and in another before any other. -/
theorem Follows.check {kind : Kind} {y : Reads α} (known : kind ≠ .eof)
    (found : ∀ t rest, ts = t :: rest → t.kind = kind → Follows e later inFunction (t :: rest) x a)
    (missing : (ts.headD e).kind ≠ kind → Follows e later inFunction ts y a) :
    Follows e later inFunction ts
      (Reader.check kind >>= fun here => if here then x else y) a := by
  refine .checked ?_
  by_cases here : (ts.headD e).kind = kind
  · simp only [here, decide_true, if_true]
    cases ts with
    | nil => exact absurd (here.symm.trans ends) known
    | cons t rest => exact found t rest rfl here
  · simp only [here, decide_false]
    exact missing here

theorem Follows.eat {kind : Kind} {y : Reads α} (known : kind ≠ .eof)
    (taken : ∀ t rest, ts = t :: rest → t.kind = kind → Follows e later inFunction rest x a)
    (missing : (ts.headD e).kind ≠ kind → Follows e later inFunction ts y a) :
    Follows e later inFunction ts (Reader.eat kind >>= fun here => if here then x else y) a := by
  rw [eat_bind]
  exact .check ends known (fun t rest same here => .next (taken t rest same here)) missing

theorem Follows.expect (what : Expectation) :
    Follows e later inFunction ts (Reader.expect what) (Lox.expect what ts).answer := by
  cases ts with
  | nil =>
    have never : some e.kind ≠ what.kind? := by
      rw [ends]
      cases what <;> decide
    refine .peek_nil ?_
    rw [if_neg never, answer_expect_nil]
    exact .refuse ends what
  | cons t rest =>
    refine .peek_cons ?_
    rw [answer_expect_cons]
    split
    · have taken : Reader.next = (Reader.next >>= fun t => Pure.pure t) := by
        funext r
        rw [bind_apply]
        unfold Reader.next
        cases r.tokens[r.position]? <;> rfl
      rw [taken]
      exact .next (.pure t)
    · exact .refuse ends what

end Follows

/-- Expressions are read as they should be when there is fuel for the tokens left. Eight calls for a
token leave room for the descent from one form of expression to the next at the same place. -/
structure ExpressionsFollow (e : Token) (later : List Token) (inFunction : Bool) (fuel : Nat) :
    Prop where
  expression : ∀ ts, ts.length * 8 + 4 < fuel →
    Follows e later inFunction ts (expression fuel) (Parse.expression ts).answer
  operation : ∀ power ts, ts.length * 8 + 3 < fuel →
    Follows e later inFunction ts (operation fuel power) (Parse.operation power ts).answer
  operators : ∀ power left ts, ts.length * 8 < fuel →
    Follows e later inFunction ts (operators fuel power left)
      (Parse.operators power left ts).answer
  unary : ∀ ts, ts.length * 8 + 2 < fuel →
    Follows e later inFunction ts (unary fuel) (Parse.unary ts).answer
  call : ∀ ts, ts.length * 8 + 1 < fuel →
    Follows e later inFunction ts (call fuel) (Parse.call ts).answer
  calls : ∀ callee ts, ts.length * 8 < fuel →
    Follows e later inFunction ts (calls fuel callee) (Parse.calls callee ts).answer
  arguments : ∀ ts, ts.length * 8 + 6 < fuel →
    Follows e later inFunction ts (arguments fuel) (Parse.arguments ts).answer
  argumentList : ∀ args ts, ts.length * 8 + 5 < fuel →
    Follows e later inFunction ts (argumentList fuel args)
      ((Parse.argumentList args.length ts).answer.map (args ++ ·))
  primary : ∀ ts, ts.length * 8 < fuel →
    Follows e later inFunction ts (primary fuel) (Parse.primary ts).answer

section Expressions

variable {e : Token} {later : List Token} {inFunction : Bool} (ends : e.kind = .eof) {fuel : Nat}

omit fuel in
theorem head_any_of_ne {kind : Kind} {ts : List Token} (other : (ts.headD e).kind ≠ kind) :
    ¬ ts.head?.any (·.kind = kind) = true := by
  cases ts with
  | nil => simp
  | cons t rest => simpa using other

omit fuel in
theorem entries_of_ne {α : Type} {next : List Token → Answer (List α)} {first : α}
    {left : List Token} (other : (left.headD e).kind ≠ .symbol .comma) :
    Parse.entries next first left = .parsed [first] left := by
  cases left with
  | nil => rfl
  | cons t rest => exact if_neg other

theorem Follows.noteCount {α : Type} {rule : Violation} {count : Nat} {ts : List Token}
    {f : Unit → Reads α} {a : Answer α} (ends : e.kind = .eof)
    (follows : Follows e later inFunction ts (f ()) a) :
    Follows e later inFunction ts (Reader.noteCount rule count >>= f)
      (a.after (Parse.countReports rule count ts)) := by
  unfold Parse.countReports
  split
  · rename_i full
    refine ⟨fun r before depth => ?_⟩
    have same := diagnostic_head ends before.plain (.violated rule)
    have reports := Follows.report same follows
    obtain ⟨position, eq, before'⟩ := reports.reads r before depth
    refine ⟨position, ?_, before'⟩
    rw [← eq, bind_apply, Reader.noteCount, if_pos full, bind_apply, Reader.peek, before.peek]
    rfl
  · rename_i room
    refine follows.congr fun r _ => ?_
    rw [bind_apply, Reader.noteCount, if_neg room]
    rfl

variable (ih : ExpressionsFollow e later inFunction fuel)
include ends ih

theorem expression_succ (ts : List Token) (enough : ts.length * 8 + 4 < fuel + 1) :
    Follows e later inFunction ts (expression (fuel + 1)) (Parse.expression ts).answer := by
  rw [expression, Parse.answer_expression]
  refine (ih.operation 0 ts (by omega)).bind fun target left parsed => ?_
  have shorter := Reply.shorter_of_parsed parsed
  refine .check ends (by decide) ?_ ?_
  · rintro t rest rfl equal
    simp only [List.length_cons] at shorter
    rw [Parse.assignment, if_pos equal]
    refine .next ((ih.expression rest (by omega)).bind fun value rest' _ => ?_)
    have plain : t.diagnostic (.violated .assignmentTarget) =
        Report.diagnostic e ⟨some t, .violated .assignmentTarget⟩ := by
      simp [Token.diagnostic, Report.diagnostic, equal]
    cases target with
    | reference name => exact .pure _
    | _ => exact .report plain (.pure _)
  · intro other
    have alone : Parse.assignment (fun rest => (Parse.expression rest).answer) target left =
        .parsed target left := by
      cases left with
      | nil => rfl
      | cons t rest => exact if_neg other
    rw [alone]
    exact .pure target

omit ends in
theorem operation_succ (power : Nat) (ts : List Token) (enough : ts.length * 8 + 3 < fuel + 1) :
    Follows e later inFunction ts (operation (fuel + 1) power)
      (Parse.operation power ts).answer := by
  rw [operation, Parse.answer_operation]
  refine (ih.unary ts (by omega)).bind fun left rest parsed => ?_
  have shorter := Reply.shorter_of_parsed parsed
  exact ih.operators power left rest (by omega)

theorem operators_succ (power : Nat) (left : Expr) (ts : List Token)
    (enough : ts.length * 8 < fuel + 1) :
    Follows e later inFunction ts (operators (fuel + 1) power left)
      (Parse.operators power left ts).answer := by
  rw [operators]
  cases ts with
  | nil =>
    refine .peek_nil ?_
    rw [Parse.answer_operators_nil, ends]
    exact .pure left
  | cons op rest =>
    refine .peek_cons ?_
    rw [Parse.answer_operators_cons]
    simp only [List.length_cons] at enough
    cases op.kind.bindingPower? with
    | none => exact .pure left
    | some powers =>
      simp only
      split
      · exact .pure left
      · refine .next ((ih.operation powers.2 rest (by omega)).bind fun right rest' parsed => ?_)
        have shorter := Reply.shorter_of_parsed parsed
        exact ih.operators power _ rest' (by omega)

theorem unary_succ (ts : List Token) (enough : ts.length * 8 + 2 < fuel + 1) :
    Follows e later inFunction ts (unary (fuel + 1)) (Parse.unary ts).answer := by
  rw [unary]
  cases ts with
  | nil =>
    refine .peek_nil ?_
    rw [Parse.answer_unary_nil, if_neg (by simp [ends])]
    exact ih.call [] (by omega)
  | cons op rest =>
    refine .peek_cons ?_
    rw [Parse.answer_unary_cons]
    split
    · simp only [List.length_cons] at enough
      exact .next (ih.unary rest (by omega)).map
    · exact ih.call (op :: rest) (by omega)

omit ends in
theorem call_succ (ts : List Token) (enough : ts.length * 8 + 1 < fuel + 1) :
    Follows e later inFunction ts (call (fuel + 1)) (Parse.call ts).answer := by
  rw [call, Parse.answer_call]
  refine (ih.primary ts (by omega)).bind fun callee rest parsed => ?_
  have shorter := Reply.shorter_of_parsed parsed
  exact ih.calls callee rest (by omega)

theorem calls_succ (callee : Expr) (ts : List Token) (enough : ts.length * 8 < fuel + 1) :
    Follows e later inFunction ts (calls (fuel + 1) callee) (Parse.calls callee ts).answer := by
  rw [calls]
  refine .eat ends (by decide) ?_ ?_
  · rintro t rest rfl opens
    simp only [List.length_cons] at enough
    rw [Parse.answer_calls_cons, if_pos opens]
    refine (ih.arguments rest (by omega)).bind fun args rest₁ parsed => ?_
    refine (Follows.expect ends _).bind fun paren rest₂ closes => ?_
    have le := (Reply.leaves_of_parsed parsed).length_le
    have shorter := Reply.shorter_of_parsed closes
    exact ih.calls _ rest₂ (by omega)
  · intro other
    have alone : (Parse.calls callee ts).answer = .parsed callee ts := by
      cases ts with
      | nil => exact Parse.answer_calls_nil callee
      | cons t rest =>
        rw [Parse.answer_calls_cons]
        exact if_neg other
    rw [alone]
    exact .pure callee

theorem arguments_succ (ts : List Token) (enough : ts.length * 8 + 6 < fuel + 1) :
    Follows e later inFunction ts (arguments (fuel + 1)) (Parse.arguments ts).answer := by
  rw [arguments, Parse.answer_arguments]
  refine .check ends (by decide) ?_ ?_
  · rintro t rest rfl closes
    rw [if_pos (by simpa using closes)]
    exact .pure []
  · intro other
    rw [if_neg (head_any_of_ne other)]
    have list := ih.argumentList [] ts (by omega)
    simpa [Answer.map] using list

theorem argumentList_succ (args : List Expr) (ts : List Token)
    (enough : ts.length * 8 + 5 < fuel + 1) :
    Follows e later inFunction ts (argumentList (fuel + 1) args)
      ((Parse.argumentList args.length ts).answer.map (args ++ ·)) := by
  -- The reader hands the list down and the answer builds it on the way back: they agree once the
  -- arguments read so far are put in front.
  rw [argumentList, Parse.answer_argumentList, Answer.after_map]
  refine .noteCount ends ?_
  rw [Answer.map, Answer.bind_assoc]
  refine (ih.expression ts (by omega)).bind fun arg left parsed => ?_
  have shorter := Reply.shorter_of_parsed parsed
  refine .eat ends (by decide) ?_ ?_
  · rintro t rest rfl comma
    simp only [List.length_cons] at shorter
    have list := ih.argumentList (args ++ [arg]) rest (by omega)
    simp only [List.length_append, List.length_singleton] at list
    rw [Parse.entries, if_pos comma]
    simpa [Answer.map, Answer.bind_assoc] using list
  · intro other
    rw [entries_of_ne other]
    exact .pure _

theorem primary_succ (ts : List Token) (enough : ts.length * 8 < fuel + 1) :
    Follows e later inFunction ts (primary (fuel + 1)) (Parse.primary ts).answer := by
  rw [primary]
  cases ts with
  | nil =>
    have none : Parse.constant? e.kind = none := by
      rw [ends]
      rfl
    refine .peek_nil ?_
    rw [Parse.answer_primary_nil, none]
    simp only
    rw [if_neg (by simp [ends])]
    refine .eat ends (by decide) ?_ fun _ => .refuse ends _
    rintro t rest ⟨⟩
  | cons t rest =>
    refine .peek_cons ?_
    rw [Parse.answer_primary_cons]
    simp only [List.length_cons] at enough
    cases Parse.constant? t.kind with
    | some l => exact .next (.pure _)
    | none =>
      simp only
      split
      · exact .next (.pure _)
      · refine .eat ends (by decide) ?_ ?_
        · rintro _ _ ⟨⟩ opens
          rw [if_pos opens]
          exact (ih.expression rest (by omega)).bind fun inner _ _ => (Follows.expect ends _).map
        · intro (other : t.kind ≠ .symbol .leftParen)
          rw [if_neg other]
          exact .refuse ends _

omit ih in
theorem expressionsFollow (fuel : Nat) : ExpressionsFollow e later inFunction fuel := by
  induction fuel with
  | zero => constructor <;> simp
  | succ fuel ih =>
    exact ⟨expression_succ ends ih, operation_succ ih, operators_succ ends ih, unary_succ ends ih,
      call_succ ih, calls_succ ends ih, arguments_succ ends ih, argumentList_succ ends ih,
      primary_succ ends ih⟩

end Expressions

end Reader

end Lox
