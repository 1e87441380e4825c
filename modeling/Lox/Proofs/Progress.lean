import Lox.Proofs.Residue
import Lox.Proofs.Tracks

/- Calls on a reader, in any number of function bodies and with anything reported before. At or before
   the first end-of-file token, with fuel for the tokens, every call comes to an end and does not
   depend on what comes after that token. Only a refused expression or statement takes no token, so
   reading on and on reaches the end. What a call reports is at tokens that it has passed or stands
   at, and a refusal is the last of it. -/
namespace Lox

namespace Reader

/-- A reader of these tokens, at or before the first end-of-file token. -/
structure Along (tokens : List Token) (r : Reader) : Prop where
  same : r.tokens = (ofTokens tokens).tokens
  place : r.position ≤ firstEnd r.tokens

def followedBy (later : List Token) (r : Reader) : Reader :=
  { r with tokens := r.tokens.take (firstEnd r.tokens + 1) ++ later }

end Reader

namespace Call

def reads : (call : Call) → Nat → Reads call.Value
  | .expression => Reader.expression
  | .statement => Reader.statement
  | .declaration => Reader.declaration
  | .program => fun fuel => Reader.program fuel []

/-- How far a call gets: an expression or a statement that is not refused takes a token, a declaration
takes one unless it is at the end, and a program goes to the end. -/
def Advances : (call : Call) → Except Refusal call.Value → Reader → Reader → Prop
  | .expression, result, r, r' => result.isOk = true → r.position < r'.position
  | .statement, result, r, r' => result.isOk = true → r.position < r'.position
  | .declaration, _, r, r' => r.position < firstEnd r.tokens → r.position < r'.position
  | .program, _, r, r' => r'.position = firstEnd r.tokens

def GivesUp : (call : Call) → Except Refusal call.Value → Prop
  | .declaration, result => result = .ok none
  | _, _ => False

def Leaves : (call : Call) → List Token → Answer call.Value → Prop
  | .expression, ts, a => ∀ value rest, a.outcome = .parsed value rest → rest.length < ts.length
  | .statement, ts, a => ∀ value rest, a.outcome = .parsed value rest → rest.length < ts.length
  | .declaration, ts, a => a.left.length ≤ ts.length - 1
  | .program, _, a => a.left = []

end Call

namespace Reader

variable {α : Type} {e : Token} {later ts tokens : List Token} {r : Reader}

theorem Along.before (along : r.Along tokens) :
    ∃ ts e later, e.kind = .eof ∧ r.Before ts e later ∧
      firstEnd r.tokens = r.position + ts.length := by
  obtain ⟨front, e, later, ends, before, -⟩ := ofTokens_stands tokens
  have split : r.tokens = front ++ e :: later := along.same.trans before.split
  have first : firstEnd r.tokens = front.length := findIdx_eof ends split before.plain
  have place := along.place
  rw [first] at place ⊢
  refine ⟨front.drop r.position, e, later, ends, ⟨?_, ?_⟩, ?_⟩
  · rw [split, List.drop_append_of_le_length place]
  · intro t member
    exact before.plain t (List.mem_of_mem_drop member)
  · rw [List.length_drop]
    omega

theorem Before.followedBy (before : r.Before ts e later)
    (first : firstEnd r.tokens = r.position + ts.length) (others : List Token) :
    (r.followedBy others).Before ts e others := by
  refine ⟨?_, before.plain⟩
  have length := before.length
  have bound : r.position ≤ (r.tokens.take (firstEnd r.tokens + 1)).length := by
    rw [List.length_take]
    omega
  show (r.tokens.take (firstEnd r.tokens + 1) ++ others).drop r.position = _
  rw [List.drop_append_of_le_length bound, List.drop_take, before.split, first]
  have count : r.position + ts.length + 1 - r.position = ts.length + 1 := by omega
  rw [count, List.take_append, List.take_of_length_le (Nat.le_succ _)]
  simp

/-- Where reading stops is known from what it leaves. -/
theorem Follows.stops {x : Reads α} {a : Answer α} {inFunction : Bool}
    (follows : Follows e later inFunction ts x a) (le : a.left.length ≤ ts.length)
    (before : r.Before ts e later) (depth : inFunction = true ↔ r.depth ≠ 0) :
    x r = some (a.result e, r.moved (r.position + (ts.length - a.left.length))
      (a.reported.map (·.diagnostic e))) := by
  obtain ⟨position, eq, left⟩ := follows.reads r before depth
  have place : position + a.left.length = r.position + ts.length := before.end_eq left rfl
  have same : position = r.position + (ts.length - a.left.length) := by omega
  rw [eq, same]

theorem program_ends (ends : e.kind = .eof) (inFunction : Bool) (ts : List Token) :
    ∃ stmts reports, ∀ later fuel body, ts.length * 8 + 8 < fuel →
      Follows e later inFunction ts (program fuel body)
        ((Answer.parsed (body ++ stmts) []).after reports) := by
  induction ts using shorterInduction with
  | step ts ih =>
    cases ts with
    | nil =>
      refine ⟨[], [], fun later fuel body enough => ?_⟩
      obtain ⟨fuel, rfl⟩ : ∃ n, fuel = n + 1 := ⟨fuel - 1, by omega⟩
      refine .checked ?_
      simp only [List.headD_nil, ends, decide_true, if_true, List.append_nil]
      exact .pure body
    | cons t rest =>
      let first := Parse.declaration inFunction (t :: rest)
      have shorter : first.rest.length ≤ rest.length := first.shorter
      obtain ⟨stmts, reports, others⟩ := ih first.rest (Nat.lt_succ_of_le shorter)
      refine ⟨first.value.toList ++ stmts, first.reports ++ reports, ?_⟩
      intro later fuel body enough
      obtain ⟨fuel, rfl⟩ : ∃ n, fuel = n + 1 := ⟨fuel - 1, by omega⟩
      simp only [List.length_cons] at enough
      refine .of_plain fun plain => .checked ?_
      have more : t.kind ≠ .eof := plain t List.mem_cons_self
      have joined : (Answer.parsed (body ++ (first.value.toList ++ stmts)) []).after
          (first.reports ++ reports) = first.answer.bind fun value _ =>
            (Answer.parsed (body ++ value.toList ++ stmts) []).after reports := by
        rw [Parse.Declaration.answer, Answer.after_bind, Answer.parsed_bind, Answer.after_after,
          List.append_assoc]
      simp only [List.headD_cons, more, decide_false, Bool.false_eq_true, if_false, joined]
      refine ((statementsFollow ends fuel).declaration inFunction (t :: rest)
        (by simp only [List.length_cons]; omega)).bind fun value left parsed => ?_
      cases parsed
      exact others later fuel _ (by omega)

/-- What becomes of a call does not depend on the fuel, if it suffices, nor on what comes after the
first end-of-file token. -/
theorem exists_answer (ends : e.kind = .eof) (inFunction : Bool) (ts : List Token) (call : Call) :
    ∃ a : Answer call.Value, a.left.length ≤ ts.length ∧ call.Leaves ts a ∧
      ∀ later fuel, ts.length * 8 + 8 < fuel →
        Follows e later inFunction ts (call.reads fuel) a := by
  cases call with
  | expression =>
    refine ⟨(Parse.expression ts).answer, Reply.length_left_le _, ?_, ?_⟩
    · intro value rest parsed
      exact Reply.shorter_of_parsed parsed
    · intro later fuel enough
      exact (expressionsFollow ends fuel).expression ts (by omega)
  | statement =>
    refine ⟨(Parse.statement inFunction ts).answer, Reply.length_left_le _, ?_, ?_⟩
    · intro value rest parsed
      exact Reply.shorter_of_parsed parsed
    · intro later fuel enough
      exact (statementsFollow ends fuel).statement inFunction ts (by omega)
  | declaration =>
    have shorter := (Parse.declaration inFunction ts).shorter
    refine ⟨(Parse.declaration inFunction ts).answer, ?_, shorter, ?_⟩
    · exact Nat.le_trans shorter (Nat.sub_le _ _)
    · intro later fuel enough
      exact (statementsFollow ends fuel).declaration inFunction ts (by omega)
  | program =>
    obtain ⟨stmts, reports, follows⟩ := program_ends ends inFunction ts
    refine ⟨(Answer.parsed stmts []).after reports, Nat.zero_le _, rfl, ?_⟩
    intro later fuel enough
    exact follows later fuel [] enough

end Reader

section Advance

variable {α : Type} {e : Token} {ts : List Token} {r : Reader}

theorem Answer.left_lt {a : Answer α}
    (shorter : ∀ value rest, a.outcome = .parsed value rest → rest.length < ts.length)
    (ok : (a.result e).isOk = true) : a.left.length < ts.length := by
  obtain ⟨outcome, reports⟩ := a
  cases outcome with
  | parsed value rest => exact shorter value rest rfl
  | unmet what rest => cases ok

theorem Call.Leaves.advances {call : Call} {a : Answer call.Value} (leaves : call.Leaves ts a)
    (first : firstEnd r.tokens = r.position + ts.length) (more : List Diagnostic) :
    call.Advances (a.result e) r (r.moved (r.position + (ts.length - a.left.length)) more) := by
  cases call with
  | expression | statement =>
    intro ok
    have less : a.left.length < ts.length := Answer.left_lt leaves ok
    show r.position < r.position + (ts.length - a.left.length)
    omega
  | declaration =>
    intro before
    have less : a.left.length ≤ ts.length - 1 := leaves
    show r.position < r.position + (ts.length - a.left.length)
    omega
  | program =>
    have none : a.left = [] := leaves
    show r.position + (ts.length - a.left.length) = firstEnd r.tokens
    rw [none, first]
    rfl

end Advance

namespace Call

theorem reads_steady (call : Call) (fuel : Nat) : Reader.Steady (call.reads fuel) := by
  cases call with
  | expression => exact Reader.expression_steady fuel
  | statement => exact Reader.statement_steady fuel
  | declaration => exact Reader.declaration_steady fuel
  | program => exact Reader.program_steady fuel []

theorem reported_of_givesUp {call : Call} {result : Except Refusal call.Value} {r r' : Reader}
    {fuel : Nat} {more : List Diagnostic} (gives : call.GivesUp result)
    (run : call.reads fuel r = some (result, r')) (reported : r'.reported = r.reported ++ more) :
    more ≠ [] := by
  cases call with
  | declaration =>
    cases (gives : result = .ok none)
    obtain ⟨more', some, reported'⟩ := Reader.reported_of_none run
    rwa [List.append_cancel_left (reported.symm.trans reported')]
  | _ => cases gives

end Call

namespace Reader

variable {tokens : List Token} {r : Reader}

theorem Along.firstEnd_lt (along : r.Along tokens) : firstEnd r.tokens < r.tokens.length := by
  obtain ⟨ts, e, later, ends, before, first⟩ := along.before
  have length := before.length
  omega

/-- With fuel for the tokens a call comes to an end, whatever follows the first end-of-file token. -/
theorem Along.reads (along : r.Along tokens) (call : Call) :
    ∃ result r', call.Advances result r r' ∧
      (∀ fuel, r.tokens.length * 8 + 9 ≤ fuel → call.reads fuel r = some (result, r')) ∧
      ∀ later fuel, r.tokens.length * 8 + 9 ≤ fuel →
        call.reads fuel (r.followedBy later) = some (result, r'.followedBy later) := by
  obtain ⟨ts, e, others, ends, before, first⟩ := along.before
  obtain ⟨a, le, leaves, follows⟩ := exists_answer ends (decide (r.depth ≠ 0)) ts call
  have length := before.length
  have depth : decide (r.depth ≠ 0) = true ↔ r.depth ≠ 0 := decide_eq_true_iff
  refine ⟨a.result e, _, leaves.advances first (a.reported.map (·.diagnostic e)), ?_, ?_⟩
  · intro fuel enough
    exact (follows others fuel (by omega)).stops le before depth
  · intro later fuel enough
    exact (follows later fuel (by omega)).stops le (before.followedBy first later) depth

theorem Along.ready (along : r.Along tokens) (outside : r.depth = 0) : r.Ready := by
  obtain ⟨ts, e, later, ends, before, first⟩ := along.before
  exact ⟨outside, ts, e, later, ends, before, first⟩

theorem ask_eq_reads (call : Call) (r : Reader) :
    ask call r = call.reads (r.tokens.length * 8 + 9) r := by
  cases call <;> rfl

/-- Outside of function bodies a call does what it does on the cursor over the tokens left. -/
theorem Along.cursor (along : r.Along tokens) (outside : r.depth = 0) {call : Call}
    {result : Except Refusal call.Value} {r' : Reader} {more : List Diagnostic}
    (asked : ask call r = some (result, r')) (reported : r'.reported = r.reported ++ more) :
    (Cursor.ofTokens r.ahead).ask call = ⟨result, more, Cursor.ofTokens r'.ahead⟩ := by
  obtain ⟨result', taken, more', asked', -, cursor⟩ := (along.ready outside).acts_anew call
  rw [asked] at asked'
  obtain ⟨rfl, rfl⟩ := Prod.mk.inj (Option.some.inj asked')
  obtain rfl : more' = more := List.append_cancel_left reported
  exact cursor

end Reader

/-- Every call ends, in bounds and with progress. From any place at or before the first end-of-file
token, with fuel for the tokens, an expression, a statement, a declaration and a program are read to
an end that more fuel does not change. The reader goes forward and stops at a token, at the latest at
the first end-of-file token, where a program always stops; nothing but a refused expression or
statement, or a declaration at the end, takes no token. What comes after the first end-of-file token
makes no difference. Outside of function bodies the cursor does the same. -/
theorem reading_ends_in_bounds (tokens : List Token) (r : Reader) (along : r.Along tokens)
    (call : Call) :
    ∃ result r' more,
      (∀ fuel, r.tokens.length * 8 + 9 ≤ fuel → call.reads fuel r = some (result, r')) ∧
      r'.tokens = r.tokens ∧ r'.reported = r.reported ++ more ∧
      r.position ≤ r'.position ∧ r'.position ≤ firstEnd r.tokens ∧
      firstEnd r.tokens < r.tokens.length ∧
      call.Advances result r r' ∧
      (∀ later fuel, r.tokens.length * 8 + 9 ≤ fuel →
        call.reads fuel (r.followedBy later) = some (result, r'.followedBy later)) ∧
      (r.depth = 0 →
        (Cursor.ofTokens r.ahead).ask call = ⟨result, more, Cursor.ofTokens r'.ahead⟩) := by
  obtain ⟨result, r', advances, reads, cut⟩ := along.reads call
  have asked := reads _ (Nat.le_refl _)
  obtain ⟨more, leads, -⟩ := call.reads_steady _ r result r' asked
  refine ⟨result, r', more, reads, leads.tokens, leads.reported, leads.forward,
    leads.within along.place, along.firstEnd_lt, advances, cut, ?_⟩
  intro outside
  rw [← Reader.ask_eq_reads] at asked
  exact along.cursor outside asked leads.reported

/-- An end-of-file token in the middle is where a declaration stops that begins at a stray token and is
given up, with two function bodies around it and a token after the end. -/
theorem reading_ends_in_bounds_stray :
    let tokens : List Token := [⟨.keyword .print, "print", 1⟩, ⟨.unexpected, "@", 1⟩,
      ⟨.eof, "", 1⟩, ⟨.symbol .semicolon, ";", 2⟩]
    let r : Reader := { Reader.ofTokens tokens with position := 1, depth := 2 }
    r.Along tokens ∧ ∃ result r',
      (∀ fuel, 49 ≤ fuel → Call.declaration.reads fuel r = some (result, r')) ∧
      r'.position = 2 := by
  intro tokens r
  have along : r.Along tokens := ⟨rfl, by decide⟩
  obtain ⟨result, r', more, reads, -, -, -, upTo, -, advances, -⟩ :=
    reading_ends_in_bounds tokens r along .declaration
  have last : firstEnd r.tokens = 2 := by decide
  have taken : 1 < r'.position := advances (by decide)
  rw [last] at upTo
  exact ⟨along, result, r', reads, by omega⟩

/-- Faults and diagnostics agree. From whatever state, over whatever tokens, a call that ends has added
to what was reported, and each addition is at a token between where the reader stood and where it
stands, by the token's line and its lexeme or the end. If the call is refused, the refusal is the
last addition and the reader stands at its token; and a declaration is given up only with an
addition. At or before the first end-of-file token every call ends, and outside of function bodies
the cursor gives the same result with the same additions. -/
theorem faults_match_reports (r : Reader) (call : Call) :
    (∀ fuel result r', call.reads fuel r = some (result, r') →
      ∃ more, r'.tokens = r.tokens ∧ r'.reported = r.reported ++ more ∧
        (∀ d ∈ more, ∃ i t, r.position ≤ i ∧ i ≤ r'.position ∧ r.tokens[i]? = some t ∧
          d.line = t.line ∧
          d.place = if t.kind = .eof then " at end" else " at '" ++ t.lexeme ++ "'") ∧
        (∀ why, result = .error why →
          more.getLast? = some (why.token.diagnostic (.expected why.what)) ∧
          r'.tokens[r'.position]? = some why.token) ∧
        (call.GivesUp result → more ≠ [])) ∧
    ∀ tokens, r.Along tokens → ∃ result r' more,
      Reader.ask call r = some (result, r') ∧ r'.reported = r.reported ++ more ∧
      (r.depth = 0 →
        (Cursor.ofTokens r.ahead).ask call = ⟨result, more, Cursor.ofTokens r'.ahead⟩) := by
  constructor
  · intro fuel result r' run
    obtain ⟨more, leads, stands⟩ := call.reads_steady fuel r result r' run
    refine ⟨more, leads.tokens, leads.reported, ?_, ?_, ?_⟩
    · intro d member
      obtain ⟨t, problem, ⟨i, from_, upTo, found⟩, rfl⟩ := leads.placed d member
      rw [leads.tokens] at found
      exact ⟨i, t, from_, upTo, found, rfl, rfl⟩
    · intro why refused
      exact (stands why refused).symm
    · intro gives
      exact Call.reported_of_givesUp gives run leads.reported
  · intro tokens along
    obtain ⟨result, r', -, reads, -⟩ := along.reads call
    have asked : Reader.ask call r = some (result, r') := by
      rw [Reader.ask_eq_reads]
      exact reads _ (Nat.le_refl _)
    obtain ⟨more, leads, -⟩ := call.reads_steady _ r result r' (reads _ (Nat.le_refl _))
    refine ⟨result, r', more, asked, leads.reported, ?_⟩
    intro outside
    exact along.cursor outside asked leads.reported

/-- The equals sign behind a constant is reported once its right side has been read, and then the end,
where the parenthesis is missing and the reader stands. -/
theorem faults_match_reports_open_group :
    let tokens : List Token := [⟨.symbol .leftParen, "(", 1⟩, ⟨.keyword .nil, "nil", 1⟩,
      ⟨.symbol .equal, "=", 1⟩, ⟨.identifier, "a", 2⟩]
    let r := Reader.ofTokens tokens
    let fault : Token := ⟨.eof, "", 2⟩
    r.Along tokens ∧ ∃ r',
      Reader.ask .expression r = some (.error ⟨fault, .parenAfterExpression⟩, r') ∧
      r'.tokens[r'.position]? = some fault ∧
      r'.reported.getLast? = some ⟨2, " at end", "Expect ')' after expression."⟩ := by
  intro tokens r fault
  have along : r.Along tokens := ⟨rfl, Nat.zero_le _⟩
  obtain ⟨adds, ends⟩ := faults_match_reports r .expression
  obtain ⟨result, r', -, asked, -⟩ := ends tokens along
  have refusal : (Reader.ask .expression r).bind (fun ended =>
      match ended.1 with
      | .error why => some why
      | .ok _ => none) = some ⟨fault, .parenAfterExpression⟩ := by decide +kernel
  rw [asked] at refusal
  cases result with
  | ok value => cases refusal
  | error why =>
    obtain rfl : why = ⟨fault, .parenAfterExpression⟩ := Option.some.inj refusal
    have run := asked
    rw [Reader.ask_eq_reads] at run
    obtain ⟨added, -, reported, -, refused, -⟩ := adds _ _ _ run
    obtain ⟨last, here⟩ := refused _ rfl
    refine ⟨along, r', asked, here, ?_⟩
    rw [reported, List.getLast?_append, last]
    decide

end Lox
