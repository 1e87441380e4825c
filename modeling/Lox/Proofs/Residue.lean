import Lox.Proofs.Recovery
import Mathlib.Order.Bounds.Defs

/- Calls on one reader, one after another. Whatever they gave, refused or recovered from, the next
   call finds only the tokens left: it does what it would do on a new reader of these tokens, and
   what the cursor over them does. -/
namespace Lox

/-- What is asked of a reader from outside. -/
inductive Call where
  | expression
  | statement
  | declaration
  | program

namespace Call

abbrev Value : Call → Type
  | .expression => Expr
  | .statement => Stmt
  | .declaration => Option Stmt
  | .program => List Stmt

def answer : (call : Call) → List Token → Answer call.Value
  | .expression, ts => (Parse.expression ts).answer
  | .statement, ts => (Parse.statement false ts).answer
  | .declaration, ts => (Parse.declaration false ts).answer
  | .program, ts => (Answer.parsed (Parse.program ts).1 []).after (Parse.program ts).2

end Call

def Cursor.ask (c : Cursor) : (call : Call) → Reading (Except Refusal call.Value)
  | .expression => c.expression
  | .statement => c.statement
  | .declaration => ⟨.ok c.declaration.result, c.declaration.diagnostics, c.declaration.cursor⟩
  | .program => ⟨.ok c.program.result, c.program.diagnostics, c.program.cursor⟩

def Cursor.after (c : Cursor) (calls : List Call) : Cursor :=
  calls.foldl (fun c call => (c.ask call).cursor) c

namespace Reader

def ample {α : Type} (x : Nat → Reads α) : Reads α := fun r => x (r.tokens.length * 8 + 9) r

def ask : (call : Call) → Reads call.Value
  | .expression => ample expression
  | .statement => ample statement
  | .declaration => ample declaration
  | .program => ample fun fuel => program fuel []

def after (r : Reader) : List Call → Option Reader
  | [] => some r
  | call :: calls => (ask call r).bind fun asked => asked.2.after calls

def ahead (r : Reader) : List Token := r.tokens.drop r.position

/-- A call does the same as on a new reader of the tokens left, and as on a cursor over them: it
gives the same result, takes as many tokens and reports the same beyond what was reported. -/
def ActsAnew (r : Reader) (call : Call) : Prop :=
  ∃ result taken more,
    ask call r = some (result, r.moved (r.position + taken) more) ∧
    ask call (ofTokens r.ahead) = some (result, (ofTokens r.ahead).moved taken more) ∧
    (Cursor.ofTokens r.ahead).ask call =
      ⟨result, more, Cursor.ofTokens (r.moved (r.position + taken) more).ahead⟩

/-- A statement may begin at `j`: after a semicolon, at a token that starts one, or at the first
end-of-file token. -/
def Boundary (tokens : List Token) (j : Nat) : Prop :=
  tokens[j - 1]?.any (·.kind = .symbol .semicolon) ∨
    tokens[j]?.any (·.kind.startsStatement) ∨ j = tokens.findIdx (·.kind = .eof)

/-- Reading that failed at `i` goes on at `j`. -/
def ResumesAt (tokens : List Token) (i j : Nat) : Prop :=
  if i = tokens.findIdx (·.kind = .eof) then j = i
  else IsLeast {j | i < j ∧ Boundary tokens j} j

/-- A declaration is a statement, with nothing else done; or it is refused at some token, which is
the last thing reported, and reading resumes at the next boundary. -/
def Recovers (r : Reader) : Prop :=
  match ample attempt r with
  | some (.ok s, r') => ask .declaration r = some (.ok (some s), r')
  | some (.error why, fault) =>
    fault.tokens[fault.position]? = some why.token ∧
    fault.reported.getLast? = some (why.token.diagnostic (.expected why.what)) ∧
    ∃ j, ask .declaration r = some (.ok none, fault.moved j []) ∧
      ResumesAt r.tokens fault.position j
  | none => False

/-- A program is nothing at the end, and else a declaration and then a program. -/
def declarations : Reads (List Stmt) := do
  if ← check .eof then return []
  else
    let value ← ask .declaration
    let stmts : List Stmt ← ask .program
    return value.toList ++ stmts

variable {α : Type} {e : Token} {later ts : List Token} {r : Reader}

theorem Before.length (before : r.Before ts e later) :
    r.position + ts.length + later.length + 1 = r.tokens.length := by
  have split := congrArg List.length before.split
  simp only [List.length_drop, List.length_append, List.length_cons] at split
  omega

theorem Before.end_eq {r' : Reader} {left : List Token} (before : r.Before ts e later)
    (before' : r'.Before left e later) (same : r'.tokens = r.tokens) :
    r'.position + left.length = r.position + ts.length := by
  have length := before.length
  have length' := before'.length
  rw [same] at length'
  omega

theorem Before.position_eq {position position' : Nat} {more more' : List Diagnostic}
    (before : (r.moved position more).Before ts e later)
    (before' : (r.moved position' more').Before ts e later) : position = position' :=
  Nat.add_right_cancel (before'.end_eq before rfl)

/-- Code that follows the same answer is the same. -/
theorem Follows.eq {x y : Reads α} {a : Answer α} (first : Follows e later false ts x a)
    (second : Follows e later false ts y a) (before : r.Before ts e later)
    (outside : r.depth = 0) : x r = y r := by
  obtain ⟨position, eq, left⟩ := first.reads r before (by simp [outside])
  obtain ⟨position', eq', left'⟩ := second.reads r before (by simp [outside])
  rw [eq, eq', left.position_eq left']

/-- A new reader stands before the first end-of-file token, its own if need be. -/
theorem ofTokens_before (tokens : List Token) (split : tokens = ts ++ e :: later)
    (plain : ∀ t ∈ ts, t.kind ≠ .eof) : ∃ later', (ofTokens tokens).Before ts e later' := by
  by_cases ended : tokens.getLast?.any (·.kind = .eof) = true
  · have kept : (ofTokens tokens).tokens = tokens := if_pos ended
    exact ⟨later, kept.trans split, plain⟩
  · have added : (ofTokens tokens).tokens = tokens ++ [endOf tokens] := if_neg ended
    refine ⟨later ++ [endOf tokens], ?_, plain⟩
    exact added.trans (by rw [split, List.append_assoc, List.cons_append])

section Ends

variable (ends : e.kind = .eof)
include ends

theorem Before.cursor (before : r.Before ts e later) : Cursor.ofTokens r.ahead = ⟨ts, e⟩ := by
  have plain : ∀ t ∈ ts, decide (t.kind ≠ .eof) = true := by simpa using before.plain
  rw [ahead, before.split, Cursor.ofTokens, List.dropWhile_append_of_pos plain,
    List.takeWhile_append_of_pos plain]
  simp [ends]

omit ends in
theorem ample_follows {x : Nat → Reads α} {a : Answer α}
    (follows : ∀ fuel, ts.length * 8 + 8 < fuel → Follows e later false ts (x fuel) a) :
    Follows e later false ts (ample x) a := by
  refine ⟨fun r before depth => ?_⟩
  have length := before.length
  exact (follows (r.tokens.length * 8 + 9) (by omega)).reads r before depth

theorem ask_follows (call : Call) : Follows e later false ts (ask call) (call.answer ts) := by
  cases call with
  | expression =>
    exact ample_follows fun fuel enough =>
      (expressionsFollow ends fuel).expression ts (by omega)
  | statement =>
    exact ample_follows fun fuel enough =>
      (statementsFollow ends fuel).statement false ts (by omega)
  | declaration =>
    exact ample_follows fun fuel enough =>
      (statementsFollow ends fuel).declaration false ts (by omega)
  | program => exact ample_follows fun fuel enough => program_follows ends [] ts enough

end Ends

end Reader

def Answer.reading {α : Type} (endToken : Token) (a : Answer α) : Reading (Except Refusal α) :=
  ⟨a.result endToken, a.reported.map (·.diagnostic endToken), ⟨a.left, endToken⟩⟩

namespace Cursor

variable {α : Type} {ts : List Token}

theorem ofReply_eq {consumes : Bool} (c : Cursor) (r : Reply consumes α ts) :
    c.ofReply r = r.answer.reading c.endToken := by
  obtain ⟨outcome, reports, within⟩ := r
  cases outcome <;> rfl

theorem reading_parsed (endToken : Token) (value : α) (rest : List Token) (reports : List Report) :
    ((Answer.parsed value rest).after reports).reading endToken =
      ⟨.ok value, reports.map (·.diagnostic endToken), ⟨rest, endToken⟩⟩ := by
  rw [Answer.reading, Answer.reported_after, Answer.result_after, Answer.left_after]
  simp [Answer.reported, Answer.result, Answer.left, Answer.parsed]

theorem ask_eq (call : Call) (ts : List Token) (endToken : Token) :
    Cursor.ask ⟨ts, endToken⟩ call = (call.answer ts).reading endToken := by
  cases call with
  | expression => exact ofReply_eq _ _
  | statement => exact ofReply_eq _ _
  | declaration => exact (reading_parsed ..).symm
  | program => exact (reading_parsed ..).symm

end Cursor

namespace Reader

variable {α : Type} {e : Token} {later ts : List Token} {r : Reader}

/-- The reader is in no function body, and at or before its first end-of-file token. -/
structure Ready (r : Reader) : Prop where
  outside : r.depth = 0
  stands : ∃ ts e later, e.kind = .eof ∧ r.Before ts e later ∧
    r.tokens.findIdx (·.kind = .eof) = r.position + ts.length

theorem findIdx_eof {tokens : List Token} (ends : e.kind = .eof)
    (split : tokens = ts ++ e :: later) (plain : ∀ t ∈ ts, t.kind ≠ .eof) :
    tokens.findIdx (·.kind = .eof) = ts.length := by
  have none : ts.findIdx (·.kind = .eof) = ts.length := by
    simpa [List.findIdx_eq_length] using plain
  rw [split, List.findIdx_append, none, if_neg (Nat.lt_irrefl _)]
  simp [List.findIdx_cons, ends]

theorem ofTokens_stands (tokens : List Token) :
    ∃ ts e later, e.kind = .eof ∧ (ofTokens tokens).Before ts e later ∧
      Cursor.ofTokens tokens = ⟨ts, e⟩ := by
  cases found : tokens.find? (·.kind = .eof) with
  | some e =>
    obtain ⟨eof, ts, rest, split, others⟩ := List.find?_eq_some_iff_append.mp found
    have ends : e.kind = .eof := of_decide_eq_true eof
    have plain : ∀ t ∈ ts, t.kind ≠ .eof := by simpa using others
    obtain ⟨later, before⟩ := ofTokens_before tokens split plain
    have cursor : Cursor.ofTokens tokens = ⟨ts, e⟩ :=
      Before.cursor ends (r := ⟨tokens, 0, 0, []⟩) ⟨split, plain⟩
    exact ⟨ts, e, later, ends, before, cursor⟩
  | none =>
    have plain : ∀ t ∈ tokens, t.kind ≠ .eof := by simpa using found
    have none : tokens.dropWhile (·.kind ≠ .eof) = [] := by
      rw [← List.append_nil tokens, List.dropWhile_append_of_pos (by simpa using plain)]
      rfl
    have unended : ¬ tokens.getLast?.any (·.kind = .eof) = true := by
      intro last
      obtain ⟨t, isLast, eof⟩ := (Option.any_eq_true _ _).mp last
      exact plain t (List.mem_of_getLast? isLast) (of_decide_eq_true eof)
    have added : (ofTokens tokens).tokens = tokens ++ [endOf tokens] := if_neg unended
    refine ⟨tokens, endOf tokens, [], rfl, ⟨added, plain⟩, ?_⟩
    rw [Cursor.ofTokens, none]
    rfl

theorem ready_ofTokens (tokens : List Token) : (ofTokens tokens).Ready := by
  obtain ⟨ts, e, later, ends, before, -⟩ := ofTokens_stands tokens
  refine ⟨rfl, ts, e, later, ends, before, ?_⟩
  exact (findIdx_eof ends before.split before.plain).trans (Nat.zero_add _).symm

theorem cursor_ofTokens (tokens : List Token) :
    Cursor.ofTokens (ofTokens tokens).ahead = Cursor.ofTokens tokens := by
  obtain ⟨ts, e, later, ends, before, cursor⟩ := ofTokens_stands tokens
  rw [before.cursor ends, cursor]

theorem Ready.acts_anew (ready : r.Ready) (call : Call) : r.ActsAnew call := by
  obtain ⟨outside, ts, e, later, ends, before, -⟩ := ready
  obtain ⟨later', fresh⟩ := ofTokens_before r.ahead before.split before.plain
  obtain ⟨position, eq, left⟩ := (ask_follows ends call).reads r before (by simp [outside])
  obtain ⟨taken, eq', left'⟩ := (ask_follows ends call).reads _ fresh (by simp [ofTokens])
  -- Both stop before the same tokens, so they have gone the same way.
  have moved : position = r.position + taken := by
    have place : position + _ = r.position + ts.length := before.end_eq left rfl
    have place' : taken + _ = 0 + ts.length := fresh.end_eq left' rfl
    omega
  subst moved
  refine ⟨_, taken, _, eq, eq', ?_⟩
  rw [before.cursor ends, Cursor.ask_eq, left.cursor ends]
  rfl

/-- A call, whatever it gives, leaves the reader ready for the next. -/
theorem Ready.step (ready : r.Ready) (call : Call) :
    ∃ result r', ask call r = some (result, r') ∧ r'.Ready ∧
      ((Cursor.ofTokens r.ahead).ask call).cursor = Cursor.ofTokens r'.ahead := by
  obtain ⟨outside, ts, e, later, ends, before, first⟩ := ready
  obtain ⟨position, eq, left⟩ := (ask_follows ends call).reads r before (by simp [outside])
  refine ⟨_, _, eq, ⟨outside, _, e, later, ends, left, ?_⟩, ?_⟩
  · exact first.trans (before.end_eq left rfl).symm
  · rw [before.cursor ends, Cursor.ask_eq, left.cursor ends]
    rfl

theorem Ready.run (ready : r.Ready) (calls : List Call) :
    ∃ r', r.after calls = some r' ∧ r'.Ready ∧
      (Cursor.ofTokens r.ahead).after calls = Cursor.ofTokens r'.ahead := by
  induction calls generalizing r with
  | nil => exact ⟨r, rfl, ready, rfl⟩
  | cons call calls ih =>
    obtain ⟨result, next, asked, ready', cursor⟩ := ready.step call
    obtain ⟨last, after, ready'', cursor'⟩ := ih ready'
    refine ⟨last, ?_, ready'', ?_⟩
    · rw [Reader.after, asked]
      exact after
    · rw [Cursor.after, List.foldl_cons, cursor]
      exact cursor'

section Boundaries

variable {tokens rest : List Token} {t : Token} {i j : Nat}

theorem getElem?_of_drop (split : tokens.drop i = t :: rest) : tokens[i]? = some t := by
  have first := congrArg (·[0]?) split
  simpa using first

theorem drop_succ_of_drop (split : tokens.drop i = t :: rest) : tokens.drop (i + 1) = rest := by
  rw [← List.drop_drop, split]
  rfl

theorem eq_of_drop (first : tokens.drop i = rest ++ e :: later)
    (second : tokens.drop j = rest ++ e :: later) : i = j := by
  have length := congrArg List.length first
  have length' := congrArg List.length second
  simp only [List.length_drop, List.length_append, List.length_cons] at length length'
  omega

theorem isLeast_succ (next : Boundary tokens (i + 1)) :
    IsLeast {j | i < j ∧ Boundary tokens j} (i + 1) :=
  ⟨⟨Nat.lt_succ_self i, next⟩, fun _ after => after.1⟩

/-- What recovery leaves begins at the least boundary after the token it starts from. -/
theorem isLeast_skip (fault : tokens.drop i = (t :: rest) ++ e :: later)
    (resumed : tokens.drop j = Parse.skipToBoundary (t :: rest) ++ e :: later)
    (first : tokens.findIdx (·.kind = .eof) = i + (t :: rest).length) :
    IsLeast {j | i < j ∧ Boundary tokens j} j := by
  -- Each token dropped without a stop rules out one place; the last one is followed by the end.
  induction rest generalizing i t with
  | nil =>
    have following : tokens.drop (i + 1) = [] ++ e :: later := drop_succ_of_drop fault
    rw [show Parse.skipToBoundary [t] = [] from ite_self _] at resumed
    rw [← eq_of_drop following resumed]
    exact isLeast_succ (.inr (.inr first.symm))
  | cons t' rest ih =>
    have here : tokens[i]? = some t := getElem?_of_drop fault
    have following : tokens.drop (i + 1) = (t' :: rest) ++ e :: later := drop_succ_of_drop fault
    have next : tokens[i + 1]? = some t' := getElem?_of_drop following
    have boundary : Boundary tokens (i + 1) ↔
        t.kind = .symbol .semicolon ∨ t'.kind.startsStatement = true := by
      simp [Boundary, here, next, first]
    rw [Parse.skipToBoundary] at resumed
    split at resumed
    · rename_i stops
      rw [← eq_of_drop following resumed]
      exact isLeast_succ (boundary.mpr (by simpa using stops))
    · rename_i goes
      have least := ih following resumed (by simp only [List.length_cons] at first ⊢; omega)
      refine ⟨⟨Nat.lt_of_succ_lt least.1.1, least.1.2⟩, ?_⟩
      rintro k ⟨past, stops⟩
      have beyond : i + 1 ≠ k := by
        rintro rfl
        exact goes (by simpa using boundary.mp stops)
      exact least.2 ⟨by omega, stops⟩

end Boundaries

theorem resumesAt_skip {tokens rest : List Token} {i j : Nat}
    (fault : tokens.drop i = rest ++ e :: later)
    (resumed : tokens.drop j = Parse.skipToBoundary rest ++ e :: later)
    (first : tokens.findIdx (·.kind = .eof) = i + rest.length) : ResumesAt tokens i j := by
  rw [ResumesAt, first]
  cases rest with
  | nil =>
    rw [List.length_nil, Nat.add_zero, if_pos rfl]
    exact eq_of_drop resumed fault
  | cons t rest =>
    rw [if_neg (by simp)]
    exact isLeast_skip fault resumed first

theorem Ready.recovers (ready : r.Ready) : r.Recovers := by
  obtain ⟨outside, ts, e, later, ends, before, first⟩ := ready
  have depth : false = true ↔ r.depth ≠ 0 := by simp [outside]
  have attempted : Follows e later false ts (ample attempt) (Parse.attempt false ts) :=
    ample_follows fun fuel enough => (statementsFollow ends fuel).attempt false ts (by omega)
  obtain ⟨i, tried, fault⟩ := attempted.reads r before depth
  obtain ⟨j, declared, resumed⟩ := (ask_follows ends .declaration).reads r before depth
  rw [Call.answer, Parse.answer_declaration] at declared resumed
  rw [Recovers, tried]
  generalize Parse.attempt false ts = a at fault declared resumed ⊢
  obtain ⟨outcome, reports⟩ := a
  cases outcome with
  | parsed s rest =>
    rw [Parse.settle_parsed] at declared resumed
    have same : i = j := Before.position_eq fault resumed
    rw [declared, ← same]
    rfl
  | unmet what rest =>
    rw [Parse.settle_unmet] at declared resumed
    have same : (rest.headD e).diagnostic (.expected what) =
        Report.diagnostic e ⟨rest.head?, .expected what⟩ :=
      diagnostic_head ends fault.plain (.expected what)
    refine ⟨fault.peek, ?_, j, ?_, ?_⟩
    · rw [same]
      simp [moved, Answer.reported]
    · rw [declared, moved_moved]
      simp [Answer.reported, Answer.result]
    · exact resumesAt_skip fault.split resumed.split (first.trans (before.end_eq fault rfl).symm)

theorem declarations_follow (ends : e.kind = .eof) :
    Follows e later false ts declarations (Call.program.answer ts) := by
  rw [declarations]
  refine .of_plain fun plain => .checked ?_
  cases ts with
  | nil =>
    rw [Call.answer, Parse.program]
    simp only [List.headD_nil, ends, decide_true, if_true]
    exact .pure []
  | cons t rest =>
    have more : t.kind ≠ .eof := plain t List.mem_cons_self
    have program := Parse.answer_program_cons [] t rest
    simp only [List.nil_append] at program
    simp only [List.headD_cons, more, decide_false, Bool.false_eq_true, if_false]
    rw [Call.answer, program]
    refine (ask_follows ends .declaration).bind fun value left _ => ?_
    have stmts : Follows e later false left _ _ :=
      (ask_follows ends .program).map (f := (Option.toList value ++ ·))
    rw [Call.answer, Answer.after_map, Answer.parsed_map] at stmts
    exact stmts

theorem Ready.program (ready : r.Ready) : ask .program r = declarations r := by
  obtain ⟨outside, ts, e, later, ends, before, -⟩ := ready
  exact (ask_follows ends .program).eq (declarations_follow ends) before outside

end Reader

/-- Recovery leaves no residue. After any calls, with any results, the reader is in no function body
and every further call acts as on a new reader of the tokens left; a declaration that fails resumes
at the next boundary, and a program is a declaration and then a program. -/
theorem recovery_leaves_no_residue (tokens : List Token) (calls : List Call) :
    ∃ r, (Reader.ofTokens tokens).after calls = some r ∧
      (Cursor.ofTokens tokens).after calls = Cursor.ofTokens r.ahead ∧ r.depth = 0 ∧
      (∀ call, r.ActsAnew call) ∧ r.Recovers ∧ Reader.ask .program r = Reader.declarations r := by
  obtain ⟨r, after, ready, cursor⟩ := (Reader.ready_ofTokens tokens).run calls
  rw [Reader.cursor_ofTokens] at cursor
  exact ⟨r, after, cursor, ready.outside, ready.acts_anew, ready.recovers, ready.program⟩

end Lox
