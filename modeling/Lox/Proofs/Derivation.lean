import Lox.Proofs.Grammar

/- The parser of expressions against their grammar. What it reads is derivable, with the tree and the
   reports of that derivation; what is derivable it reads, as long as nothing follows that could
   make the expression longer. -/
namespace Lox

theorem answer_expect_eq_parsed_iff {what : Expectation} {ts rest : List Token} {t : Token}
    {made : List Report} :
    (expect what ts).answer = (Answer.parsed t rest).after made ↔
      ts = t :: rest ∧ some t.kind = what.kind? ∧ made = [] := by
  cases ts with
  | nil => simp
  | cons t' rest' =>
    rw [answer_expect_cons]
    split
    · rename_i meets
      rw [Answer.parsed_eq_parsed_iff]
      constructor
      · rintro ⟨rfl, rfl, rfl⟩
        exact ⟨rfl, meets, rfl⟩
      · rintro ⟨same, -, rfl⟩
        obtain ⟨rfl, rfl⟩ := List.cons.inj same
        exact ⟨rfl, rfl, rfl⟩
    · rename_i fails
      rw [Answer.unmet_ne_parsed]
      constructor
      · exact False.elim
      · rintro ⟨same, meets, -⟩
        obtain ⟨rfl, rfl⟩ := List.cons.inj same
        exact fails meets

namespace Grammar

theorem constant_eq_some_iff {k : Kind} {value : Literal} :
    Parse.constant? k = some value ↔ Constant k value := by
  constructor
  · intro eq
    unfold Parse.constant? at eq
    split at eq <;> simp only [Option.some.injEq, reduceCtorEq] at eq <;> subst eq <;> constructor
  · rintro (_ | _ | _ | _ | _) <;> rfl

@[simp] theorem reports_nil : reports [] = [] := rfl

@[simp] theorem reports_append (xs ys : List Place) :
    reports (xs ++ ys) = reports xs ++ reports ys := List.filterMap_append

theorem reports_cons (x : Place) (xs : List Place) :
    reports (x :: xs) = x.report?.toList ++ reports xs := by
  unfold reports
  cases eq : x.report? <;> simp [eq]

def startsAtom : Kind → Bool
  | .identifier | .number _ | .string _ | .symbol .leftParen => true
  | .keyword .nil | .keyword .true_ | .keyword .false_ => true
  | _ => false

def starts (l : Level) (k : Kind) : Bool :=
  match l with
  | .call | .primary => startsAtom k
  | _ => startsAtom k || k == .symbol .bang || k == .symbol .minus

theorem starts_of_startsAtom {k : Kind} (atom : startsAtom k = true) (l : Level) :
    starts l k = true := by
  cases l <;> simp [starts, atom]

theorem Derives.head {l : Level} {ts rest : List Token} {p : Phrase} (d : Derives l ts p rest) :
    ∃ t ts', ts = t :: ts' ∧ starts l t.kind = true := by
  induction d using @Derives.rec _ fun _ _ _ _ => True with
  | @constant t value rest stands =>
    refine ⟨t, rest, rfl, ?_⟩
    generalize t.kind = k at stands
    cases stands <;> rfl
  | @name t rest identifier => exact ⟨t, rest, rfl, by rw [identifier]; rfl⟩
  | @group open_ close ts rest inner opens => exact ⟨open_, ts, rfl, by rw [opens]; rfl⟩
  | primary _ ih => exact ih
  | callNone _ _ _ ih => exact ih
  | callSome _ _ _ _ ih => exact ih
  | call _ ih =>
    obtain ⟨t, ts', rfl, atom⟩ := ih
    exact ⟨t, ts', rfl, starts_of_startsAtom atom _⟩
  | @unary op ts rest operand sign =>
    refine ⟨op, ts, rfl, ?_⟩
    rcases sign with bang | minus
    · rw [bang]; rfl
    · rw [minus]; rfl
  | @operand l ts rest p _ ih =>
    obtain ⟨t, ts', rfl, start⟩ := ih
    refine ⟨t, ts', rfl, ?_⟩
    cases l <;> exact start
  | binary _ _ _ ih => exact ih
  | operation _ ih => exact ih
  | assign _ _ _ ih => exact ih
  | last => trivial
  | more => trivial

theorem DerivesArguments.head {ts rest : List Token} {args : Arguments}
    (d : DerivesArguments ts args rest) :
    ∃ t ts', ts = t :: ts' ∧ starts .assignment t.kind = true := by
  cases d with
  | last only => exact only.head
  | more first => exact first.head

/-- Whatever the answer parsed is derivable at the level, with the same tree and reports. -/
def Reads (l : Level) (ts : List Token) (a : Answer Expr) : Prop :=
  ∀ {value rest made}, a = (Answer.parsed value rest).after made →
    ∃ p, Derives l ts p rest ∧ p.expr = value ∧ reports p.places = made

theorem primary_reads {ts : List Token}
    (inner : ∀ rest : List Token, rest.length < ts.length →
      Reads .assignment rest (Parse.expression rest).answer) :
    Reads .primary ts (Parse.primary ts).answer := by
  intro value rest made eq
  cases ts with
  | nil => simp [Parse.answer_primary_nil] at eq
  | cons t ts =>
    rw [Parse.answer_primary_cons] at eq
    split at eq
    · rename_i l constant
      obtain ⟨rfl, rfl, rfl⟩ := Answer.parsed_eq_parsed_iff.mp eq
      exact ⟨.constant l, .constant (constant_eq_some_iff.mp constant), rfl, rfl⟩
    · split at eq
      · rename_i identifier
        obtain ⟨rfl, rfl, rfl⟩ := Answer.parsed_eq_parsed_iff.mp eq
        exact ⟨.name t, .name identifier, rfl, rfl⟩
      · split at eq
        · rename_i opens
          obtain ⟨e, left, made₁, made₂, first, second, rfl⟩ := Answer.bind_eq_parsed_iff.mp eq
          obtain ⟨p, derives, rfl, rfl⟩ := inner ts (Nat.lt_succ_self _) first
          obtain ⟨close, closed, rfl⟩ := Answer.map_eq_parsed_iff.mp second
          obtain ⟨rfl, closes, rfl⟩ := answer_expect_eq_parsed_iff.mp closed
          exact ⟨.group p, .group opens derives (Option.some.inj closes), rfl, by simp [Phrase.places]⟩
        · simp at eq

theorem countReports_cons (rule : Violation) (count : Nat) (t : Token) (ts : List Token) :
    Parse.countReports rule count (t :: ts) =
      if count < 255 then [] else [⟨some t, .violated rule⟩] := by
  unfold Parse.countReports
  by_cases within : count < 255
  · have few : ¬ maxArguments ≤ count := Nat.not_le_of_lt within
    simp [within, few]
  · have many : maxArguments ≤ count := Nat.le_of_not_lt within
    simp [within, many]

theorem countReports_argument (count : Nat) (t : Token) (ts : List Token) :
    Parse.countReports .tooManyArguments count (t :: ts) =
      (Place.argument count t).report?.toList := by
  rw [countReports_cons, Place.report?]
  split
  · rfl
  · rfl

theorem entries_eq_parsed {α : Type} {later : List Token → Answer (List α)} {first : α}
    {ts rest : List Token} {values : List α} {made : List Report}
    (eq : Parse.entries later first ts = (Answer.parsed values rest).after made) :
    (ts = rest ∧ values = [first] ∧ made = []) ∨
      ∃ comma ts' others, ts = comma :: ts' ∧ comma.kind = .symbol .comma ∧
        later ts' = (Answer.parsed others rest).after made ∧ values = first :: others := by
  cases ts with
  | nil =>
    obtain ⟨rfl, rfl, rfl⟩ := Answer.parsed_eq_parsed_iff.mp eq
    exact .inl ⟨rfl, rfl, rfl⟩
  | cons t ts =>
    simp only [Parse.entries] at eq
    split at eq
    · rename_i comma
      obtain ⟨others, found, rfl⟩ := Answer.map_eq_parsed_iff.mp eq
      exact .inr ⟨t, ts, others, rfl, comma, found, rfl⟩
    · obtain ⟨rfl, rfl, rfl⟩ := Answer.parsed_eq_parsed_iff.mp eq
      exact .inl ⟨rfl, rfl, rfl⟩

theorem argumentList_reads {ts : List Token}
    (inner : ∀ rest : List Token, rest.length ≤ ts.length →
      Reads .assignment rest (Parse.expression rest).answer)
    {count : Nat} {values : List Expr} {rest : List Token} {made : List Report}
    (eq : (Parse.argumentList count ts).answer = (Answer.parsed values rest).after made) :
    ∃ args, DerivesArguments ts args rest ∧ args.exprs = values ∧
      reports (args.places count) = made := by
  induction ts using shorterInduction generalizing count values made with
  | step ts ih =>
    rw [Parse.answer_argumentList] at eq
    obtain ⟨inside, found, rfl⟩ := Answer.after_eq_parsed_iff.mp eq
    obtain ⟨e, left, made₁, made₂, first, second, rfl⟩ := Answer.bind_eq_parsed_iff.mp found
    have shorter := Reply.shorter_of_parsed (congrArg Answer.outcome first)
    obtain ⟨p, derives, rfl, rfl⟩ := inner ts (Nat.le_refl _) first
    obtain ⟨t, ts', rfl, -⟩ := derives.head
    rw [countReports_argument]
    rcases entries_eq_parsed second with ⟨rfl, rfl, rfl⟩ | ⟨comma, ts₁, others, rfl, sep, tail, rfl⟩
    · refine ⟨.more t p .none, .last derives, rfl, ?_⟩
      simp [Arguments.places, reports_cons]
    · have less : ts₁.length < (t :: ts').length := Nat.lt_of_succ_lt shorter
      obtain ⟨args, derives', rfl, rfl⟩ :=
        ih ts₁ less (fun last le => inner last (Nat.le_trans le (Nat.le_of_lt less))) tail
      refine ⟨.more t p args, .more derives sep derives', rfl, ?_⟩
      simp [Arguments.places, reports_cons]

theorem calls_reads {start ts : List Token}
    (inner : ∀ rest : List Token, rest.length < ts.length →
      Reads .assignment rest (Parse.expression rest).answer)
    {callee : Phrase} (derives : Derives .call start callee ts) {value : Expr} {rest : List Token}
    {made : List Report}
    (eq : (Parse.calls callee.expr ts).answer = (Answer.parsed value rest).after made) :
    ∃ p, Derives .call start p rest ∧ p.expr = value ∧
      reports p.places = reports callee.places ++ made := by
  induction ts using shorterInduction generalizing callee made with
  | step ts ih =>
    cases ts with
    | nil =>
      rw [Parse.answer_calls_nil] at eq
      obtain ⟨rfl, rfl, rfl⟩ := Answer.parsed_eq_parsed_iff.mp eq
      exact ⟨callee, derives, rfl, by simp⟩
    | cons t ts =>
      rw [Parse.answer_calls_cons] at eq
      split at eq
      · rename_i opens
        obtain ⟨args, left, made₁, made₂, first, second, rfl⟩ := Answer.bind_eq_parsed_iff.mp eq
        obtain ⟨paren, left', made₂, made₃, closed, third, rfl⟩ :=
          Answer.bind_eq_parsed_iff.mp second
        have shorter : left'.length < (t :: ts).length := by
          have h₁ := (Reply.leaves_of_parsed (congrArg Answer.outcome first)).length_le
          have h₂ := Reply.shorter_of_parsed (congrArg Answer.outcome closed)
          simp only [List.length_cons]
          omega
        obtain ⟨rfl, closes, rfl⟩ := answer_expect_eq_parsed_iff.mp closed
        have closes := Option.some.inj closes
        obtain ⟨inside, derives', rfl, rfl⟩ : ∃ inside,
            Derives .call start (.call callee inside paren) left' ∧ inside.exprs = args ∧
              reports (inside.places 0) = made₁ := by
          rw [Parse.answer_arguments] at first
          split at first
          · obtain ⟨rfl, same, rfl⟩ := Answer.parsed_eq_parsed_iff.mp first
            subst same
            exact ⟨.none, .callNone derives opens closes, rfl, rfl⟩
          · obtain ⟨inside, derives', rfl, rfl⟩ :=
              argumentList_reads (fun last le => inner last (Nat.lt_succ_of_le le)) first
            exact ⟨inside, .callSome derives opens derives' closes, rfl, rfl⟩
        obtain ⟨p, derives'', rfl, total⟩ :=
          ih left' shorter (fun last less => inner last (Nat.lt_trans less shorter)) derives' third
        refine ⟨p, derives'', rfl, ?_⟩
        rw [total]
        simp [Phrase.places]
      · obtain ⟨rfl, rfl, rfl⟩ := Answer.parsed_eq_parsed_iff.mp eq
        exact ⟨callee, derives, rfl, by simp⟩

theorem call_reads {ts : List Token}
    (inner : ∀ rest : List Token, rest.length < ts.length →
      Reads .assignment rest (Parse.expression rest).answer) :
    Reads .call ts (Parse.call ts).answer := by
  intro value rest made eq
  rw [Parse.answer_call] at eq
  obtain ⟨e, left, made₁, made₂, first, second, rfl⟩ := Answer.bind_eq_parsed_iff.mp eq
  have shorter := Reply.shorter_of_parsed (congrArg Answer.outcome first)
  obtain ⟨callee, derives, rfl, rfl⟩ := primary_reads inner first
  exact calls_reads (fun last less => inner last (Nat.lt_trans less shorter)) (.primary derives)
    second

theorem unary_reads {ts : List Token}
    (inner : ∀ rest : List Token, rest.length < ts.length →
      Reads .assignment rest (Parse.expression rest).answer) :
    Reads .unary ts (Parse.unary ts).answer := by
  induction ts with
  | nil =>
    intro value rest made eq
    rw [Parse.answer_unary_nil] at eq
    obtain ⟨p, derives, rfl, rfl⟩ := call_reads inner eq
    exact ⟨p, .call derives, rfl, rfl⟩
  | cons op ts ih =>
    intro value rest made eq
    rw [Parse.answer_unary_cons] at eq
    split at eq
    · rename_i sign
      obtain ⟨e, found, rfl⟩ := Answer.map_eq_parsed_iff.mp eq
      obtain ⟨p, derives, rfl, rfl⟩ := ih (fun last less => inner last (Nat.lt_succ_of_lt less)) found
      exact ⟨.unary op p, .unary sign derives, rfl, by simp [Phrase.places]⟩
    · obtain ⟨p, derives, rfl, rfl⟩ := call_reads inner eq
      exact ⟨p, .call derives, rfl, rfl⟩

theorem operandLevel_of_tighter {l tighter : Layer} (next : l.tighter? = some tighter) :
    operandLevel l = .layer tighter := by
  cases l <;> cases next <;> rfl

theorem expr_binary (left right : Phrase) (op : Token) :
    (Phrase.binary left op right).expr = Parse.combine left.expr op right.expr := by
  rw [Phrase.expr]
  unfold Parse.combine Kind.layer?
  split <;> split <;> simp_all

theorem layerRest_reads {l : Layer} {start ts : List Token}
    (operands : ∀ rest : List Token, rest.length < ts.length →
      Reads (operandLevel l) rest (Layered.operand l rest).answer)
    {left : Phrase} (derives : Derives (.layer l) start left ts) {value : Expr} {rest : List Token}
    {made : List Report}
    (eq : (Layered.layerRest l left.expr ts).answer = (Answer.parsed value rest).after made) :
    ∃ p, Derives (.layer l) start p rest ∧ p.expr = value ∧
      reports p.places = reports left.places ++ made := by
  induction ts using shorterInduction generalizing left made with
  | step ts ih =>
    cases ts with
    | nil =>
      rw [Layered.answer_layerRest_nil] at eq
      obtain ⟨rfl, rfl, rfl⟩ := Answer.parsed_eq_parsed_iff.mp eq
      exact ⟨left, derives, rfl, by simp⟩
    | cons op ts =>
      rw [Layered.answer_layerRest_cons] at eq
      split at eq
      · rename_i belongs
        obtain ⟨e, left', made₁, made₂, first, second, rfl⟩ := Answer.bind_eq_parsed_iff.mp eq
        have shorter := Nat.lt_succ_of_lt (Reply.shorter_of_parsed (congrArg Answer.outcome first))
        obtain ⟨right, derives', rfl, rfl⟩ := operands ts (Nat.lt_succ_self _) first
        rw [← expr_binary] at second
        obtain ⟨p, derives'', rfl, total⟩ := ih left' shorter
          (fun last less => operands last (Nat.lt_trans less shorter))
          (.binary derives belongs derives') second
        refine ⟨p, derives'', rfl, ?_⟩
        rw [total]
        simp [Phrase.places]
      · obtain ⟨rfl, rfl, rfl⟩ := Answer.parsed_eq_parsed_iff.mp eq
        exact ⟨left, derives, rfl, by simp⟩

theorem layer_reads {l : Layer} {ts : List Token}
    (operands : ∀ rest : List Token, rest.length ≤ ts.length →
      Reads (operandLevel l) rest (Layered.operand l rest).answer) :
    Reads (.layer l) ts (Layered.layer l ts).answer := by
  intro value rest made eq
  rw [Layered.answer_layer] at eq
  obtain ⟨e, left, made₁, made₂, first, second, rfl⟩ := Answer.bind_eq_parsed_iff.mp eq
  have shorter := Reply.shorter_of_parsed (congrArg Answer.outcome first)
  obtain ⟨p, derives, rfl, rfl⟩ := operands ts (Nat.le_refl _) first
  exact layerRest_reads
    (fun last less => operands last (Nat.le_of_lt (Nat.lt_trans less shorter))) (.operand derives)
    second

theorem operand_reads {ts : List Token}
    (inner : ∀ rest : List Token, rest.length < ts.length →
      Reads .assignment rest (Parse.expression rest).answer) (l : Layer) :
    Reads (operandLevel l) ts (Layered.operand l ts).answer := by
  induction l using Layer.outwards generalizing ts with
  | tightest =>
    rw [Layered.operand_factor_eq]
    exact unary_reads inner
  | next one ih =>
    rw [operandLevel_of_tighter one, Layered.operand_of_tighter one]
    exact layer_reads fun rest le => ih fun last less => inner last (Nat.lt_of_lt_of_le less le)

/-- Only the loosest level has assignments outside of parentheses. -/
theorem Derives.ne_assign {l : Level} {ts rest : List Token} {p : Phrase} (d : Derives l ts p rest)
    (inner : l ≠ .assignment) (target : Phrase) (equals : Token) (value : Phrase) :
    p ≠ .assign target equals value := by
  induction d using @Derives.rec _ fun _ _ _ _ => True with
  | primary _ ih => exact ih nofun
  | call _ ih => exact ih nofun
  | @operand l _ _ _ _ ih => exact ih (by cases l <;> nofun)
  | operation => exact absurd rfl inner
  | assign => exact absurd rfl inner
  | last => trivial
  | more => trivial
  | _ => nofun

theorem Derives.eq_name {l : Layer} {ts rest : List Token} {p : Phrase} {token : Token}
    (d : Derives (.layer l) ts p rest) (eq : p.expr = .reference token) : p = .name token := by
  cases p with
  | name => cases eq; rfl
  | binary left op right =>
    rw [expr_binary] at eq
    unfold Parse.combine at eq
    split at eq <;> cases eq
  | assign target equals value => exact absurd rfl (d.ne_assign nofun target equals value)
  | _ => cases eq

theorem assignTo_expr {l : Layer} {ts rest : List Token} {target : Phrase}
    (d : Derives (.layer l) ts target rest) (equals : Token) (value : Phrase) :
    Parse.assignTo target.expr equals value.expr =
      ((Phrase.assign target equals value).expr, reports [.assignment target equals]) := by
  by_cases named : ∃ token, target = .name token
  · obtain ⟨token, rfl⟩ := named
    rfl
  · have other : ∀ token, target.expr ≠ .reference token := fun token eq => named ⟨token, d.eq_name eq⟩
    have offends : (Place.assignment target equals).report? =
        some ⟨some equals, .violated .assignmentTarget⟩ := by
      cases target with
      | name token => exact absurd ⟨token, rfl⟩ named
      | _ => rfl
    have alone : (Phrase.assign target equals value).expr = target.expr := by
      cases target with
      | name token => exact absurd ⟨token, rfl⟩ named
      | _ => rfl
    rw [alone, reports_cons, offends]
    unfold Parse.assignTo
    split
    · rename_i token eq
      exact absurd eq (other token)
    · rfl

/-- What is read as an expression is one, with the tree and the reports of a derivation. -/
theorem expression_reads (ts : List Token) :
    Reads .assignment ts (Parse.expression ts).answer := by
  induction ts using shorterInduction with
  | step ts ih =>
    intro value rest made eq
    rw [Parse.answer_expression, ← Layered.layer_or] at eq
    obtain ⟨e, left, made₁, made₂, first, second, rfl⟩ := Answer.bind_eq_parsed_iff.mp eq
    have shorter := Reply.shorter_of_parsed (congrArg Answer.outcome first)
    have operands : ∀ rest : List Token, rest.length ≤ ts.length →
        Reads (operandLevel .or) rest (Layered.operand .or rest).answer :=
      fun rest le => operand_reads (fun last less => ih last (Nat.lt_of_lt_of_le less le)) .or
    obtain ⟨target, derives, rfl, rfl⟩ := layer_reads operands first
    cases left with
    | nil =>
      obtain ⟨rfl, rfl, rfl⟩ := Answer.parsed_eq_parsed_iff.mp second
      exact ⟨target, .operation derives, rfl, by simp⟩
    | cons t left =>
      simp only [Parse.assignment] at second
      split at second
      · rename_i sign
        obtain ⟨v, left', made₂, made₃, third, last, rfl⟩ := Answer.bind_eq_parsed_iff.mp second
        obtain ⟨later, plain, rfl⟩ := Answer.after_eq_parsed_iff.mp last
        obtain ⟨rfl, rfl, rfl⟩ := Answer.parsed_eq_parsed_iff.mp plain
        obtain ⟨p, derives', rfl, rfl⟩ := ih left (Nat.lt_of_succ_lt shorter) third
        rw [assignTo_expr derives]
        exact ⟨.assign target t p, .assign derives sign derives', rfl, by simp [Phrase.places]⟩
      · obtain ⟨rfl, rfl, rfl⟩ := Answer.parsed_eq_parsed_iff.mp second
        exact ⟨target, .operation derives, rfl, by simp⟩

def Ends (l : Level) (rest : List Token) : Prop :=
  ∀ t ∈ rest.head?,
    match l with
    | .assignment =>
      t.kind ≠ .symbol .leftParen ∧ t.kind.layer? = none ∧ t.kind ≠ .symbol .equal
    | .layer l =>
      t.kind ≠ .symbol .leftParen ∧ ∀ other, t.kind.layer? = some other → other.power ≤ l.power
    | .unary => t.kind ≠ .symbol .leftParen
    | .call | .primary => True

/-- What the parser makes of a derivation. At the levels with a loop, the loop goes on with it. -/
def Completes (l : Level) (ts : List Token) (p : Phrase) (rest : List Token) : Prop :=
  match l with
  | .assignment => Ends .assignment rest →
    (Parse.expression ts).answer = (Answer.parsed p.expr rest).after (reports p.places)
  | .layer l => Ends (.layer l) rest →
    (Layered.layer l ts).answer = (Layered.layerRest l p.expr rest).answer.after (reports p.places)
  | .unary => Ends .unary rest →
    (Parse.unary ts).answer = (Answer.parsed p.expr rest).after (reports p.places)
  | .call => (Parse.call ts).answer = (Parse.calls p.expr rest).answer.after (reports p.places)
  | .primary => (Parse.primary ts).answer = (Answer.parsed p.expr rest).after (reports p.places)

theorem answer_expect_of_kind {what : Expectation} {t : Token} {k : Kind} (kind : t.kind = k)
    (rest : List Token) (meets : some k = what.kind? := by rfl) :
    (expect what (t :: rest)).answer = .parsed t rest := by
  rw [answer_expect_cons, kind, if_pos meets]

theorem calls_eq_parsed {rest : List Token} (ends : Ends .unary rest) (callee : Expr) :
    (Parse.calls callee rest).answer = .parsed callee rest := by
  cases rest with
  | nil => exact Parse.answer_calls_nil callee
  | cons t rest => rw [Parse.answer_calls_cons, if_neg (ends t rfl)]

theorem layerRest_eq_parsed {l : Layer} {rest : List Token}
    (ends : ∀ t ∈ rest.head?, t.kind.layer? ≠ some l) (left : Expr) :
    (Layered.layerRest l left rest).answer = .parsed left rest := by
  cases rest with
  | nil => exact Layered.answer_layerRest_nil l left
  | cons t rest => rw [Layered.answer_layerRest_cons, if_neg (ends t rfl)]

theorem unary_completes {ts rest : List Token} {p : Phrase} (d : Derives .call ts p rest)
    (call : Completes .call ts p rest) : Completes .unary ts p rest := by
  intro ends
  obtain ⟨t, ts', rfl, atom⟩ := d.head
  have noSign : ¬ (t.kind = .symbol .bang ∨ t.kind = .symbol .minus) := by
    rintro (bang | minus)
    · rw [bang] at atom; cases atom
    · rw [minus] at atom; cases atom
  rw [Parse.answer_unary_cons, if_neg noSign]
  exact call.trans (by rw [calls_eq_parsed ends])

theorem operand_completes {l : Layer} {ts rest : List Token} {p : Phrase}
    (completes : Completes (operandLevel l) ts p rest) (ends : Ends (.layer l) rest) :
    (Layered.operand l ts).answer = (Answer.parsed p.expr rest).after (reports p.places) := by
  cases next : l.tighter? with
  | none =>
    cases l <;> cases next
    rw [Layered.operand_factor_eq]
    exact completes fun t head => (ends t head).1
  | some tighter =>
    have less : l.power < tighter.power := by cases l <;> cases next <;> decide
    rw [operandLevel_of_tighter next] at completes
    rw [Layered.operand_of_tighter next, completes, layerRest_eq_parsed]
    · intro t head belongs
      have le := (ends t head).2 tighter belongs
      omega
    · intro t head
      exact ⟨(ends t head).1, fun other belongs =>
        Nat.le_trans ((ends t head).2 other belongs) (Nat.le_of_lt less)⟩

theorem ends_operator {l : Layer} {op : Token} (belongs : op.kind.layer? = some l)
    (rest : List Token) : Ends (.layer l) (op :: rest) := by
  rintro t ⟨⟩
  constructor
  · intro paren
    rw [paren] at belongs
    cases belongs
  · intro other same
    rw [belongs] at same
    cases same
    exact Nat.le_refl _

def closesPhrase : Kind → Bool
  | .symbol .semicolon | .symbol .rightParen | .symbol .comma => true
  | _ => false

theorem ends_of_closes {t : Token} (closes : closesPhrase t.kind = true) (rest : List Token) :
    Ends .assignment (t :: rest) := by
  rintro t' ⟨⟩
  unfold closesPhrase at closes
  split at closes <;> simp_all [Kind.layer?]

theorem ends_layer {rest : List Token} (ends : Ends .assignment rest) : Ends (.layer .or) rest := by
  intro t head
  obtain ⟨paren, none, -⟩ := ends t head
  exact ⟨paren, fun other belongs => by rw [none] at belongs; cases belongs⟩

theorem argumentList_eq {count : Nat} {t : Token} {ts rest : List Token} {p : Phrase}
    (first : (Parse.expression (t :: ts)).answer =
      (Answer.parsed p.expr rest).after (reports p.places)) :
    (Parse.argumentList count (t :: ts)).answer =
      (Parse.entries (fun rest => (Parse.argumentList (count + 1) rest).answer) p.expr rest).after
        (reports (.argument count t :: p.places)) := by
  rw [Parse.answer_argumentList, first, countReports_argument]
  simp [reports_cons]

theorem entries_eq_parsed_single {α : Type} (later : List Token → Answer (List α)) (first : α)
    {t : Token} (other : t.kind ≠ .symbol .comma) (rest : List Token) :
    Parse.entries later first (t :: rest) = .parsed [first] (t :: rest) := by
  simp only [Parse.entries]
  rw [if_neg other]

theorem entries_comma {α : Type} (later : List Token → Answer (List α)) (first : α) {t : Token}
    (comma : t.kind = .symbol .comma) (rest : List Token) :
    Parse.entries later first (t :: rest) = (later rest).map (first :: ·) := by
  simp only [Parse.entries]
  rw [if_pos comma]

/-- What is derivable as an expression is read as it, if it ends there. -/
theorem Derives.completes {l : Level} {ts rest : List Token} {p : Phrase}
    (d : Derives l ts p rest) : Completes l ts p rest := by
  induction d using @Derives.rec _ fun ts args rest _ => ∀ count close rest',
      rest = close :: rest' → close.kind = .symbol .rightParen →
      (Parse.argumentList count ts).answer =
        (Answer.parsed args.exprs rest).after (reports (args.places count)) with
  | @constant t value rest stands =>
    rw [Completes, Parse.answer_primary_cons, constant_eq_some_iff.mpr stands]
    rfl
  | @name t rest identifier =>
    rw [Completes, Parse.answer_primary_cons, identifier]
    rfl
  | @group open_ close ts rest inner opens _ closes ih =>
    have inside := ih (ends_of_closes (congrArg closesPhrase closes) rest)
    rw [Completes, Parse.answer_primary_cons, opens]
    simp only [Parse.constant?, inside, reduceCtorEq, if_false, if_true]
    rw [Answer.after_bind, Answer.parsed_bind, answer_expect_of_kind closes]
    rfl
  | @primary ts rest p _ ih =>
    rw [Completes, Parse.answer_call, ih, Answer.after_bind, Answer.parsed_bind]
  | @callNone open_ close ts rest callee _ opens closes ih =>
    rw [Completes, ih, Parse.answer_calls_cons, if_pos opens, Parse.answer_arguments,
      if_pos (by simp [closes]), Answer.parsed_bind, answer_expect_of_kind closes,
      Answer.parsed_bind]
    simp [Phrase.expr, Phrase.places, Arguments.exprs, Arguments.places]
  | @callSome open_ close ts ts' rest callee args _ opens inside closes ih entries =>
    obtain ⟨t, ts'', rfl, start⟩ := inside.head
    have noClose : ¬ (t :: ts'').head?.any (·.kind = .symbol .rightParen) := by
      intro paren
      have paren : t.kind = .symbol .rightParen := by simpa using paren
      rw [paren] at start
      cases start
    rw [Completes, ih, Parse.answer_calls_cons, if_pos opens, Parse.answer_arguments,
      if_neg noClose, entries 0 close rest rfl closes, Answer.after_bind, Answer.parsed_bind,
      answer_expect_of_kind closes, Answer.parsed_bind]
    simp [Phrase.expr, Phrase.places]
  | call only ih => exact unary_completes only ih
  | @unary op ts rest operand sign _ ih =>
    intro ends
    rw [Parse.answer_unary_cons, if_pos sign, ih ends]
    simp [Phrase.expr, Phrase.places]
  | @operand l ts rest p _ ih =>
    intro ends
    rw [Layered.answer_layer, operand_completes ih ends, Answer.after_bind, Answer.parsed_bind]
  | @binary l op ts ts' rest left right _ belongs _ first second =>
    intro ends
    rw [first (ends_operator belongs ts'), Layered.answer_layerRest_cons, if_pos belongs,
      operand_completes second ends, Answer.after_bind, Answer.parsed_bind, expr_binary]
    simp [Phrase.places]
  | @operation ts rest p _ ih =>
    intro ends
    have none : ∀ t ∈ rest.head?, t.kind.layer? ≠ some .or := fun t head belongs => by
      rw [(ends t head).2.1] at belongs
      cases belongs
    rw [Parse.answer_expression, ← Layered.layer_or, ih (ends_layer ends), layerRest_eq_parsed none,
      Answer.after_bind, Answer.parsed_bind]
    cases rest with
    | nil => rfl
    | cons t rest =>
      simp only [Parse.assignment]
      rw [if_neg (ends t rfl).2.2]
  | @assign equals ts ts' rest target value derives sign _ first second =>
    intro ends
    have none : equals.kind.layer? = none := by rw [sign]; rfl
    have stops : Ends (.layer .or) (equals :: ts') := by
      rintro t ⟨⟩
      exact ⟨by rw [sign]; decide, by simp [none]⟩
    rw [Parse.answer_expression, ← Layered.layer_or, first stops,
      layerRest_eq_parsed (by rintro t ⟨⟩; simp [none]), Answer.after_bind, Answer.parsed_bind]
    simp only [Parse.assignment]
    rw [if_pos sign, second ends, Answer.after_bind, Answer.parsed_bind, assignTo_expr derives]
    simp [Phrase.places]
  | @last t ts rest value _ ih count close rest' same closes =>
    subst same
    rw [argumentList_eq (ih (ends_of_closes (congrArg closesPhrase closes) rest')),
      entries_eq_parsed_single _ _ (by rw [closes]; decide)]
    simp [Arguments.exprs, Arguments.places, reports_cons]
  | @more t comma ts ts' rest value later _ separates _ first others count close rest' same closes =>
    subst same
    rw [argumentList_eq (first (ends_of_closes (congrArg closesPhrase separates) ts')),
      entries_comma _ _ separates, others (count + 1) close rest' rfl closes]
    simp [Arguments.exprs, Arguments.places, reports_cons]

end Grammar
end Lox
