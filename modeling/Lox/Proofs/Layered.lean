import Lox.Parse.Cursor
import Lox.Proofs.Answer

/- Expressions read layer by layer: one loop for each precedence, every loop taking its operands from
   the next tighter layer. The single loop over binding powers gives the same reply on all token
   lists, failures and reports included. -/
namespace Lox

/-- The layers of binary operators, loosest first. -/
inductive Layer where
  | or | and | equality | comparison | term | factor
  deriving DecidableEq

def Kind.layer? : Kind → Option Layer
  | .keyword .or => some .or
  | .keyword .and => some .and
  | .symbol .equalEqual | .symbol .bangEqual => some .equality
  | .symbol .greater | .symbol .greaterEqual | .symbol .less | .symbol .lessEqual =>
    some .comparison
  | .symbol .plus | .symbol .minus => some .term
  | .symbol .star | .symbol .slash => some .factor
  | _ => none

namespace Layer

def tighter? : Layer → Option Layer
  | .or => some .and
  | .and => some .equality
  | .equality => some .comparison
  | .comparison => some .term
  | .term => some .factor
  | .factor => none

@[elab_as_elim] theorem outwards {motive : Layer → Prop} (l : Layer) (tightest : motive .factor)
    (next : ∀ {l tighter : Layer}, l.tighter? = some tighter → motive tighter → motive l) :
    motive l := by
  have term := next (l := .term) rfl tightest
  have comparison := next (l := .comparison) rfl term
  have equality := next (l := .equality) rfl comparison
  have and := next (l := .and) rfl equality
  cases l with
  | or => exact next rfl and
  | and => exact and
  | equality => exact equality
  | comparison => exact comparison
  | term => exact term
  | factor => exact tightest

def height : Layer → Nat
  | .or => 5
  | .and => 4
  | .equality => 3
  | .comparison => 2
  | .term => 1
  | .factor => 0

theorem height_le (l : Layer) : l.height ≤ 5 := by cases l <;> decide

/-- The binding power of the layer's operators on their left; on their right it is one more. -/
def power (l : Layer) : Nat := 12 - 2 * l.height

theorem power_injective {l l' : Layer} (same : l.power = l'.power) : l = l' := by
  cases l <;> cases l' <;> revert same <;> decide

theorem bindingPower_eq (k : Kind) :
    k.bindingPower? = k.layer?.map fun l => (l.power, l.power + 1) := by
  cases k with
  | symbol s => cases s <;> rfl
  | keyword w => cases w <;> rfl
  | _ => rfl

end Layer

namespace Layered
open Parse (constant? combine assignTo countReports)

mutual

def expression (ts : List Token) : Reply true Expr ts :=
  (layer .or ts).bind fun target left leaves =>
    match left, leaves with
    | [], _ => .done target []
    | t :: rest, _ =>
      if t.kind = .symbol .equal then
        ((expression rest).bind fun value rest' _ =>
          let (expr, reports) := assignTo target t value
          (Reply.done expr rest').after reports).past
      else .done target (t :: rest)
termination_by ts.length * 32 + 15
decreasing_by all_goals grind [Leaves, Layer.height, Layer.height_le]

/-- Operands with operators of the layer between them, grouped to the left. -/
def layer (l : Layer) (ts : List Token) : Reply true Expr ts :=
  (operand l ts).bind fun left rest _ => layerRest l left rest
termination_by ts.length * 32 + 2 * l.height + 4
decreasing_by all_goals grind [Leaves, Layer.height, Layer.height_le]

def operand (l : Layer) (ts : List Token) : Reply true Expr ts :=
  match l with
  | .or => layer .and ts
  | .and => layer .equality ts
  | .equality => layer .comparison ts
  | .comparison => layer .term ts
  | .term => layer .factor ts
  | .factor => unary ts
termination_by ts.length * 32 + 2 * l.height + 3
decreasing_by all_goals grind [Leaves, Layer.height, Layer.height_le]

def layerRest (l : Layer) (left : Expr) (ts : List Token) : Reply false Expr ts :=
  match ts with
  | [] => .done left []
  | op :: rest =>
    if op.kind.layer? = some l then
      ((operand l rest).bind fun right rest' _ => layerRest l (combine left op right) rest').past
    else .done left (op :: rest)
termination_by ts.length * 32
decreasing_by all_goals grind [Leaves, Layer.height, Layer.height_le]

def unary (ts : List Token) : Reply true Expr ts :=
  match ts with
  | [] => call []
  | op :: rest =>
    if op.kind = .symbol .bang ∨ op.kind = .symbol .minus then
      ((unary rest).map (.unary op)).past
    else call (op :: rest)
termination_by ts.length * 32 + 2
decreasing_by all_goals grind [Leaves]

def call (ts : List Token) : Reply true Expr ts :=
  (primary ts).bind fun callee rest _ => calls callee rest
termination_by ts.length * 32 + 1
decreasing_by all_goals grind [Leaves]

def calls (callee : Expr) (ts : List Token) : Reply false Expr ts :=
  match ts with
  | [] => .done callee []
  | t :: rest =>
    if t.kind = .symbol .leftParen then
      ((arguments rest).bind fun args rest₁ _ =>
        (expect .parenAfterArguments rest₁).bind fun paren rest₂ _ =>
          calls (.call callee paren args) rest₂).past
    else .done callee (t :: rest)
termination_by ts.length * 32
decreasing_by all_goals grind [Leaves]

def arguments (ts : List Token) : Reply false (List Expr) ts :=
  if ts.head?.any (·.kind = .symbol .rightParen) then .done [] ts
  else (argumentList 0 ts).loosen
termination_by ts.length * 32 + 17
decreasing_by all_goals grind [Leaves]

def argumentList (count : Nat) (ts : List Token) : Reply true (List Expr) ts :=
  ((expression ts).bind fun first left leaves =>
    match left, leaves with
    | [], _ => .done [first] []
    | t :: rest, _ =>
      if t.kind = .symbol .comma then ((argumentList (count + 1) rest).map (first :: ·)).past
      else .done [first] (t :: rest)).after (countReports .tooManyArguments count ts)
termination_by ts.length * 32 + 16
decreasing_by all_goals grind [Leaves]

def primary (ts : List Token) : Reply true Expr ts :=
  match ts with
  | [] => .fail .expression []
  | t :: rest =>
    match constant? t.kind with
    | some l => (Reply.done (.literal l) rest).past
    | none =>
      if t.kind = .identifier then (Reply.done (.reference t) rest).past
      else if t.kind = .symbol .leftParen then
        ((expression rest).bind fun inner rest₁ _ =>
          (expect .parenAfterExpression rest₁).map fun _ => .grouping inner).past
      else .fail .expression (t :: rest)
termination_by ts.length * 32
decreasing_by all_goals grind [Leaves]

end

theorem answer_layer (l : Layer) (ts : List Token) :
    (layer l ts).answer =
      (operand l ts).answer.bind fun left rest => (layerRest l left rest).answer := by
  rw [layer]
  exact Reply.answer_bind _ _ _ fun left rest _ => rfl

theorem answer_layerRest_nil (l : Layer) (left : Expr) :
    (layerRest l left []).answer = .parsed left [] := by
  rw [layerRest]
  rfl

theorem answer_layerRest_cons (l : Layer) (left : Expr) (op : Token) (rest : List Token) :
    (layerRest l left (op :: rest)).answer =
      if op.kind.layer? = some l then
        (operand l rest).answer.bind fun right rest' =>
          (layerRest l (combine left op right) rest').answer
      else .parsed left (op :: rest) := by
  rw [layerRest]
  split
  · rw [Reply.answer_past]
    exact Reply.answer_bind _ _ _ fun right rest' _ => rfl
  · rfl

end Layered

namespace Parse

theorem operators_take {p : Nat} {op : Token} {l : Layer} (belongs : op.kind.layer? = some l)
    (reaches : p ≤ l.power) (left : Expr) (rest : List Token) :
    (operators p left (op :: rest)).answer =
      (operation (l.power + 1) rest).answer.bind fun right rest' =>
        (operators p (combine left op right) rest').answer := by
  rw [answer_operators_cons, Layer.bindingPower_eq, belongs]
  simp only [Option.map_some]
  rw [if_neg (Nat.not_lt.mpr reaches)]

theorem operators_leave {p : Nat} {op : Token}
    (loose : ∀ l, op.kind.layer? = some l → l.power < p) (left : Expr) (rest : List Token) :
    (operators p left (op :: rest)).answer = .parsed left (op :: rest) := by
  rw [answer_operators_cons, Layer.bindingPower_eq]
  cases belongs : op.kind.layer? with
  | none => rfl
  | some l =>
    simp only [Option.map_some]
    rw [if_pos (loose l belongs)]

theorem taken_or_left (p : Nat) (op : Token) :
    (∃ l, op.kind.layer? = some l ∧ p ≤ l.power) ∨ ∀ l, op.kind.layer? = some l → l.power < p := by
  by_cases taken : ∃ l, op.kind.layer? = some l ∧ p ≤ l.power
  · exact .inl taken
  · exact .inr fun l belongs => Nat.lt_of_not_le fun reaches => taken ⟨l, belongs, reaches⟩

/-- Only which layers reach a power counts, not the power itself. -/
theorem operators_congr {p q : Nat} (same : ∀ l : Layer, l.power < p ↔ l.power < q) (left : Expr)
    (ts : List Token) : (operators p left ts).answer = (operators q left ts).answer := by
  induction ts using shorterInduction generalizing left with
  | step ts ih =>
    cases ts with
    | nil => rw [answer_operators_nil, answer_operators_nil]
    | cons op rest =>
      rcases taken_or_left p op with ⟨l, belongs, reaches⟩ | loose
      · have reaches' : q ≤ l.power := by
          have := same l
          omega
        rw [operators_take belongs reaches, operators_take belongs reaches']
        apply Answer.bind_congr
        intro right rest' parsed
        exact ih rest' (Nat.lt_succ_of_lt (Reply.shorter_of_parsed parsed)) _
      · have loose' : ∀ l, op.kind.layer? = some l → l.power < q :=
          fun l belongs => (same l).mp (loose l belongs)
        rw [operators_leave loose, operators_leave loose']

theorem operation_congr {p q : Nat} (same : ∀ l : Layer, l.power < p ↔ l.power < q)
    (ts : List Token) : operation p ts = operation q ts := by
  apply Reply.ext_answer
  rw [answer_operation, answer_operation]
  apply Answer.bind_congr
  intro left rest _
  exact operators_congr same left rest

theorem operators_stop {p : Nat} {left value : Expr} {ts rest : List Token}
    (parsed : (operators p left ts).answer.outcome = .parsed value rest) (next : Expr) :
    (operators p next rest).answer = .parsed next rest := by
  induction ts using shorterInduction generalizing left with
  | step ts ih =>
    cases ts with
    | nil =>
      rw [answer_operators_nil] at parsed
      obtain ⟨-, rfl⟩ := Outcome.parsed.inj parsed
      exact answer_operators_nil p next
    | cons op rest₁ =>
      rcases taken_or_left p op with ⟨l, belongs, reaches⟩ | loose
      · rw [operators_take belongs reaches] at parsed
        obtain ⟨right, rest₂, first, second⟩ := Answer.parsed_of_bind parsed
        exact ih rest₂ (Nat.lt_succ_of_lt (Reply.shorter_of_parsed first)) second
      · rw [operators_leave loose] at parsed
        obtain ⟨-, rfl⟩ := Outcome.parsed.inj parsed
        exact operators_leave loose next rest₁

theorem operation_stop {p : Nat} {value : Expr} {ts rest : List Token}
    (parsed : (operation p ts).answer.outcome = .parsed value rest) (next : Expr) :
    (operators p next rest).answer = .parsed next rest := by
  rw [answer_operation] at parsed
  obtain ⟨left, rest₁, -, second⟩ := Answer.parsed_of_bind parsed
  exact operators_stop second next

theorem operation_eq_unary {p : Nat} (tight : ∀ l : Layer, l.power < p) (ts : List Token) :
    operation p ts = unary ts := by
  apply Reply.ext_answer
  rw [answer_operation]
  have alone : ∀ left rest, (operators p left rest).answer = .parsed left rest := by
    intro left rest
    cases rest with
    | nil => exact answer_operators_nil p left
    | cons op rest => exact operators_leave (fun l _ => tight l) left rest
  simp only [alone, Answer.bind_parsed]

end Parse

namespace Layered

/-- One layer more in the loop over binding powers is one loop more around it. -/
theorem operators_bind_layerRest {l : Layer} {ts : List Token}
    (operands : ∀ rest : List Token, rest.length < ts.length →
      operand l rest = Parse.operation (l.power + 1) rest) (left : Expr) :
    ((Parse.operators (l.power + 1) left ts).answer.bind fun value rest =>
      (layerRest l value rest).answer) = (Parse.operators l.power left ts).answer := by
  induction ts using shorterInduction generalizing left with
  | step ts ih =>
    cases ts with
    | nil =>
      rw [Parse.answer_operators_nil, Parse.answer_operators_nil, Answer.parsed_bind,
        answer_layerRest_nil]
    | cons op rest =>
      have inner : ∀ {p : Nat} {next : Expr} {rest' : List Token},
          (Parse.operation p rest).answer.outcome = .parsed next rest' → ∀ left,
            ((Parse.operators (l.power + 1) left rest').answer.bind fun value rest =>
              (layerRest l value rest).answer) = (Parse.operators l.power left rest').answer := by
        intro p next rest' parsed left
        have shorter := Nat.lt_succ_of_lt (Reply.shorter_of_parsed parsed)
        exact ih rest' shorter (fun last less => operands last (Nat.lt_trans less shorter)) left
      rcases Parse.taken_or_left (l.power + 1) op with ⟨tight, belongs, reaches⟩ | loose
      · -- a tighter operator: both loops take it
        rw [Parse.operators_take belongs reaches,
          Parse.operators_take belongs (Nat.le_of_succ_le reaches), Answer.bind_assoc]
        exact Answer.bind_congr fun right rest' parsed => inner parsed _
      · rw [Parse.operators_leave loose, Answer.parsed_bind, answer_layerRest_cons]
        split
        · -- an operator of the layer itself, after whose operand the inner loop has nothing to do
          rename_i belongs
          rw [Parse.operators_take belongs (Nat.le_refl _), operands rest (Nat.lt_succ_self _)]
          apply Answer.bind_congr
          intro right rest' parsed
          rw [← inner parsed, Parse.operation_stop parsed, Answer.parsed_bind]
        · rename_i other
          have looser : ∀ l', op.kind.layer? = some l' → l'.power < l.power := by
            intro l' belongs
            have ne : l' ≠ l := fun same => other (same ▸ belongs)
            exact Nat.lt_of_le_of_ne (Nat.le_of_lt_succ (loose l' belongs))
              fun same => ne (Layer.power_injective same)
          rw [Parse.operators_leave looser]

theorem primary_agrees {ts : List Token}
    (inner : ∀ rest : List Token, rest.length < ts.length → expression rest = Parse.expression rest) :
    primary ts = Parse.primary ts := by
  cases ts with
  | nil => rw [primary, Parse.primary]
  | cons t rest =>
    rewrite [primary, Parse.primary, inner rest (Nat.lt_succ_self _)]
    rfl

theorem argumentList_agrees {ts : List Token}
    (inner : ∀ rest : List Token, rest.length ≤ ts.length → expression rest = Parse.expression rest)
    (count : Nat) : argumentList count ts = Parse.argumentList count ts := by
  induction ts using shorterInduction generalizing count with
  | step ts ih =>
    rw [argumentList, Parse.argumentList, inner ts (Nat.le_refl _)]
    congr 2
    funext first left leaves
    cases left with
    | nil => rfl
    | cons t rest =>
      have shorter : rest.length < ts.length := Nat.lt_of_succ_lt leaves
      have later := ih rest shorter
        (fun last le => inner last (Nat.le_trans le (Nat.le_of_lt shorter))) (count + 1)
      dsimp only
      rw [later]

theorem arguments_agrees {ts : List Token}
    (inner : ∀ rest : List Token, rest.length ≤ ts.length → expression rest = Parse.expression rest) :
    arguments ts = Parse.arguments ts := by
  rw [arguments, Parse.arguments, argumentList_agrees inner]

theorem calls_agrees {ts : List Token}
    (inner : ∀ rest : List Token, rest.length < ts.length → expression rest = Parse.expression rest)
    (callee : Expr) : calls callee ts = Parse.calls callee ts := by
  induction ts using shorterInduction generalizing callee with
  | step ts ih =>
    cases ts with
    | nil => rw [calls, Parse.calls]
    | cons t rest =>
      rw [calls, Parse.calls,
        arguments_agrees fun last le => inner last (Nat.lt_succ_of_le le)]
      congr 3
      funext args rest₁ leaves
      congr 1
      funext paren rest₂ leaves'
      have shorter : rest₂.length < (t :: rest).length :=
        Nat.lt_succ_of_le (Nat.le_trans (Nat.le_of_lt leaves') leaves)
      exact ih rest₂ shorter (fun last less => inner last (Nat.lt_trans less shorter)) _

theorem call_agrees {ts : List Token}
    (inner : ∀ rest : List Token, rest.length < ts.length → expression rest = Parse.expression rest) :
    call ts = Parse.call ts := by
  rw [call, Parse.call, primary_agrees inner]
  congr 1
  funext callee rest leaves
  exact calls_agrees (fun last less => inner last (Nat.lt_trans less leaves)) callee

theorem unary_agrees {ts : List Token}
    (inner : ∀ rest : List Token, rest.length < ts.length → expression rest = Parse.expression rest) :
    unary ts = Parse.unary ts := by
  induction ts with
  | nil => rw [unary, Parse.unary, call_agrees inner]
  | cons op rest ih =>
    rw [unary, Parse.unary, call_agrees inner, ih fun last less => inner last (Nat.lt_succ_of_lt less)]

theorem operand_factor (ts : List Token) : operand .factor ts = unary ts := by
  rw [operand]

theorem operand_of_tighter {l tighter : Layer} (next : l.tighter? = some tighter)
    (ts : List Token) : operand l ts = layer tighter ts := by
  cases l <;> cases next <;> rw [operand]

theorem operation_power_succ {l tighter : Layer} (next : l.tighter? = some tighter)
    (ts : List Token) : Parse.operation (l.power + 1) ts = Parse.operation tighter.power ts := by
  apply Parse.operation_congr
  intro other
  have one : l.power + 2 = tighter.power := by cases l <;> cases next <;> rfl
  simp only [Layer.power] at one ⊢
  omega

theorem layer_agrees {l : Layer} {ts : List Token}
    (shorter : ∀ rest : List Token, rest.length < ts.length →
      operand l rest = Parse.operation (l.power + 1) rest)
    (here : operand l ts = Parse.operation (l.power + 1) ts) :
    layer l ts = Parse.operation l.power ts := by
  apply Reply.ext_answer
  rw [answer_layer, here, Parse.answer_operation, Parse.answer_operation, Answer.bind_assoc]
  apply Answer.bind_congr
  intro left rest parsed
  have less := Reply.shorter_of_parsed parsed
  exact operators_bind_layerRest (fun last less' => shorter last (Nat.lt_trans less' less)) left

/-- The readings that have to agree at one place before those at longer lists can. -/
structure Agrees (ts : List Token) : Prop where
  expression : expression ts = Parse.expression ts
  operand : ∀ l, operand l ts = Parse.operation (l.power + 1) ts

theorem operand_agrees {ts : List Token}
    (shorter : ∀ rest : List Token, rest.length < ts.length → Agrees rest) (l : Layer) :
    operand l ts = Parse.operation (l.power + 1) ts := by
  induction l using Layer.outwards with
  | tightest =>
    rw [operand_factor, Parse.operation_eq_unary (by intro l; cases l <;> decide)]
    exact unary_agrees fun rest less => (shorter rest less).expression
  | @next l tighter one ih =>
    rw [operand_of_tighter one, operation_power_succ one]
    exact layer_agrees (fun rest less => (shorter rest less).operand tighter) ih

theorem layer_or_agrees {ts : List Token}
    (shorter : ∀ rest : List Token, rest.length < ts.length → Agrees rest) :
    layer .or ts = Parse.operation 0 ts := by
  rw [layer_agrees (fun rest less => (shorter rest less).operand .or) (operand_agrees shorter .or)]
  exact Parse.operation_congr (by intro l; cases l <;> decide) ts

theorem agrees (ts : List Token) : Agrees ts := by
  induction ts using shorterInduction with
  | step ts ih =>
    refine ⟨?_, operand_agrees ih⟩
    rw [expression, Parse.expression, layer_or_agrees ih]
    congr 1
    funext target left leaves
    cases left with
    | nil => rfl
    | cons t rest =>
      dsimp only
      rw [(ih rest (Nat.lt_of_succ_lt leaves)).expression]

theorem operand_factor_eq (ts : List Token) : operand .factor ts = Parse.unary ts := by
  rw [operand_factor]
  exact unary_agrees fun rest _ => (agrees rest).expression

theorem layer_or (ts : List Token) : layer .or ts = Parse.operation 0 ts :=
  layer_or_agrees fun rest _ => agrees rest

/-- The reading of one expression at a cursor, layer by layer. -/
def readExpression (c : Cursor) : Reading (Except Refusal Expr) := c.ofReply (expression c.rest)

/-- At every place of every token list the loop over binding powers reads exactly what the layers
read: the same expression or the same refusal, the same diagnostics, the same tokens left. -/
theorem expression_eq_layered (c : Cursor) :
    Parse.expression c.rest = expression c.rest ∧ c.expression = readExpression c := by
  have same := (agrees c.rest).expression
  exact ⟨same.symm, by rw [Cursor.expression, readExpression, same]⟩

end Layered
end Lox
