import Lox.Parse.Problem

/- Replies of a parser to a token list. A reply never leaves more tokens than it was given, and
   fewer if it is one that consumes and something was parsed: recursion on what a reply leaves
   therefore ends. An unmet expectation stands at the first token left, and is not among the
   reports until the declaration around it is given up. -/
namespace Lox

inductive Outcome (α : Type) where
  | parsed (value : α) (rest : List Token)
  | unmet (what : Expectation) (rest : List Token)

/-- `rest` may be left of `ts`; when tokens must be consumed, it is shorter. -/
def Leaves (consumes : Bool) (ts rest : List Token) : Prop :=
  if consumes then rest.length < ts.length else rest.length ≤ ts.length

def Outcome.Within {α : Type} (consumes : Bool) (ts : List Token) : Outcome α → Prop
  | .parsed _ rest => Leaves consumes ts rest
  | .unmet _ rest => rest.length ≤ ts.length

@[ext] structure Reply (consumes : Bool) (α : Type) (ts : List Token) where
  outcome : Outcome α
  reports : List Report
  within : outcome.Within consumes ts

theorem Leaves.length_le {c : Bool} {ts rest : List Token} (h : Leaves c ts rest) :
    rest.length ≤ ts.length := by
  cases c
  · exact h
  · exact Nat.le_of_lt h

theorem Leaves.trans {c d : Bool} {ts rest last : List Token} (first : Leaves c ts rest)
    (second : Leaves d rest last) : Leaves (c || d) ts last := by
  cases c
  · cases d
    · exact Nat.le_trans second first
    · exact Nat.lt_of_lt_of_le second first
  · exact Nat.lt_of_le_of_lt second.length_le first

theorem Leaves.past {c d : Bool} {t : Token} {ts rest : List Token} (h : Leaves c ts rest) :
    Leaves d (t :: ts) rest := by
  have le := h.length_le
  cases d
  · exact Nat.le_succ_of_le le
  · exact Nat.lt_succ_of_le le

namespace Reply

variable {α β : Type} {c d : Bool} {t : Token} {ts : List Token}

def after (earlier : List Report) (r : Reply c α ts) : Reply c α ts :=
  { r with reports := earlier ++ r.reports }

def done (value : α) (ts : List Token) : Reply false α ts :=
  ⟨.parsed value ts, [], Nat.le_refl _⟩

def fail (what : Expectation) (ts : List Token) : Reply c α ts :=
  ⟨.unmet what ts, [], Nat.le_refl _⟩

def bind (r : Reply c α ts)
    (next : (value : α) → (rest : List Token) → Leaves c ts rest → Reply d β rest) :
    Reply (c || d) β ts :=
  match r with
  | ⟨.unmet what rest, reports, within⟩ => ⟨.unmet what rest, reports, within⟩
  | ⟨.parsed value rest, reports, within⟩ =>
    match next value rest within with
    | ⟨.parsed value' rest', reports', within'⟩ =>
      ⟨.parsed value' rest', reports ++ reports', within.trans within'⟩
    | ⟨.unmet what rest', reports', within'⟩ =>
      ⟨.unmet what rest', reports ++ reports', Nat.le_trans within' within.length_le⟩

def map (f : α → β) (r : Reply c α ts) : Reply c β ts :=
  match r with
  | ⟨.parsed value rest, reports, within⟩ => ⟨.parsed (f value) rest, reports, within⟩
  | ⟨.unmet what rest, reports, within⟩ => ⟨.unmet what rest, reports, within⟩

def past (r : Reply c α ts) : Reply d α (t :: ts) :=
  match r with
  | ⟨.parsed value rest, reports, within⟩ => ⟨.parsed value rest, reports, within.past⟩
  | ⟨.unmet what rest, reports, within⟩ => ⟨.unmet what rest, reports, Nat.le_succ_of_le within⟩

def loosen (r : Reply c α ts) : Reply false α ts :=
  match r with
  | ⟨.parsed value rest, reports, within⟩ => ⟨.parsed value rest, reports, within.length_le⟩
  | ⟨.unmet what rest, reports, within⟩ => ⟨.unmet what rest, reports, within⟩

end Reply

def expect (what : Expectation) (ts : List Token) : Reply true Token ts :=
  match ts with
  | [] => .fail what []
  | t :: rest =>
    if some t.kind = what.kind? then (Reply.done t rest).past else .fail what (t :: rest)

end Lox
