import Lox.Token

/- Expressions and statements. Nodes keep the tokens that later messages point at: operators, names,
   the closing parenthesis of a call. Boolean equality is structural and compares numbers as
   numbers. -/
namespace Lox

inductive Expr where
  | literal (value : Literal)
  | grouping (inner : Expr)
  | unary (op : Token) (operand : Expr)
  | binary (left : Expr) (op : Token) (right : Expr)
  | logical (left : Expr) (op : Token) (right : Expr)
  | reference (name : Token)
  | assign (name : Token) (value : Expr)
  | call (callee : Expr) (paren : Token) (arguments : List Expr)

inductive Stmt where
  | expression (expr : Expr)
  | print (expr : Expr)
  | declare (name : Token) (initializer : Option Expr)
  | block (body : List Stmt)
  | ifThen (condition : Expr) (thenBranch : Stmt)
  | ifElse (condition : Expr) (thenBranch elseBranch : Stmt)
  | loop (condition : Expr) (body : Stmt)
  | function (name : Token) (params : List Token) (body : List Stmt)
  | return_ (keyword : Token) (value : Option Expr)

mutual
def Expr.beq : Expr → Expr → Bool
  | .literal a, .literal b => a == b
  | .grouping a, .grouping b => a.beq b
  | .unary p a, .unary q b => p == q && a.beq b
  | .binary a p c, .binary b q d => a.beq b && p == q && c.beq d
  | .logical a p c, .logical b q d => a.beq b && p == q && c.beq d
  | .reference a, .reference b => a == b
  | .assign x a, .assign y b => x == y && a.beq b
  | .call f p as, .call g q bs => f.beq g && p == q && Expr.beqAll as bs
  | _, _ => false
def Expr.beqAll : List Expr → List Expr → Bool
  | [], [] => true
  | a :: as, b :: bs => a.beq b && Expr.beqAll as bs
  | _, _ => false
end

instance : BEq Expr := ⟨Expr.beq⟩

mutual
def Stmt.beq : Stmt → Stmt → Bool
  | .expression a, .expression b => a == b
  | .print a, .print b => a == b
  | .declare x a, .declare y b => x == y && a == b
  | .block as, .block bs => Stmt.beqAll as bs
  | .ifThen a s, .ifThen b t => a == b && s.beq t
  | .ifElse a s u, .ifElse b t v => a == b && s.beq t && u.beq v
  | .loop a s, .loop b t => a == b && s.beq t
  | .function f ps as, .function g qs bs => f == g && ps == qs && Stmt.beqAll as bs
  | .return_ k a, .return_ l b => k == l && a == b
  | _, _ => false
def Stmt.beqAll : List Stmt → List Stmt → Bool
  | [], [] => true
  | a :: as, b :: bs => a.beq b && Stmt.beqAll as bs
  | _, _ => false
end

instance : BEq Stmt := ⟨Stmt.beq⟩

mutual
def Expr.ungrouped : Expr → Expr
  | .literal l => .literal l
  | .grouping e => e.ungrouped
  | .unary op e => .unary op e.ungrouped
  | .binary a op b => .binary a.ungrouped op b.ungrouped
  | .logical a op b => .logical a.ungrouped op b.ungrouped
  | .reference x => .reference x
  | .assign x e => .assign x e.ungrouped
  | .call f paren args => .call f.ungrouped paren (Expr.ungroupedAll args)
def Expr.ungroupedAll : List Expr → List Expr
  | [] => []
  | e :: es => e.ungrouped :: Expr.ungroupedAll es
end

end Lox
