import Lox.Tree

/- Folds over trees. Each node is met before its parts and the parts in source order; kinds of node
   that a step does not look at leave the state alone. -/
namespace Lox

structure NodeStep (σ : Type) where
  onExpr : Expr → σ → σ := fun _ s => s
  onStmt : Stmt → σ → σ := fun _ s => s

variable {σ : Type}

mutual
def Expr.foldNodes (step : NodeStep σ) : Expr → σ → σ
  | .literal l, s => step.onExpr (.literal l) s
  | .grouping e, s => e.foldNodes step (step.onExpr (.grouping e) s)
  | .unary op e, s => e.foldNodes step (step.onExpr (.unary op e) s)
  | .binary a op b, s => b.foldNodes step (a.foldNodes step (step.onExpr (.binary a op b) s))
  | .logical a op b, s => b.foldNodes step (a.foldNodes step (step.onExpr (.logical a op b) s))
  | .reference x, s => step.onExpr (.reference x) s
  | .assign x e, s => e.foldNodes step (step.onExpr (.assign x e) s)
  | .call f paren args, s =>
    Expr.foldAll step args (f.foldNodes step (step.onExpr (.call f paren args) s))
def Expr.foldAll (step : NodeStep σ) : List Expr → σ → σ
  | [], s => s
  | e :: es, s => Expr.foldAll step es (e.foldNodes step s)
end

def Expr.foldOption (step : NodeStep σ) : Option Expr → σ → σ
  | none, s => s
  | some e, s => e.foldNodes step s

mutual
def Stmt.foldNodes (step : NodeStep σ) : Stmt → σ → σ
  | .expression e, s => e.foldNodes step (step.onStmt (.expression e) s)
  | .print e, s => e.foldNodes step (step.onStmt (.print e) s)
  | .declare x e, s => Expr.foldOption step e (step.onStmt (.declare x e) s)
  | .block body, s => Stmt.foldAll step body (step.onStmt (.block body) s)
  | .ifThen c t, s => t.foldNodes step (c.foldNodes step (step.onStmt (.ifThen c t) s))
  | .ifElse c t u, s =>
    u.foldNodes step (t.foldNodes step (c.foldNodes step (step.onStmt (.ifElse c t u) s)))
  | .loop c t, s => t.foldNodes step (c.foldNodes step (step.onStmt (.loop c t) s))
  | .function f params body, s => Stmt.foldAll step body (step.onStmt (.function f params body) s)
  | .return_ k e, s => Expr.foldOption step e (step.onStmt (.return_ k e) s)
def Stmt.foldAll (step : NodeStep σ) : List Stmt → σ → σ
  | [], s => s
  | t :: ts, s => Stmt.foldAll step ts (t.foldNodes step s)
end

end Lox
