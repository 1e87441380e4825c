import Lox.Tree

/- Trees written in parenthesised form: the node's word first, then its parts. Operators and names
   are written as they were spelled, and strings without quotes. -/
namespace Lox

inductive SExpr where
  | atom (text : String)
  | list (items : List SExpr)

mutual
def SExpr.render : SExpr → String
  | .atom text => text
  | .list items => "(" ++ SExpr.renderAll items ++ ")"
def SExpr.renderAll : List SExpr → String
  | [] => ""
  | [item] => item.render
  | item :: rest => item.render ++ " " ++ SExpr.renderAll rest
end

mutual
def Expr.toSExpr : Expr → SExpr
  | .literal l => .atom l.render
  | .grouping e => .list [.atom "group", e.toSExpr]
  | .unary op e => .list [.atom op.lexeme, e.toSExpr]
  | .binary a op b => .list [.atom op.lexeme, a.toSExpr, b.toSExpr]
  | .logical a op b => .list [.atom op.lexeme, a.toSExpr, b.toSExpr]
  | .reference x => .atom x.lexeme
  | .assign x e => .list [.atom "=", .atom x.lexeme, e.toSExpr]
  | .call f _ args => .list (.atom "call" :: f.toSExpr :: Expr.toSExprs args)
def Expr.toSExprs : List Expr → List SExpr
  | [] => []
  | e :: es => e.toSExpr :: Expr.toSExprs es
end

def SExpr.ofOption (e : Option Expr) : List SExpr := (e.map Expr.toSExpr).toList

mutual
def Stmt.toSExpr : Stmt → SExpr
  | .expression e => .list [.atom ";", e.toSExpr]
  | .print e => .list [.atom "print", e.toSExpr]
  | .declare x e => .list (.atom "var" :: .atom x.lexeme :: SExpr.ofOption e)
  | .block body => .list (.atom "block" :: Stmt.toSExprs body)
  | .ifThen c s => .list [.atom "if", c.toSExpr, s.toSExpr]
  | .ifElse c s t => .list [.atom "if", c.toSExpr, s.toSExpr, t.toSExpr]
  | .loop c s => .list [.atom "while", c.toSExpr, s.toSExpr]
  | .function f params body =>
    .list (.atom "fun" :: .atom f.lexeme :: .list (params.map fun p => .atom p.lexeme) ::
      Stmt.toSExprs body)
  | .return_ _ e => .list (.atom "return" :: SExpr.ofOption e)
def Stmt.toSExprs : List Stmt → List SExpr
  | [] => []
  | s :: ss => s.toSExpr :: Stmt.toSExprs ss
end

def Expr.render (e : Expr) : String := e.toSExpr.render
def Stmt.render (s : Stmt) : String := s.toSExpr.render

end Lox
