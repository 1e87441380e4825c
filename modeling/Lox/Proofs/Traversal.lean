import Mathlib
import Lox.Tree.Preorder

/- Visitors of trees. A visitor says what is done at an expression and at a statement, and may leave the
   way on to the parts to the default walk. Whoever does so at every node meets each of them once, a
   node before its parts and the parts from left to right: in the order of their positions. -/
namespace Lox

inductive Node where
  | expr (expr : Expr)
  | stmt (stmt : Stmt)

namespace Node

def isExpr : Node → Bool
  | .expr _ => true
  | .stmt _ => false

def isStmt : Node → Bool
  | .expr _ => false
  | .stmt _ => true

def parts : Node → List Node
  | .expr (.literal _) | .expr (.reference _) => []
  | .expr (.grouping e) | .expr (.unary _ e) | .expr (.assign _ e) => [.expr e]
  | .expr (.binary a _ b) | .expr (.logical a _ b) => [.expr a, .expr b]
  | .expr (.call f _ args) => .expr f :: args.map .expr
  | .stmt (.expression e) | .stmt (.print e) => [.expr e]
  | .stmt (.declare _ e) | .stmt (.return_ _ e) => e.toList.map .expr
  | .stmt (.block body) | .stmt (.function _ _ body) => body.map .stmt
  | .stmt (.ifThen c t) | .stmt (.loop c t) => [.expr c, .stmt t]
  | .stmt (.ifElse c t u) => [.expr c, .stmt t, .stmt u]

theorem sizeOf_lt_of_mem_parts {n part : Node} (member : part ∈ n.parts) :
    sizeOf part < sizeOf n := by
  cases n with
  | expr e =>
    cases e with
    | literal | reference => cases member
    | grouping | unary | assign | binary | logical =>
      simp only [parts, List.mem_cons, List.not_mem_nil, or_false] at member
      rcases member with rfl | rfl <;> simp +arith
    | call f paren args =>
      simp only [parts, List.mem_cons, List.mem_map] at member
      rcases member with rfl | ⟨arg, inside, rfl⟩
      · simp +arith
      · have less := List.sizeOf_lt_of_mem inside
        simp
        omega
  | stmt t =>
    cases t with
    | expression | print | ifThen | loop | ifElse =>
      simp only [parts, List.mem_cons, List.not_mem_nil, or_false] at member
      rcases member with rfl | rfl | rfl <;> simp +arith
    | declare _ value | return_ _ value =>
      obtain ⟨e, inside, rfl⟩ := List.mem_map.mp member
      obtain rfl := Option.mem_toList.mp inside
      simp +arith
    | block body | function _ _ body =>
      obtain ⟨inner, inside, rfl⟩ := List.mem_map.mp member
      have less := List.sizeOf_lt_of_mem inside
      simp
      omega

theorem induction {motive : Node → Prop} (step : ∀ n, (∀ part ∈ n.parts, motive part) → motive n)
    (n : Node) : motive n :=
  step n fun part _member => induction step part
termination_by sizeOf n
decreasing_by exact sizeOf_lt_of_mem_parts ‹_›

def at? : Node → List Nat → Option Node
  | n, [] => some n
  | n, i :: path => n.parts[i]?.bind (·.at? path)

def listing (n : Node) : List Node := n :: n.parts.attach.flatMap fun part => part.1.listing
termination_by sizeOf n
decreasing_by exact sizeOf_lt_of_mem_parts part.2

theorem listing_eq (n : Node) : n.listing = n :: n.parts.flatMap listing := by
  rw [listing]
  conv_rhs => rw [← n.parts.attach_map_subtype_val, List.flatMap_map]

end Node

/-- The node at a position of a forest. A position says which tree is entered, and then which part is
gone to at each step down. -/
def nodeAt? (trees : List Node) : List Nat → Option Node
  | [] => none
  | i :: path => trees[i]?.bind (·.at? path)

/-- All positions of the forest in their order: a position comes before those below it, and those
before all that are further right. -/
structure Positions (trees : List Node) (ps : List (List Nat)) : Prop where
  sorted : ps.Pairwise (· < ·)
  all : ∀ p, p ∈ ps ↔ (nodeAt? trees p).isSome = true

namespace Positions

variable {trees : List Node} {ps qs : List (List Nat)}

theorem exists_step (positions : Positions trees ps) {p : List Nat} (member : p ∈ ps) :
    ∃ i path, p = i :: path := by
  cases p with
  | nil =>
    have node := (positions.all []).mp member
    cases node
  | cons i path => exact ⟨i, path, rfl⟩

theorem unique (positions : Positions trees ps) (positions' : Positions trees qs) : ps = qs :=
  positions.sorted.eq_of_mem_iff positions'.sorted fun p =>
    (positions.all p).trans (positions'.all p).symm

theorem nil : Positions [] [] := by
  refine ⟨.nil, fun p => ?_⟩
  cases p <;> simp [nodeAt?]

def join (ps qs : List (List Nat)) : List (List Nat) :=
  [0] :: (ps.map (0 :: ·) ++ qs.map (List.modifyHead (· + 1)))

variable {n : Node} (below : Positions n.parts ps) (right : Positions trees qs)
include below right

theorem sorted_join : (join ps qs).Pairwise (· < ·) := by
  simp only [join, List.pairwise_cons, List.pairwise_append, List.pairwise_map, List.mem_append,
    List.mem_map]
  refine ⟨?_, ?_, ?_, ?_⟩
  · rintro p (⟨q, member, rfl⟩ | ⟨q, member, rfl⟩)
    · obtain ⟨i, path, rfl⟩ := below.exists_step member
      exact List.cons_lt_cons_iff.mpr (.inr ⟨rfl, List.nil_lt_cons _ _⟩)
    · obtain ⟨i, path, rfl⟩ := right.exists_step member
      exact List.cons_lt_cons_iff.mpr (.inl (Nat.succ_pos i))
  · exact below.sorted.imp fun less => List.cons_lt_cons_iff.mpr (.inr ⟨rfl, less⟩)
  · refine right.sorted.imp_of_mem fun {q q'} member member' less => ?_
    obtain ⟨i, path, rfl⟩ := right.exists_step member
    obtain ⟨j, path', rfl⟩ := right.exists_step member'
    apply List.cons_lt_cons_iff.mpr
    rcases List.cons_lt_cons_iff.mp less with first | ⟨rfl, later⟩
    · exact .inl (Nat.succ_lt_succ first)
    · exact .inr ⟨rfl, later⟩
  · rintro p ⟨q, -, rfl⟩ p' ⟨q', member, rfl⟩
    obtain ⟨j, path, rfl⟩ := right.exists_step member
    exact List.cons_lt_cons_iff.mpr (.inl (Nat.succ_pos j))

theorem mem_join_iff (p : List Nat) :
    p ∈ join ps qs ↔ (nodeAt? (n :: trees) p).isSome = true := by
  simp only [join, List.mem_cons, List.mem_append, List.mem_map]
  constructor
  · rintro (rfl | ⟨q, member, rfl⟩ | ⟨q, member, rfl⟩)
    · rfl
    · obtain ⟨i, path, rfl⟩ := below.exists_step member
      exact (below.all _).mp member
    · obtain ⟨i, path, rfl⟩ := right.exists_step member
      exact (right.all _).mp member
  · intro node
    match p with
    | [] => cases node
    | [0] => exact .inl rfl
    | 0 :: i :: path => exact .inr (.inl ⟨i :: path, (below.all _).mpr node, rfl⟩)
    | (i + 1) :: path => exact .inr (.inr ⟨i :: path, (right.all _).mpr node, rfl⟩)

theorem cons : Positions (n :: trees) (join ps qs) :=
  ⟨below.sorted_join right, below.mem_join_iff right⟩

theorem map_join :
    (join ps qs).map (nodeAt? (n :: trees)) =
      some n :: (ps.map (nodeAt? n.parts) ++ qs.map (nodeAt? trees)) := by
  have first : (ps.map (0 :: ·)).map (nodeAt? (n :: trees)) = ps.map (nodeAt? n.parts) := by
    rw [List.map_map]
    refine List.map_congr_left fun q member => ?_
    obtain ⟨i, path, rfl⟩ := below.exists_step member
    rfl
  have others : (qs.map (List.modifyHead (· + 1))).map (nodeAt? (n :: trees)) =
      qs.map (nodeAt? trees) := by
    rw [List.map_map]
    refine List.map_congr_left fun q member => ?_
    obtain ⟨i, path, rfl⟩ := right.exists_step member
    rfl
  rw [join, List.map_cons, List.map_append, first, others]
  rfl

end Positions

/-- The nodes of the trees, one for each position, in the order of the positions. -/
def Preorder (trees listing : List Node) : Prop :=
  ∃ ps, Positions trees ps ∧ ps.map (nodeAt? trees) = listing.map some

namespace Preorder

variable {trees l l' : List Node}

/-- There is one such listing. -/
theorem unique (preorder : Preorder trees l) (preorder' : Preorder trees l') : l = l' := by
  obtain ⟨ps, positions, nodes⟩ := preorder
  obtain ⟨ps', positions', nodes'⟩ := preorder'
  rw [← positions.unique positions', nodes] at nodes'
  exact List.map_injective_iff.mpr (Option.some_injective _) nodes'

theorem cons {n : Node} (below : Preorder n.parts l) (right : Preorder trees l') :
    Preorder (n :: trees) (n :: l ++ l') := by
  obtain ⟨ps, positions, nodes⟩ := below
  obtain ⟨qs, positions', nodes'⟩ := right
  refine ⟨_, positions.cons positions', ?_⟩
  rw [positions.map_join positions', nodes, nodes', List.cons_append, List.map_cons, List.map_append]

theorem forest {trees : List Node}
    (each : ∀ n ∈ trees, Preorder n.parts (n.parts.flatMap Node.listing)) :
    Preorder trees (trees.flatMap Node.listing) := by
  induction trees with
  | nil => exact ⟨[], Positions.nil, rfl⟩
  | cons n trees ih =>
    obtain ⟨first, others⟩ := List.forall_mem_cons.mp each
    rw [List.flatMap_cons, n.listing_eq]
    exact first.cons (ih others)

theorem listing (trees : List Node) : Preorder trees (trees.flatMap Node.listing) := by
  have tree (n : Node) : Preorder n.parts (n.parts.flatMap Node.listing) := by
    induction n using Node.induction with
    | step n ih => exact forest ih
  exact forest fun n _ => tree n

end Preorder

def Node.meet {σ : Type} (step : NodeStep σ) : Node → σ → σ
  | .expr e, s => step.onExpr e s
  | .stmt t, s => step.onStmt t s

/-- What is done at an expression and at a statement, their parts included. -/
structure Visitor (σ : Type) where
  visitExpr : Expr → σ → σ
  visitStmt : Stmt → σ → σ

namespace Visitor

variable {σ : Type} (v : Visitor σ)

def visitExprs : List Expr → σ → σ
  | [], s => s
  | e :: es, s => visitExprs es (v.visitExpr e s)

def visitStmts : List Stmt → σ → σ
  | [], s => s
  | t :: ts, s => visitStmts ts (v.visitStmt t s)

def visitOption : Option Expr → σ → σ
  | none, s => s
  | some e, s => v.visitExpr e s

def walkExpr : Expr → σ → σ
  | .literal _, s | .reference _, s => s
  | .grouping e, s | .unary _ e, s | .assign _ e, s => v.visitExpr e s
  | .binary a _ b, s | .logical a _ b, s => v.visitExpr b (v.visitExpr a s)
  | .call f _ args, s => v.visitExprs args (v.visitExpr f s)

def walkStmt : Stmt → σ → σ
  | .expression e, s | .print e, s => v.visitExpr e s
  | .declare _ e, s | .return_ _ e, s => v.visitOption e s
  | .block body, s | .function _ _ body, s => v.visitStmts body s
  | .ifThen c t, s | .loop c t, s => v.visitStmt t (v.visitExpr c s)
  | .ifElse c t u, s => v.visitStmt u (v.visitStmt t (v.visitExpr c s))

/-- The visitor does the step at each node and then walks on. A step that leaves one kind of node alone
stands for a visitor that has the default walk there. -/
structure Walks (step : NodeStep σ) : Prop where
  expr : ∀ e s, v.visitExpr e s = v.walkExpr e (step.onExpr e s)
  stmt : ∀ t s, v.visitStmt t s = v.walkStmt t (step.onStmt t s)

def visit : Node → σ → σ
  | .expr e, s => v.visitExpr e s
  | .stmt t, s => v.visitStmt t s

theorem visitExprs_eq (es : List Expr) (s : σ) :
    v.visitExprs es s = (es.map Node.expr).foldl (fun s n => v.visit n s) s := by
  induction es generalizing s with
  | nil => rfl
  | cons e es ih => exact ih _

theorem visitStmts_eq (ts : List Stmt) (s : σ) :
    v.visitStmts ts s = (ts.map Node.stmt).foldl (fun s n => v.visit n s) s := by
  induction ts generalizing s with
  | nil => rfl
  | cons t ts ih => exact ih _

theorem visitOption_eq (e : Option Expr) (s : σ) :
    v.visitOption e s = (e.toList.map Node.expr).foldl (fun s n => v.visit n s) s := by
  cases e <;> rfl

variable {v} {step : NodeStep σ}

theorem Walks.visit_parts (walks : v.Walks step) (n : Node) (s : σ) :
    v.visit n s = n.parts.foldl (fun s part => v.visit part s) (n.meet step s) := by
  cases n with
  | expr e =>
    refine (walks.expr e s).trans ?_
    cases e with
    | call f paren args => exact v.visitExprs_eq args _
    | _ => rfl
  | stmt t =>
    refine (walks.stmt t s).trans ?_
    cases t with
    | declare name e => exact v.visitOption_eq e _
    | return_ keyword e => exact v.visitOption_eq e _
    | block body => exact v.visitStmts_eq body _
    | function name params body => exact v.visitStmts_eq body _
    | _ => rfl

/-- A visitor that walks on meets the nodes of the listing one after another. -/
theorem Walks.visit_eq (walks : v.Walks step) (n : Node) (s : σ) :
    v.visit n s = n.listing.foldl (fun s m => m.meet step s) s := by
  induction n using Node.induction generalizing s with
  | step n ih =>
    rw [walks.visit_parts, n.listing_eq, List.foldl_cons, List.foldl_flatMap]
    exact List.foldl_ext _ _ _ fun s part member => ih part member s

theorem Walks.visitStmts_eq (walks : v.Walks step) (program : List Stmt) (s : σ) :
    v.visitStmts program s =
      ((program.map Node.stmt).flatMap Node.listing).foldl (fun s m => m.meet step s) s := by
  rw [v.visitStmts_eq, List.foldl_flatMap]
  exact List.foldl_ext _ _ _ fun s n _ => walks.visit_eq n s

end Visitor

namespace NodeStep

variable {σ : Type} (step : NodeStep σ)

def visitor : Visitor σ where
  visitExpr := Expr.foldNodes step
  visitStmt := Stmt.foldNodes step

theorem visitExprs_visitor (es : List Expr) (s : σ) :
    step.visitor.visitExprs es s = Expr.foldAll step es s := by
  induction es generalizing s with
  | nil => rfl
  | cons e es ih => exact ih _

theorem visitStmts_visitor (ts : List Stmt) (s : σ) :
    step.visitor.visitStmts ts s = Stmt.foldAll step ts s := by
  induction ts generalizing s with
  | nil => rfl
  | cons t ts ih => exact ih _

theorem visitOption_visitor (e : Option Expr) (s : σ) :
    step.visitor.visitOption e s = Expr.foldOption step e s := by
  cases e <;> rfl

theorem visitor_walks : step.visitor.Walks step where
  expr e s := by
    cases e with
    | call f paren args => exact (step.visitExprs_visitor args _).symm
    | _ => rfl
  stmt t s := by
    cases t with
    | declare name e => exact (step.visitOption_visitor e _).symm
    | return_ keyword e => exact (step.visitOption_visitor e _).symm
    | block body => exact (step.visitStmts_visitor body _).symm
    | function name params body => exact (step.visitStmts_visitor body _).symm
    | _ => rfl

end NodeStep

inductive Recording where
  | nodes
  | exprs
  | stmts

namespace Recording

def keeps : Recording → Node → Bool
  | .nodes, _ => true
  | .exprs, n => n.isExpr
  | .stmts, n => n.isStmt

def step : Recording → NodeStep (List Node)
  | .nodes => { onExpr := fun e log => log ++ [.expr e], onStmt := fun t log => log ++ [.stmt t] }
  | .exprs => { onExpr := fun e log => log ++ [.expr e] }
  | .stmts => { onStmt := fun t log => log ++ [.stmt t] }

theorem meet_step (r : Recording) (n : Node) (log : List Node) :
    n.meet r.step log = if r.keeps n then log ++ [n] else log := by
  cases r <;> cases n <;> rfl

theorem foldl_meet_step (r : Recording) (ns log : List Node) :
    ns.foldl (fun log n => n.meet r.step log) log = log ++ ns.filter r.keeps := by
  induction ns generalizing log with
  | nil => simp
  | cons n ns ih =>
    rw [List.foldl_cons, ih, meet_step, List.filter_cons]
    split <;> simp

end Recording

/-- The default walk meets every node once, in preorder. The nodes of a program have one listing by
position; the folds that write down all nodes, or expressions or statements only, write down exactly
that of it, and so does every visitor that writes them down and walks on. -/
theorem walk_lists_preorder (program : List Stmt) :
    ∃ listing : List Node, (∀ l, Preorder (program.map .stmt) l ↔ l = listing) ∧
      ∀ r : Recording, Stmt.foldAll r.step program [] = listing.filter r.keeps ∧
        ∀ v : Visitor (List Node), v.Walks r.step →
          v.visitStmts program [] = listing.filter r.keeps := by
  have listed := Preorder.listing (program.map .stmt)
  have recorded (r : Recording) (v : Visitor (List Node)) (walks : v.Walks r.step) :
      v.visitStmts program [] =
        ((program.map Node.stmt).flatMap Node.listing).filter r.keeps := by
    rw [walks.visitStmts_eq, r.foldl_meet_step, List.nil_append]
  refine ⟨(program.map Node.stmt).flatMap Node.listing, ?_, ?_⟩
  · intro l
    constructor
    · intro preorder
      exact preorder.unique listed
    · rintro rfl
      exact listed
  · intro r
    rw [← r.step.visitStmts_visitor]
    exact ⟨recorded r _ r.step.visitor_walks, recorded r⟩

/-- A call in the body of a function: its nodes are met through the function, the callee before the
argument. -/
theorem walk_lists_preorder_body :
    let f : Token := ⟨.identifier, "f", 1⟩
    let n : Token := ⟨.identifier, "n", 1⟩
    let paren : Token := ⟨.symbol .rightParen, ")", 1⟩
    let argument := Expr.unary ⟨.symbol .minus, "-", 1⟩ (.reference n)
    let call := Expr.call (.reference f) paren [argument]
    let body := Stmt.return_ ⟨.keyword .return_, "return", 1⟩ (some call)
    let program := [Stmt.function f [n] [body]]
    let v := Recording.exprs.step.visitor
    Preorder (program.map .stmt) [.stmt (.function f [n] [body]), .stmt body, .expr call,
        .expr (.reference f), .expr argument, .expr (.reference n)] ∧
      v.Walks Recording.exprs.step ∧
      v.visitStmts program [] =
        [.expr call, .expr (.reference f), .expr argument, .expr (.reference n)] := by
  intro f n paren argument call body program v
  have walks : v.Walks Recording.exprs.step := Recording.exprs.step.visitor_walks
  obtain ⟨listing, only, recorded⟩ := walk_lists_preorder program
  have all : listing = [.stmt (.function f [n] [body]), .stmt body, .expr call,
      .expr (.reference f), .expr argument, .expr (.reference n)] := by
    have every : listing.filter Recording.nodes.keeps = listing :=
      List.filter_eq_self.mpr fun _ _ => rfl
    exact every.symm.trans (recorded .nodes).1.symm
  have exprs := (recorded .exprs).2 v walks
  rw [all] at exprs
  exact ⟨(only _).mpr all.symm, walks, exprs⟩

end Lox
