import Lox.Session

/- Programs over any way to perform their actions. The evaluator is the one whose runner is the
   machine; a runner that also records what happens is another. Proofs about all programs go through
   the actions of a runner and do not open the evaluator again. -/
namespace Lox

/-- What code does to a machine, choosing what to do next and changing the scope apart. -/
inductive Act : Type → Type where
  | unary (op : Token) (operand : Value) : Act Value
  | binary (op : Token) (left right : Value) : Act Value
  | checkCount (paren : Token) (expected given : Nat) : Act Unit
  | lookup (name : Token) : Act Value
  | assign (name : Token) (value : Value) : Act Value
  | define (name : String) (value : Value) : Act Unit
  | print (value : Value) : Act Unit
  | declare (name : Token) (params : List Token) (body : List Stmt) : Act Unit
  | native (ref : NativeRef) (args : List Value) : Act Value

def Act.perform (natives : List Native) {α : Type} : Act α → Eval α
  | .unary op operand => unaryValue op operand
  | .binary op left right => binaryValue op left right
  | .checkCount paren expected given => Lox.checkCount paren expected given
  | .lookup name => Machine.lookup name
  | .assign name value => Machine.assign name value
  | .define name value => Machine.define name value
  | .print value => Machine.print value
  | .declare name params body => Machine.declare name params body
  | .native ref args => Machine.callNative natives ref args

/-- A way to run code: its actions, its failures, a block in a new scope, and the body of a call. -/
structure Runner (M : Type → Type) where
  act : {α : Type} → Act α → M α
  stop : {α : Type} → Stop → M α
  block : M Completion → M Completion
  enter : Closure → List Value → M Completion → M Completion

section Endings

variable {σ α β : Type}

def final (x : EStateM Stop σ α) (s : σ) : σ :=
  match x s with
  | .ok _ t => t
  | .error _ t => t

theorem final_bind (x : EStateM Stop σ α) (f : α → EStateM Stop σ β) (s : σ) :
    final (x >>= f) s = final x s ∨
      ∃ a, x s = .ok a (final x s) ∧ final (x >>= f) s = final (f a) (final x s) := by
  unfold final
  simp only [bind, EStateM.bind]
  cases x s with
  | ok a t => exact .inr ⟨a, rfl, rfl⟩
  | error why t => exact .inl rfl

theorem bind_of_ok {x : EStateM Stop σ α} {s t : σ} {a : α} (eq : x s = .ok a t)
    (f : α → EStateM Stop σ β) : (x >>= f) s = f a t := by
  simp only [bind, EStateM.bind, eq]

theorem eq_ok_of_bind {x : EStateM Stop σ α} {f : α → EStateM Stop σ β} {s t : σ}
    {b : β} (eq : (x >>= f) s = .ok b t) : ∃ a u, x s = .ok a u ∧ f a u = .ok b t := by
  simp only [bind, EStateM.bind] at eq
  cases first : x s with
  | ok a u =>
    rw [first] at eq
    exact ⟨a, u, rfl, eq⟩
  | error why u =>
    rw [first] at eq
    cases eq

end Endings

namespace Runner

section Code

variable {M : Type → Type} [Monad M] (r : Runner M)

mutual

def evaluate : Nat → Expr → M Value
  | 0, _ => r.stop .outOfFuel
  | _ + 1, .literal l => pure (.ofLiteral l)
  | fuel + 1, .grouping e => evaluate fuel e
  | fuel + 1, .unary op e => do r.act (.unary op (← evaluate fuel e))
  | fuel + 1, .binary a op b => do
    let left ← evaluate fuel a
    let right ← evaluate fuel b
    r.act (.binary op left right)
  | fuel + 1, .logical a op b => do
    let left ← evaluate fuel a
    if decides op left then pure left else evaluate fuel b
  | _ + 1, .reference name => r.act (.lookup name)
  | fuel + 1, .assign name e => do r.act (.assign name (← evaluate fuel e))
  | fuel + 1, .call f paren args => do
    let callee ← evaluate fuel f
    let values ← evaluateAll fuel args
    call fuel paren callee values

def evaluateAll : Nat → List Expr → M (List Value)
  | 0, _ => r.stop .outOfFuel
  | _ + 1, [] => pure []
  | fuel + 1, e :: es => do
    let v ← evaluate fuel e
    let vs ← evaluateAll fuel es
    pure (v :: vs)

def call : Nat → Token → Value → List Value → M Value
  | 0, _, _, _ => r.stop .outOfFuel
  | _ + 1, paren, .native ref, args => do
    r.act (.checkCount paren ref.arity args.length)
    r.act (.native ref args)
  | fuel + 1, paren, .function f, args => do
    r.act (.checkCount paren f.params.length args.length)
    let completion ← r.enter f args (executeAll fuel f.body)
    pure completion.value
  | _ + 1, paren, _, _ => r.stop (.fault ⟨.notCallable, paren.line⟩)

def execute : Nat → Stmt → M Completion
  | 0, _ => r.stop .outOfFuel
  | fuel + 1, .expression e => do
    let _ ← evaluate fuel e
    pure .normal
  | fuel + 1, .print e => do
    r.act (.print (← evaluate fuel e))
    pure .normal
  | _ + 1, .declare name none => do
    r.act (.define name.lexeme .nil)
    pure .normal
  | fuel + 1, .declare name (some e) => do
    r.act (.define name.lexeme (← evaluate fuel e))
    pure .normal
  | fuel + 1, .block body => r.block (executeAll fuel body)
  | fuel + 1, .ifThen c s => do
    let v ← evaluate fuel c
    if v.isTruthy then execute fuel s else pure .normal
  | fuel + 1, .ifElse c s t => do
    let v ← evaluate fuel c
    if v.isTruthy then execute fuel s else execute fuel t
  | fuel + 1, .loop c s => do
    let v ← evaluate fuel c
    if v.isTruthy then
      match ← execute fuel s with
      | .normal => execute fuel (.loop c s)
      | .returned v => pure (.returned v)
    else pure .normal
  | _ + 1, .function name params body => do
    r.act (.declare name params body)
    pure .normal
  | _ + 1, .return_ _ none => pure (.returned .nil)
  | fuel + 1, .return_ _ (some e) => do
    let v ← evaluate fuel e
    pure (.returned v)

def executeAll : Nat → List Stmt → M Completion
  | 0, _ => r.stop .outOfFuel
  | _ + 1, [] => pure .normal
  | fuel + 1, s :: ss => do
    match ← execute fuel s with
    | .normal => executeAll fuel ss
    | .returned v => pure (.returned v)

end

def interpret (fuel : Nat) : List Stmt → M Unit
  | [] => pure ()
  | s :: ss => do
    let _ ← r.execute fuel s
    interpret fuel ss

end Code

/-- The machine performs the actions and opens a new frame for each scope. -/
def machine (natives : List Native) : Runner Eval where
  act := Act.perform natives
  stop := throw
  block body := fun m => Machine.inFrame ⟨[], some m.current⟩ body m
  enter f args body := Machine.inFrame (f.callFrame args) body

structure IsEvaluator (natives : List Native) (fuel : Nat) : Prop where
  evaluate : (machine natives).evaluate fuel = Lox.evaluate natives fuel
  evaluateAll : (machine natives).evaluateAll fuel = Lox.evaluateAll natives fuel
  call : (machine natives).call fuel = Lox.call natives fuel
  execute : (machine natives).execute fuel = Lox.execute natives fuel
  executeAll : (machine natives).executeAll fuel = Lox.executeAll natives fuel

theorem isEvaluator (natives : List Native) (fuel : Nat) : IsEvaluator natives fuel := by
  induction fuel with
  | zero =>
    constructor
    · funext e; rw [Runner.evaluate, Lox.evaluate]; rfl
    · funext es; rw [Runner.evaluateAll, Lox.evaluateAll]; rfl
    · funext paren f args; rw [Runner.call, Lox.call]; rfl
    · funext s; rw [Runner.execute, Lox.execute]; rfl
    · funext ss; rw [Runner.executeAll, Lox.executeAll]; rfl
  | succ fuel ih =>
    obtain ⟨evaluate, evaluateAll, call, execute, executeAll⟩ := ih
    constructor
    · funext e
      cases e <;> simp only [Runner.evaluate, Lox.evaluate, evaluate, evaluateAll, call] <;> rfl
    · funext es
      cases es <;> simp only [Runner.evaluateAll, Lox.evaluateAll, evaluate, evaluateAll]
    · funext paren f args
      cases f <;> simp only [Runner.call, Lox.call, executeAll] <;> rfl
    · funext s
      cases s with
      | declare name value =>
        cases value <;> simp only [Runner.execute, Lox.execute, evaluate] <;> rfl
      | return_ keyword value =>
        cases value <;> simp only [Runner.execute, Lox.execute, evaluate]
      | expression e | print e =>
        rewrite [Runner.execute, Lox.execute, evaluate]
        rfl
      | block body =>
        rewrite [Runner.execute, Lox.execute, executeAll]
        rfl
      | ifThen condition body | ifElse condition body other | loop condition body =>
        rewrite [Runner.execute, Lox.execute, evaluate, execute]
        rfl
      | function name params body =>
        rewrite [Runner.execute, Lox.execute]
        rfl
    · funext ss
      cases ss with
      | nil =>
        rewrite [Runner.executeAll, Lox.executeAll]
        rfl
      | cons s ss =>
        rewrite [Runner.executeAll, Lox.executeAll, execute, executeAll]
        rfl

theorem machine_interpret (natives : List Native) (fuel : Nat) (ss : List Stmt) :
    (machine natives).interpret fuel ss = Lox.interpret natives fuel ss := by
  induction ss with
  | nil => rfl
  | cons s ss ih => rw [Runner.interpret, Lox.interpret, ih, (isEvaluator natives fuel).execute]

end Runner

/-- Code in an expression opens scopes of its own only; a statement also acts on the scope it is
in. -/
inductive Mode where
  | expression
  | statement

namespace Act

variable {α : Type}

def mode : Act α → Mode
  | .define _ _ | .declare _ _ _ => .statement
  | _ => .expression

def Given (good : Value → Prop) : Act α → Prop
  | .unary _ v | .assign _ v | .define _ v | .print v => good v
  | .binary _ v w => good v ∧ good w
  | .native _ args => ∀ v ∈ args, good v
  | .checkCount _ _ _ | .lookup _ | .declare _ _ _ => True

def Gives (good : Value → Prop) : Act α → α → Prop
  | .unary _ _, v | .binary _ _ _, v | .lookup _, v | .assign _ _, v | .native _ _, v => good v
  | .checkCount _ _ _, _ | .define _ _, _ | .print _, _ | .declare _ _ _, _ => True

end Act

def Completion.Gives (good : Value → Prop) : Completion → Prop
  | .normal => True
  | .returned v => good v

end Lox
