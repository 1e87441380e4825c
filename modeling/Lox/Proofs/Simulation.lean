import Lox.Proofs.Runner

/- The same code run side by side by two runners. They may number their frames differently, so a
   value of the one run is a renaming of the value of the other; worlds say which renaming, and a
   later world knows more frames. What the two do alike in every action and scope, they do alike in
   all code whose expressions satisfy a condition. -/
namespace Lox

def Closure.rename (ρ : Nat → Nat) (f : Closure) : Closure := { f with frame := ρ f.frame }

def Value.rename (ρ : Nat → Nat) : Value → Value
  | .function f => .function (f.rename ρ)
  | v => v

def Completion.rename (ρ : Nat → Nat) : Completion → Completion
  | .normal => .normal
  | .returned v => .returned (v.rename ρ)

def Act.rename (ρ : Nat → Nat) {α : Type} : Act α → Act α
  | .unary op v => .unary op (v.rename ρ)
  | .binary op v w => .binary op (v.rename ρ) (w.rename ρ)
  | .checkCount paren expected given => .checkCount paren expected given
  | .lookup name => .lookup name
  | .assign name v => .assign name (v.rename ρ)
  | .define name v => .define name (v.rename ρ)
  | .print v => .print (v.rename ρ)
  | .declare name params body => .declare name params body
  | .native ref args => .native ref (args.map (·.rename ρ))

@[simp] theorem Value.isTruthy_rename (ρ : Nat → Nat) (v : Value) :
    (v.rename ρ).isTruthy = v.isTruthy := by
  cases v <;> rfl

@[simp] theorem decides_rename (ρ : Nat → Nat) (op : Token) (v : Value) :
    decides op (v.rename ρ) = decides op v := by
  unfold decides
  rw [Value.isTruthy_rename]

theorem Completion.value_rename (ρ : Nat → Nat) (c : Completion) :
    (c.rename ρ).value = c.value.rename ρ := by
  cases c <;> rfl

@[simp] theorem Value.rename_self (v : Value) : v.rename (fun k => k) = v := by
  cases v <;> rfl

@[simp] theorem Closure.rename_self (f : Closure) : f.rename (fun k => k) = f := rfl

@[simp] theorem Act.rename_self {α : Type} (x : Act α) : x.rename (fun k => k) = x := by
  cases x <;> simp [Act.rename]

inductive Shape : Type → Type where
  | unit : Shape Unit
  | value : Shape Value
  | values : Shape (List Value)
  | completion : Shape Completion

namespace Shape

variable {α : Type}

def rename (ρ : Nat → Nat) : Shape α → α → α
  | .unit, a => a
  | .value, v => v.rename ρ
  | .values, vs => vs.map (·.rename ρ)
  | .completion, c => c.rename ρ

def Good (good : Value → Prop) : Shape α → α → Prop
  | .unit, _ => True
  | .value, v => good v
  | .values, vs => ∀ v ∈ vs, good v
  | .completion, c => c.Gives good

@[simp] theorem rename_self (s : Shape α) (a : α) : s.rename (fun k => k) a = a := by
  cases s with
  | unit => rfl
  | value => exact Value.rename_self a
  | values => simp [rename]
  | completion => cases a <;> simp [rename, Completion.rename]

end Shape

def Act.shape {α : Type} : Act α → Shape α
  | .unary _ _ | .binary _ _ _ | .lookup _ | .assign _ _ | .native _ _ => .value
  | .checkCount _ _ _ | .define _ _ | .print _ | .declare _ _ _ => .unit

mutual
def Expr.Every (p : Expr → Prop) : Expr → Prop
  | .literal l => p (.literal l)
  | .grouping e => p (.grouping e) ∧ e.Every p
  | .unary op e => p (.unary op e) ∧ e.Every p
  | .binary a op b => p (.binary a op b) ∧ a.Every p ∧ b.Every p
  | .logical a op b => p (.logical a op b) ∧ a.Every p ∧ b.Every p
  | .reference name => p (.reference name)
  | .assign name e => p (.assign name e) ∧ e.Every p
  | .call f paren args => p (.call f paren args) ∧ f.Every p ∧ Expr.EveryOf p args
def Expr.EveryOf (p : Expr → Prop) : List Expr → Prop
  | [] => True
  | e :: es => e.Every p ∧ Expr.EveryOf p es
end

mutual
def Stmt.Every (p : Expr → Prop) : Stmt → Prop
  | .expression e | .print e => e.Every p
  | .declare _ value => ∀ e ∈ value, e.Every p
  | .block body => Stmt.EveryOf p body
  | .ifThen c s => c.Every p ∧ s.Every p
  | .ifElse c s t => c.Every p ∧ s.Every p ∧ t.Every p
  | .loop c s => c.Every p ∧ s.Every p
  | .function _ _ body => Stmt.EveryOf p body
  | .return_ _ value => ∀ e ∈ value, e.Every p
def Stmt.EveryOf (p : Expr → Prop) : List Stmt → Prop
  | [] => True
  | s :: ss => s.Every p ∧ Stmt.EveryOf p ss
end

mutual
theorem Expr.every_of_forall {p : Expr → Prop} (all : ∀ e, p e) : ∀ e : Expr, e.Every p
  | .literal l => all (.literal l)
  | .grouping e => ⟨all (.grouping e), every_of_forall all e⟩
  | .unary op e => ⟨all (.unary op e), every_of_forall all e⟩
  | .binary a op b => ⟨all (.binary a op b), every_of_forall all a, every_of_forall all b⟩
  | .logical a op b => ⟨all (.logical a op b), every_of_forall all a, every_of_forall all b⟩
  | .reference name => all (.reference name)
  | .assign name e => ⟨all (.assign name e), every_of_forall all e⟩
  | .call f paren args =>
    ⟨all (.call f paren args), every_of_forall all f, everyOf_of_forall all args⟩
theorem Expr.everyOf_of_forall {p : Expr → Prop} (all : ∀ e, p e) :
    ∀ es : List Expr, Expr.EveryOf p es
  | [] => trivial
  | e :: es => ⟨every_of_forall all e, everyOf_of_forall all es⟩
end

mutual
theorem Stmt.every_of_forall {p : Expr → Prop} (all : ∀ e, p e) : ∀ s : Stmt, s.Every p
  | .expression e | .print e => Expr.every_of_forall all e
  | .declare _ _ | .return_ _ _ => fun e _ => Expr.every_of_forall all e
  | .block body | .function _ _ body => everyOf_of_forall all body
  | .ifThen c s | .loop c s => ⟨Expr.every_of_forall all c, every_of_forall all s⟩
  | .ifElse c s t =>
    ⟨Expr.every_of_forall all c, every_of_forall all s, every_of_forall all t⟩
theorem Stmt.everyOf_of_forall {p : Expr → Prop} (all : ∀ e, p e) :
    ∀ ss : List Stmt, Stmt.EveryOf p ss
  | [] => trivial
  | s :: ss => ⟨every_of_forall all s, everyOf_of_forall all ss⟩
end

/-- The action is one of an expression that satisfies `p`; a declared function has such a body, and
a host function that is called is `good`. -/
def Act.From (p : Expr → Prop) (good : Value → Prop) {α : Type} : Act α → Prop
  | .unary op _ => ∃ e, p (.unary op e)
  | .binary op _ _ => ∃ a b, p (.binary a op b)
  | .checkCount paren _ _ => ∃ f args, p (.call f paren args)
  | .lookup name => p (.reference name)
  | .assign name _ => ∃ e, p (.assign name e)
  | .declare _ _ body => Stmt.EveryOf p body
  | .native ref _ => good (.native ref)
  | .define _ _ | .print _ => True

inductive Stop.From (p : Expr → Prop) : Stop → Prop where
  | outOfFuel : From p .outOfFuel
  | notCallable {f : Expr} {paren : Token} {args : List Expr} (node : p (.call f paren args)) :
      From p (.fault ⟨.notCallable, paren.line⟩)

def Mode.join : Mode → Mode → Mode
  | .expression, mode => mode
  | .statement, _ => .statement

def Stmt.mode : Stmt → Mode
  | .declare _ _ | .function _ _ _ => .statement
  | .ifThen _ s | .loop _ s => s.mode
  | .ifElse _ s t => s.mode.join t.mode
  | .expression _ | .print _ | .block _ | .return_ _ _ => .expression

def Stmt.modeOf : List Stmt → Mode
  | [] => .expression
  | s :: ss => s.mode.join (modeOf ss)

namespace Runner

/-- Two runners that run code alike. `rel w mode s x y` says of `x` and `y`, run in a world `w`, that
they end alike in a later world. -/
structure Simulation {M N : Type → Type} [Monad M] [Monad N] (A : Runner M) (B : Runner N) where
  World : Type
  later : World → World → Prop
  rename : World → Nat → Nat
  good : World → Value → Prop
  node : Expr → Prop
  rel : World → Mode → {α : Type} → Shape α → M α → N α → Prop
  keep : ∀ {w w' : World} {v : Value}, later w w' → good w v →
    good w' v ∧ v.rename (rename w') = v.rename (rename w)
  literal : ∀ (w : World) (l : Literal), good w (.ofLiteral l)
  body : ∀ {w : World} {f : Closure}, good w (.function f) → Stmt.EveryOf node f.body
  pure : ∀ {w : World} {mode : Mode} {α : Type} {s : Shape α} {a : α}, s.Good (good w) a →
    rel w mode s (pure a) (pure (s.rename (rename w) a))
  bind : ∀ {w : World} {mode : Mode} {α β : Type} {s : Shape α} {t : Shape β} {x : M α} {y : N α}
    {f : α → M β} {g : α → N β}, rel w mode s x y →
    (∀ w' a, later w w' → s.Good (good w') a → rel w' mode t (f a) (g (s.rename (rename w') a))) →
    rel w mode t (x >>= f) (y >>= g)
  weaken : ∀ {w : World} {α : Type} {s : Shape α} {x : M α} {y : N α},
    rel w .expression s x y → rel w .statement s x y
  stop : ∀ {w : World} {mode : Mode} {α : Type} {s : Shape α} {why : Stop}, why.From node →
    rel w mode s (A.stop why) (B.stop why)
  act : ∀ {w : World} {α : Type} (x : Act α), x.Given (good w) → x.From node (good w) →
    rel w x.mode x.shape (A.act x) (B.act (x.rename (rename w)))
  block : ∀ {w : World} {x : M Completion} {y : N Completion},
    (∀ w', rel w' .statement .completion x y) →
    rel w .expression .completion (A.block x) (B.block y)
  enter : ∀ {w : World} {f : Closure} {args : List Value} {x : M Completion} {y : N Completion},
    good w (.function f) → (∀ v ∈ args, good w v) → (∀ w', rel w' .statement .completion x y) →
    rel w .expression .completion (A.enter f args x)
      (B.enter (f.rename (rename w)) (args.map (·.rename (rename w))) y)

section Simulation

variable {M N : Type → Type} [Monad M] [Monad N] {A : Runner M} {B : Runner N}

structure SimulatedRuns (S : Simulation A B) (fuel fuel' : Nat) : Prop where
  evaluate : ∀ w e, e.Every S.node →
    S.rel w .expression .value (A.evaluate fuel e) (B.evaluate fuel' e)
  evaluateAll : ∀ w es, Expr.EveryOf S.node es →
    S.rel w .expression .values (A.evaluateAll fuel es) (B.evaluateAll fuel' es)
  call : ∀ w paren f args, (∃ callee es, S.node (.call callee paren es)) → S.good w f →
    (∀ v ∈ args, S.good w v) →
    S.rel w .expression .value (A.call fuel paren f args)
      (B.call fuel' paren (f.rename (S.rename w)) (args.map (·.rename (S.rename w))))
  execute : ∀ w s, s.Every S.node →
    S.rel w s.mode .completion (A.execute fuel s) (B.execute fuel' s)
  executeAll : ∀ w ss, Stmt.EveryOf S.node ss →
    S.rel w (Stmt.modeOf ss) .completion (A.executeAll fuel ss) (B.executeAll fuel' ss)

namespace Simulation

variable (S : Simulation A B) {fuel fuel' : Nat} {w w' : S.World}

theorem keepAll {vs : List Value} (later : S.later w w') (good : ∀ v ∈ vs, S.good w v) :
    (∀ v ∈ vs, S.good w' v) ∧
      vs.map (·.rename (S.rename w')) = vs.map (·.rename (S.rename w)) :=
  ⟨fun v member => (S.keep later (good v member)).1,
    List.map_congr_left fun v member => (S.keep later (good v member)).2⟩

section Modes

variable {α : Type} {s : Shape α} {x : M α} {y : N α}

theorem inMode (mode : Mode) (runs : S.rel w .expression s x y) : S.rel w mode s x y := by
  cases mode with
  | expression => exact runs
  | statement => exact S.weaken runs

theorem inJoin_left {mode : Mode} (other : Mode) (runs : S.rel w mode s x y) :
    S.rel w (mode.join other) s x y := by
  cases mode with
  | expression => exact S.inMode other runs
  | statement => exact runs

theorem inJoin_right {mode : Mode} (other : Mode) (runs : S.rel w mode s x y) :
    S.rel w (other.join mode) s x y := by
  cases other with
  | expression => exact runs
  | statement =>
    cases mode with
    | expression => exact S.weaken runs
    | statement => exact runs

end Modes

theorem evaluate_succ (ih : SimulatedRuns S fuel fuel') (w : S.World) (e : Expr)
    (every : e.Every S.node) :
    S.rel w .expression .value (A.evaluate (fuel + 1) e) (B.evaluate (fuel' + 1) e) := by
  cases e with
  | literal l =>
    rw [Runner.evaluate, Runner.evaluate]
    have same : (Value.ofLiteral l).rename (S.rename w) = .ofLiteral l := by cases l <;> rfl
    have given : S.rel w .expression .value _ _ := S.pure (S.literal w l)
    rw [Shape.rename, same] at given
    exact given
  | grouping e =>
    rw [Runner.evaluate, Runner.evaluate]
    exact ih.evaluate w e every.2
  | unary op e =>
    rw [Runner.evaluate, Runner.evaluate]
    refine S.bind (ih.evaluate w e every.2) fun w₁ v _ good => ?_
    exact S.act (.unary op v) good ⟨e, every.1⟩
  | binary a op b =>
    rw [Runner.evaluate, Runner.evaluate]
    obtain ⟨node, first, second⟩ := every
    refine S.bind (ih.evaluate w a first) fun w₁ left _ good => ?_
    refine S.bind (ih.evaluate w₁ b second) fun w₂ right later good' => ?_
    obtain ⟨kept, same⟩ := S.keep later good
    have runs := S.act (.binary op left right) ⟨kept, good'⟩ ⟨a, b, node⟩
    rw [Act.rename, same] at runs
    exact runs
  | logical a op b =>
    rw [Runner.evaluate, Runner.evaluate]
    obtain ⟨node, first, second⟩ := every
    refine S.bind (ih.evaluate w a first) fun w₁ left _ good => ?_
    simp only [Shape.rename, decides_rename]
    by_cases decided : decides op left
    · simp only [decided, if_true]
      exact S.pure (s := .value) good
    · simp only [decided]
      exact ih.evaluate w₁ b second
  | reference name =>
    rw [Runner.evaluate, Runner.evaluate]
    exact S.act (.lookup name) trivial every
  | assign name e =>
    rw [Runner.evaluate, Runner.evaluate]
    refine S.bind (ih.evaluate w e every.2) fun w₁ v _ good => ?_
    exact S.act (.assign name v) good ⟨e, every.1⟩
  | call f paren args =>
    rw [Runner.evaluate, Runner.evaluate]
    obtain ⟨node, first, second⟩ := every
    refine S.bind (ih.evaluate w f first) fun w₁ callee _ good => ?_
    refine S.bind (ih.evaluateAll w₁ args second) fun w₂ values later goods => ?_
    obtain ⟨kept, same⟩ := S.keep later good
    have runs := ih.call w₂ paren callee values ⟨f, args, node⟩ kept goods
    rw [same] at runs
    exact runs

theorem evaluateAll_succ (ih : SimulatedRuns S fuel fuel') (w : S.World) (es : List Expr)
    (every : Expr.EveryOf S.node es) :
    S.rel w .expression .values (A.evaluateAll (fuel + 1) es) (B.evaluateAll (fuel' + 1) es) := by
  cases es with
  | nil =>
    rw [Runner.evaluateAll, Runner.evaluateAll]
    have none : Shape.values.Good (S.good w) [] := List.forall_mem_nil _
    exact S.pure none
  | cons e es =>
    rw [Runner.evaluateAll, Runner.evaluateAll]
    refine S.bind (ih.evaluate w e every.1) fun w₁ v _ good => ?_
    refine S.bind (ih.evaluateAll w₁ es every.2) fun w₂ vs later goods => ?_
    obtain ⟨kept, same⟩ := S.keep later good
    have all : Shape.values.Good (S.good w₂) (v :: vs) := List.forall_mem_cons.mpr ⟨kept, goods⟩
    have runs : S.rel w₂ .expression .values _ _ := S.pure all
    rw [Shape.rename, List.map_cons, same] at runs
    exact runs

theorem call_succ (ih : SimulatedRuns S fuel fuel') (w : S.World) (paren : Token) (f : Value)
    (args : List Value) (node : ∃ callee es, S.node (.call callee paren es)) (good : S.good w f)
    (goods : ∀ v ∈ args, S.good w v) :
    S.rel w .expression .value (A.call (fuel + 1) paren f args)
      (B.call (fuel' + 1) paren (f.rename (S.rename w)) (args.map (·.rename (S.rename w)))) := by
  obtain ⟨callee, es, node⟩ := node
  cases f with
  | native ref =>
    rw [Value.rename, Runner.call, Runner.call, List.length_map]
    · refine S.bind (S.act (.checkCount paren ref.arity args.length) trivial ⟨_, _, node⟩) ?_
      intro w₁ _ later _
      obtain ⟨kept, same⟩ := S.keepAll later goods
      rw [← same]
      exact S.act (.native ref args) kept (S.keep later good).1
    · intro c same
      cases same
  | function f =>
    rw [Value.rename, Runner.call, Runner.call, List.length_map]
    refine S.bind (S.act (.checkCount paren f.params.length args.length) trivial ⟨_, _, node⟩) ?_
    intro w₁ _ later _
    obtain ⟨kept, same⟩ := S.keep later good
    obtain ⟨kepts, sames⟩ := S.keepAll later goods
    have same' : f.rename (S.rename w₁) = f.rename (S.rename w) := Value.function.inj same
    have entered := S.enter kept kepts fun w₂ =>
      S.inJoin_right .statement (ih.executeAll w₂ f.body (S.body kept))
    rw [same', sames] at entered
    refine S.bind entered fun w₂ completion _ gives => ?_
    rw [Shape.rename, Completion.value_rename]
    cases completion with
    | normal => exact S.pure (s := .value) (S.literal w₂ .nil)
    | returned v => exact S.pure (s := .value) gives
  | _ =>
    simp only [Value.rename, Runner.call]
    exact S.stop (.notCallable node)

theorem andThen {mode : Mode} {x : M Completion} {y : N Completion} {f : M Completion}
    {g : N Completion} (first : S.rel w mode .completion x y)
    (second : ∀ w', S.rel w' mode .completion f g) :
    S.rel w mode .completion
      (x >>= fun
        | .normal => f
        | .returned v => Pure.pure (.returned v))
      (y >>= fun
        | .normal => g
        | .returned v => Pure.pure (.returned v)) := by
  refine S.bind first fun w₁ completion _ gives => ?_
  cases completion with
  | normal => exact second w₁
  | returned v => exact S.pure (s := .completion) gives

theorem normal (mode : Mode) :
    S.rel w mode .completion (Pure.pure .normal) (Pure.pure .normal) :=
  S.pure (s := .completion) trivial

theorem execute_succ (ih : SimulatedRuns S fuel fuel') (w : S.World) (s : Stmt)
    (every : s.Every S.node) :
    S.rel w s.mode .completion (A.execute (fuel + 1) s) (B.execute (fuel' + 1) s) := by
  cases s with
  | expression e =>
    rw [Runner.execute, Runner.execute]
    exact S.bind (ih.evaluate w e every) fun _ _ _ _ => S.normal _
  | print e =>
    rw [Runner.execute, Runner.execute]
    refine S.bind (ih.evaluate w e every) fun w₁ v _ good => ?_
    exact S.bind (S.act (.print v) good trivial) fun _ _ _ _ => S.normal _
  | declare name value =>
    cases value with
    | none =>
      rw [Runner.execute, Runner.execute]
      have nil : S.good w .nil := S.literal w .nil
      exact S.bind (S.act (.define name.lexeme .nil) nil trivial) fun _ _ _ _ => S.normal _
    | some e =>
      rw [Runner.execute, Runner.execute]
      refine S.bind (S.weaken (ih.evaluate w e (every e rfl))) fun w₁ v _ good => ?_
      exact S.bind (S.act (.define name.lexeme v) good trivial) fun _ _ _ _ => S.normal _
  | block body =>
    rw [Runner.execute, Runner.execute]
    exact S.block fun w' => S.inJoin_right .statement (ih.executeAll w' body every)
  | ifThen c s =>
    rw [Runner.execute, Runner.execute]
    refine S.bind (S.inMode _ (ih.evaluate w c every.1)) fun w₁ v _ _ => ?_
    simp only [Shape.rename, Value.isTruthy_rename]
    by_cases truthy : v.isTruthy
    · simp only [truthy, if_true]
      exact ih.execute w₁ s every.2
    · simp only [truthy]
      exact S.normal _
  | ifElse c s t =>
    rw [Runner.execute, Runner.execute]
    obtain ⟨condition, first, second⟩ := every
    refine S.bind (S.inMode _ (ih.evaluate w c condition)) fun w₁ v _ _ => ?_
    simp only [Shape.rename, Value.isTruthy_rename]
    by_cases truthy : v.isTruthy
    · simp only [truthy, if_true]
      exact S.inJoin_left _ (ih.execute w₁ s first)
    · simp only [truthy]
      exact S.inJoin_right _ (ih.execute w₁ t second)
  | loop c s =>
    rw [Runner.execute, Runner.execute]
    refine S.bind (S.inMode _ (ih.evaluate w c every.1)) fun w₁ v _ _ => ?_
    simp only [Shape.rename, Value.isTruthy_rename]
    by_cases truthy : v.isTruthy
    · simp only [truthy, if_true]
      exact S.andThen (ih.execute w₁ s every.2) fun w₂ => ih.execute w₂ (.loop c s) every
    · simp only [truthy]
      exact S.normal _
  | function name params body =>
    rw [Runner.execute, Runner.execute]
    exact S.bind (S.act (.declare name params body) trivial every) fun _ _ _ _ => S.normal _
  | return_ keyword value =>
    cases value with
    | none =>
      rw [Runner.execute, Runner.execute]
      exact S.pure (s := .completion) (S.literal w .nil)
    | some e =>
      rw [Runner.execute, Runner.execute]
      refine S.bind (ih.evaluate w e (every e rfl)) fun w₁ v _ good => ?_
      exact S.pure (s := .completion) good

theorem executeAll_succ (ih : SimulatedRuns S fuel fuel') (w : S.World) (ss : List Stmt)
    (every : Stmt.EveryOf S.node ss) :
    S.rel w (Stmt.modeOf ss) .completion (A.executeAll (fuel + 1) ss)
      (B.executeAll (fuel' + 1) ss) := by
  cases ss with
  | nil =>
    rw [Runner.executeAll, Runner.executeAll]
    exact S.normal _
  | cons s ss =>
    rw [Runner.executeAll, Runner.executeAll]
    refine S.andThen (S.inJoin_left _ (ih.execute w s every.1)) fun w₁ => ?_
    exact S.inJoin_right _ (ih.executeAll w₁ ss every.2)

theorem runs_succ (ih : SimulatedRuns S fuel fuel') : SimulatedRuns S (fuel + 1) (fuel' + 1) :=
  ⟨S.evaluate_succ ih, S.evaluateAll_succ ih, S.call_succ ih, S.execute_succ ih,
    S.executeAll_succ ih⟩

theorem runs_zero
    (stops : ∀ {w mode α} {s : Shape α} (y : N α), (fuel' = 0 → y = B.stop .outOfFuel) →
      S.rel w mode s (A.stop .outOfFuel) y) : SimulatedRuns S 0 fuel' := by
  constructor
  · intro w e _
    rw [Runner.evaluate]
    exact stops _ fun none => by rw [none, Runner.evaluate]
  · intro w es _
    rw [Runner.evaluateAll]
    exact stops _ fun none => by rw [none, Runner.evaluateAll]
  · intro w paren f args _ _ _
    rw [Runner.call]
    exact stops _ fun none => by rw [none, Runner.call]
  · intro w s _
    rw [Runner.execute]
    exact stops _ fun none => by rw [none, Runner.execute]
  · intro w ss _
    rw [Runner.executeAll]
    exact stops _ fun none => by rw [none, Runner.executeAll]

/-- Runners that simulate each other run everything alike. -/
theorem runs (fuel : Nat) : SimulatedRuns S fuel fuel := by
  induction fuel with
  | zero =>
    refine S.runs_zero fun y stopped => ?_
    rw [stopped rfl]
    exact S.stop .outOfFuel
  | succ fuel ih => exact S.runs_succ ih

/-- Where nothing is claimed of a run without fuel, the second runner may have more of it. -/
theorem runs_of_le {fuel fuel' : Nat} (le : fuel ≤ fuel')
    (spent : ∀ {w mode α} {s : Shape α} (y : N α), S.rel w mode s (A.stop .outOfFuel) y) :
    SimulatedRuns S fuel fuel' := by
  induction fuel generalizing fuel' with
  | zero => exact S.runs_zero fun y _ => spent y
  | succ fuel ih =>
    obtain ⟨more, rfl⟩ := Nat.exists_eq_succ_of_ne_zero (Nat.ne_of_gt (Nat.zero_lt_of_lt le))
    exact S.runs_succ (ih (Nat.le_of_succ_le_succ le))

theorem interpret (fuel : Nat) (w : S.World) (ss : List Stmt) (every : Stmt.EveryOf S.node ss) :
    S.rel w .statement .unit (A.interpret fuel ss) (B.interpret fuel ss) := by
  induction ss generalizing w with
  | nil => exact S.pure (s := .unit) trivial
  | cons s ss ih =>
    have first := S.inJoin_right .statement ((S.runs fuel).execute w s every.1)
    exact S.bind first fun w₁ _ _ _ => ih w₁ every.2

end Simulation
end Simulation
end Runner
end Lox
