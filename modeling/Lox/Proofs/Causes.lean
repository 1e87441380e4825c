import Lox.Proofs.Safety
import Lox.Proofs.Trace

/- Where faults come from. Only an expression that is being evaluated raises a fault, and the fault says
   what can go wrong at that very expression and on which line its token is. Functions carry their
   bodies with them, so the expression can stand in any tree that was executed before. -/
namespace Lox

/-- What can go wrong at the expression itself: the message, and the line of the token that it is
about. A call is on the line of its closing parenthesis. -/
inductive Expr.Explains : Expr → String → Nat → Prop where
  | reference (name : Token) :
      Explains (.reference name) ("Undefined variable '" ++ name.lexeme ++ "'.") name.line
  | assign (name : Token) (value : Expr) :
      Explains (.assign name value) ("Undefined variable '" ++ name.lexeme ++ "'.") name.line
  | negation {op : Token} (operand : Expr) (minus : op.kind = .symbol .minus) :
      Explains (.unary op operand) "Operand must be a number." op.line
  | arithmetic {op : Token} {s : Symbol} (left right : Expr) (symbol : op.kind = .symbol s)
      (numeric : s ∈ [.minus, .star, .slash, .greater, .greaterEqual, .less, .lessEqual]) :
      Explains (.binary left op right) "Operands must be numbers." op.line
  | addition {op : Token} (left right : Expr) (plus : op.kind = .symbol .plus) :
      Explains (.binary left op right) "Operands must be two numbers or two strings." op.line
  | callee {close : Token} (callee : Expr) (args : List Expr)
      (closes : close.kind = .symbol .rightParen) :
      Explains (.call callee close args) "Can only call functions and classes." close.line
  | count {close : Token} {expected : Nat} (callee : Expr) (args : List Expr)
      (closes : close.kind = .symbol .rightParen) (differs : expected ≠ args.length) :
      Explains (.call callee close args)
        ("Expected " ++ toString expected ++ " arguments but got " ++ toString args.length ++ ".")
        close.line

def Expr.Raises (e : Expr) (f : Fault) : Prop := e.Explains f.cause.message f.line

def Expr.Closed : Expr → Prop
  | .call _ close _ => close.kind = .symbol .rightParen
  | _ => True

def Store.Holds (good : Value → Prop) (s : Store) : Prop :=
  ∀ k f, s.frame? k = some f → ∀ binding ∈ f.bindings, good binding.2

namespace Store.Holds

variable {good : Value → Prop} {s : Store} (holds : s.Holds good)
include holds

theorem define (i : Nat) (name : String) {value : Value} (given : good value) :
    (s.define i name value).Holds good := by
  intro k f found binding member
  rw [frame_define] at found
  split at found
  · obtain ⟨g, frame, rfl⟩ := Option.map_eq_some_iff.mp found
    rcases mem_bindName member with rfl | member
    · exact given
    · exact holds k g frame binding member
  · exact holds k f found binding member

theorem push {frame : Frame} (given : ∀ binding ∈ frame.bindings, good binding.2) :
    (s.push frame).Holds good := by
  intro k f found
  rw [frame_push] at found
  split at found
  · cases found
    exact given
  · exact holds k f found

theorem lookup {name : String} {i : Nat} {value : Value} (found : s.lookup? name i = some value) :
    good value := by
  obtain ⟨k, -, found⟩ := Option.bind_eq_some_iff.mp found
  obtain ⟨f, frame, bound⟩ := Option.bind_eq_some_iff.mp found
  exact holds k f frame (name, value) (mem_of_lookup bound)

end Store.Holds

/-- A function of the program has a body of expressions that satisfy `p`. -/
def Value.BuiltOf (p : Expr → Prop) : Value → Prop
  | .function c => Stmt.EveryOf p c.body
  | _ => True

section Values

variable {p : Expr → Prop}

theorem Value.builtOf_of_not_function {v : Value} (other : ¬ v.IsFunction) : v.BuiltOf p := by
  cases v with
  | function c => exact absurd trivial other
  | _ => trivial

theorem Value.Sound.builtOf {natives : List Native} {v : Value} (sound : v.Sound natives 0) :
    v.BuiltOf p := by
  cases v with
  | function c => exact absurd sound.1 (Nat.not_lt_zero _)
  | _ => trivial

theorem Machine.start_holds (natives : List Native) :
    (Machine.start natives).store.Holds (Value.BuiltOf p) := by
  have along : ∀ (fs : List (Native × Nat)) (s : Store), s.Holds (Value.BuiltOf p) →
      (fs.foldl (fun s f => s.define globals f.1.name (.native (f.1.ref f.2))) s).Holds
        (Value.BuiltOf p) := by
    intro fs
    induction fs with
    | nil => exact fun _ holds => holds
    | cons f fs ih => exact fun s holds => ih _ (holds.define globals f.1.name trivial)
  have none : Store.empty.Holds (Value.BuiltOf p) := by simp [Store.Holds, Store.empty, Store.frame?]
  exact along natives.zipIdx _ (none.push (by simp))

end Values

section Actions

variable {α : Type} {p : Expr → Prop} {e : Expr} {good : α → Prop}

inductive ExplainedEnd (p : Expr → Prop) (e : Expr) (good : α → Prop) :
    EStateM.Result Stop Machine α → Prop where
  | ok {a : α} {n : Machine} (holds : n.store.Holds (Value.BuiltOf p)) (given : good a) :
      ExplainedEnd p e good (.ok a n)
  | fault {f : Fault} {n : Machine} (holds : n.store.Holds (Value.BuiltOf p)) (raises : e.Raises f) :
      ExplainedEnd p e good (.error (.fault f) n)
  | stuck {what : Stuck} {n : Machine} (holds : n.store.Holds (Value.BuiltOf p)) :
      ExplainedEnd p e good (.error (.stuck what) n)

def Explained (p : Expr → Prop) (e : Expr) (good : α → Prop) (x : Eval α) : Prop :=
  ∀ m : Machine, m.store.Holds (Value.BuiltOf p) → ExplainedEnd p e good (x m)

namespace Explained

theorem value {a : α} (given : good a) : Explained p e good (pure a) :=
  fun _ holds => .ok holds given

theorem raise {t : Token} {cause : Cause} (raises : e.Raises ⟨cause, t.line⟩) :
    Explained p e good (Machine.raise t cause) :=
  fun _ holds => .fault holds raises

theorem stuck (what : Stuck) : Explained p e good (throw (.stuck what)) :=
  fun _ holds => .stuck holds

theorem unary (op : Token) (operand : Expr) (v : Value) :
    Explained p (.unary op operand) (Value.BuiltOf p) (unaryValue op v) := by
  unfold unaryValue
  split
  · rename_i minus
    split
    · exact .value trivial
    · exact .raise (.negation operand minus)
  · exact .value trivial
  · exact .stuck _

theorem binary (left right : Expr) (op : Token) (v w : Value) :
    Explained p (.binary left op right) (Value.BuiltOf p) (binaryValue op v w) := by
  unfold binaryValue
  split
  · exact .value trivial
  · exact .value trivial
  · rename_i plus
    split
    · exact .value trivial
    · exact .value trivial
    · exact .raise (.addition left right plus)
  · rename_i s notEqual notUnequal notPlus symbol
    split
    · rename_i f arithmetic
      split
      · exact .value (Value.builtOf_of_not_function (arithmetic_gives arithmetic _ _))
      · refine .raise (.arithmetic left right symbol ?_)
        cases s <;> first | decide | cases arithmetic
    · exact .stuck _
  · exact .stuck _

theorem checkCount {callee : Expr} {close : Token} {args : List Expr}
    (closed : (Expr.call callee close args).Closed) (expected : Nat) :
    Explained p (.call callee close args) (fun _ => True)
      (checkCount close expected args.length) := by
  unfold Lox.checkCount
  split
  · exact .value trivial
  · rename_i differs
    exact .raise (.count callee args closed fun same => differs same.symm)

theorem lookup (name : Token) :
    Explained p (.reference name) (Value.BuiltOf p) (Machine.lookup name) := by
  intro m holds
  rw [Machine.lookup_eq]
  cases found : m.store.lookup? name.lexeme m.current with
  | none => exact .fault holds (.reference name)
  | some value => exact .ok holds (holds.lookup found)

theorem assign (name : Token) (value : Expr) {v : Value} (given : v.BuiltOf p) :
    Explained p (.assign name value) (Value.BuiltOf p) (Machine.assign name v) := by
  intro m holds
  rw [Machine.assign_eq]
  cases m.store.resolve? name.lexeme m.current with
  | none => exact .fault holds (.assign name value)
  | some k => exact .ok (holds.define k name.lexeme given) given

theorem callNative {natives : List Native} (faithful : ∀ f ∈ natives, f.Faithful natives)
    (ref : NativeRef) {args : List Value} (given : ∀ v ∈ args, v.BuiltOf p) :
    Explained p e (Value.BuiltOf p) (Machine.callNative natives ref args) := by
  intro m holds
  rw [Machine.callNative_eq]
  cases found : natives[ref.slot]? with
  | none => exact .stuck holds
  | some f =>
    refine .ok holds ?_
    rcases faithful f (List.mem_of_getElem? found) m.hostCalls args with own | member
    · exact own.builtOf
    · exact given _ member

end Explained

end Actions

/-- How traced code ends that started after some events: with a good result, or, if it is a fault, with
one that an expression explains which satisfies `p` and whose evaluation has begun. -/
inductive Traced.CausedEnd {α : Type} (p : Expr → Prop) (good : α → Prop) (before : List Event) :
    EStateM.Result Stop Watched α → Prop where
  | ok {a : α} {w : Watched} (grows : before ⊆ w.events)
      (holds : w.machine.store.Holds (Value.BuiltOf p)) (given : good a) :
      CausedEnd p good before (.ok a w)
  | error {why : Stop} {w : Watched} (holds : w.machine.store.Holds (Value.BuiltOf p))
      (caused : ∀ f, why = .fault f → ∃ e, .evaluates e ∈ w.events ∧ p e ∧ e.Raises f) :
      CausedEnd p good before (.error why w)

def Caused {α : Type} (p : Expr → Prop) (begun : List Expr) (good : α → Prop) (x : Traced α) : Prop :=
  ∀ w : Watched, w.machine.store.Holds (Value.BuiltOf p) →
    (∀ e ∈ begun, p e ∧ .evaluates e ∈ w.events) → Traced.CausedEnd p good w.events (x w)

namespace Caused

variable {α β : Type} {p : Expr → Prop} {begun : List Expr} {good : α → Prop} {good' : β → Prop}
  {x : Traced α}

theorem pure {a : α} (given : good a) : Caused p begun good (Pure.pure a) :=
  fun _ holds _ => .ok (List.Subset.refl _) holds given

theorem outOfFuel : Caused p begun good (throw .outOfFuel) :=
  fun _ holds _ => .error holds nofun

theorem weaken (caused : Caused p [] good x) : Caused p begun good x :=
  fun w holds _ => caused w holds (List.forall_mem_nil _)

theorem bind {f : α → Traced β} (first : Caused p begun good x)
    (second : ∀ a, good a → Caused p begun good' (f a)) : Caused p begun good' (x >>= f) := by
  intro w holds open_
  have ends := first w holds open_
  simp only [Bind.bind, EStateM.bind]
  generalize x w = r at ends ⊢
  cases ends with
  | error holds' caused => exact .error holds' caused
  | @ok a w' grows holds' given =>
    show Traced.CausedEnd p good' w.events (f a w')
    have still : ∀ e ∈ begun, p e ∧ .evaluates e ∈ w'.events :=
      fun e member => ⟨(open_ e member).1, grows (open_ e member).2⟩
    have ends' := second a given w' holds' still
    generalize f a w' = r' at ends' ⊢
    cases ends' with
    | ok grows' holds'' given' => exact .ok (List.Subset.trans grows grows') holds'' given'
    | error holds'' caused => exact .error holds'' caused

theorem lift {e : Expr} {x : Eval α} (member : e ∈ begun)
    (explained : Explained p e good x) : Caused p begun good (Traced.lift x) := by
  intro w holds open_
  have ends := explained w.machine holds
  obtain ⟨satisfies, started⟩ := open_ e member
  unfold Traced.lift
  generalize x w.machine = r at ends ⊢
  cases ends with
  | ok holds' given => exact .ok (List.Subset.refl _) holds' given
  | stuck holds' => exact .error holds' nofun
  | fault holds' raises =>
    refine .error holds' ?_
    rintro f ⟨⟩
    exact ⟨e, started, satisfies, raises⟩

theorem always {x : Eval Unit}
    (next : ∀ m : Machine, m.store.Holds (Value.BuiltOf p) →
      ∃ n : Machine, n.store.Holds (Value.BuiltOf p) ∧ x m = .ok () n) :
    Caused p begun (fun _ => True) (Traced.lift x) := by
  intro w holds _
  obtain ⟨n, holds', eq⟩ := next w.machine holds
  simp only [Traced.lift, eq]
  exact .ok (List.Subset.refl _) holds' trivial

theorem note (event : Event) : Caused p begun (fun _ => True) (Traced.note event) :=
  fun w holds _ => .ok (List.subset_append_left w.events [event]) holds trivial

theorem evaluates {e : Expr} (satisfies : p e) (inner : Caused p [e] good x) :
    Caused p [] good (Traced.note (.evaluates e) >>= fun _ => x) := by
  intro w holds _
  have begun : ∀ e' ∈ [e], p e' ∧ .evaluates e' ∈ w.events ++ [.evaluates e] := by
    intro e' member
    cases List.mem_singleton.mp member
    exact ⟨satisfies, List.mem_append_right _ List.mem_cons_self⟩
  have ends := inner ⟨w.machine, w.events ++ [.evaluates e]⟩ holds begun
  show Traced.CausedEnd p good w.events (x ⟨w.machine, w.events ++ [.evaluates e]⟩)
  generalize x _ = r at ends ⊢
  cases ends with
  | ok grows holds' given =>
    exact .ok (List.Subset.trans (List.subset_append_left _ _) grows) holds' given
  | error holds' caused => exact .error holds' caused

theorem inFrame (frame : Machine → Frame)
    (given : ∀ m, ∀ binding ∈ (frame m).bindings, binding.2.BuiltOf p) (inner : Caused p [] good x) :
    Caused p begun good fun w => Traced.inFrame (frame w.machine) x w := by
  intro w holds _
  have ends := inner ⟨w.machine.inside (frame w.machine), w.events⟩ (holds.push (given _))
    (List.forall_mem_nil _)
  simp only [Traced.inFrame]
  generalize x _ = r at ends ⊢
  cases ends with
  | ok grows holds' given => exact .ok grows holds' given
  | error holds' caused => exact .error holds' caused

theorem inCall (f : Closure) {args : List Value} (given : ∀ v ∈ args, v.BuiltOf p)
    {x : Traced Completion} (inner : Caused p [] (Completion.Gives (Value.BuiltOf p)) x) :
    Caused p begun (Value.BuiltOf p) (Traced.inCall f args x) := by
  intro w holds _
  have body : Caused p [] (Completion.Gives (Value.BuiltOf p))
      fun w => Traced.inFrame (f.callFrame args) x w :=
    inner.inFrame (fun _ => f.callFrame args) fun _ => f.callFrame_values given
  have ends := body ⟨w.machine, w.events ++ [.calls f]⟩ holds (List.forall_mem_nil _)
  unfold Traced.inCall
  simp only at ends
  generalize Traced.inFrame (f.callFrame args) x _ = r at ends ⊢
  cases ends with
  | @ok how w' grows holds' gives =>
    refine .ok (fun event member => ?_) holds' ?_
    · exact List.mem_append_left _ (grows (List.mem_append_left _ member))
    · cases how with
      | normal => trivial
      | returned v => exact gives
  | error holds' caused =>
    refine .error holds' fun f' same => ?_
    obtain ⟨e, started, cause⟩ := caused f' same
    exact ⟨e, List.mem_append_left _ started, cause⟩

theorem andThen {good : Value → Prop} {x y : Traced Completion}
    (first : Caused p begun (Completion.Gives good) x)
    (second : Caused p begun (Completion.Gives good) y) :
    Caused p begun (Completion.Gives good) (do
      match ← x with
      | .normal => y
      | .returned v => Pure.pure (.returned v)) := by
  refine first.bind fun how gives => ?_
  cases how with
  | normal => exact second
  | returned v => exact .pure gives

end Caused

structure CausedRuns (p : Expr → Prop) (natives : List Native) (fuel : Nat) : Prop where
  evaluate : ∀ e, e.Every p → Caused p [] (Value.BuiltOf p) (Traced.evaluate natives fuel e)
  evaluateAll : ∀ es, Expr.EveryOf p es →
    Caused p [] (fun vs => vs.length = es.length ∧ ∀ v ∈ vs, v.BuiltOf p)
      (Traced.evaluateAll natives fuel es)
  call : ∀ callee close args, (Expr.call callee close args).Closed → ∀ f vs,
    vs.length = args.length → f.BuiltOf p → (∀ v ∈ vs, v.BuiltOf p) →
    Caused p [.call callee close args] (Value.BuiltOf p) (Traced.call natives fuel close f vs)
  execute : ∀ s, s.Every p →
    Caused p [] (Completion.Gives (Value.BuiltOf p)) (Traced.execute natives fuel s)
  executeAll : ∀ ss, Stmt.EveryOf p ss →
    Caused p [] (Completion.Gives (Value.BuiltOf p)) (Traced.executeAll natives fuel ss)

namespace CausedRuns

variable {p : Expr → Prop} {natives : List Native} {fuel : Nat} (ih : CausedRuns p natives fuel)
include ih

theorem evaluate_succ (closed : ∀ e, p e → e.Closed) (e : Expr) (every : e.Every p) :
    Caused p [] (Value.BuiltOf p) (Traced.evaluate natives (fuel + 1) e) := by
  cases e with
  | literal l =>
    rw [Traced.evaluate]
    refine .evaluates every ?_
    cases l <;> exact .pure trivial
  | grouping e =>
    rw [Traced.evaluate]
    refine .evaluates every.1 ?_
    exact (ih.evaluate e every.2).weaken
  | unary op e =>
    rw [Traced.evaluate]
    refine .evaluates every.1 ?_
    refine (ih.evaluate e every.2).weaken.bind fun v _ => ?_
    exact .lift List.mem_cons_self (.unary op e v)
  | binary a op b =>
    rw [Traced.evaluate]
    obtain ⟨node, first, second⟩ := every
    refine .evaluates node ?_
    refine (ih.evaluate a first).weaken.bind fun v _ => ?_
    refine (ih.evaluate b second).weaken.bind fun w _ => ?_
    exact .lift List.mem_cons_self (.binary a b op v w)
  | logical a op b =>
    rw [Traced.evaluate]
    obtain ⟨node, first, second⟩ := every
    refine .evaluates node ?_
    refine (ih.evaluate a first).weaken.bind fun v given => ?_
    split
    · exact .pure given
    · exact (ih.evaluate b second).weaken
  | reference name =>
    rw [Traced.evaluate]
    refine .evaluates every ?_
    exact .lift List.mem_cons_self (.lookup name)
  | assign name e =>
    rw [Traced.evaluate]
    refine .evaluates every.1 ?_
    refine (ih.evaluate e every.2).weaken.bind fun v given => ?_
    exact .lift List.mem_cons_self (.assign name e given)
  | call f close args =>
    rw [Traced.evaluate]
    obtain ⟨node, first, second⟩ := every
    refine .evaluates node ?_
    refine (ih.evaluate f first).weaken.bind fun callee given => ?_
    refine (ih.evaluateAll args second).weaken.bind fun values givens => ?_
    exact ih.call f close args (closed _ node) callee values givens.1 given givens.2

theorem evaluateAll_succ (es : List Expr) (every : Expr.EveryOf p es) :
    Caused p [] (fun vs => vs.length = es.length ∧ ∀ v ∈ vs, v.BuiltOf p)
      (Traced.evaluateAll natives (fuel + 1) es) := by
  cases es with
  | nil =>
    rw [Traced.evaluateAll]
    exact .pure ⟨rfl, List.forall_mem_nil _⟩
  | cons e es =>
    rw [Traced.evaluateAll]
    refine (ih.evaluate e every.1).bind fun v given => ?_
    refine (ih.evaluateAll es every.2).bind fun vs givens => ?_
    exact .pure ⟨congrArg (· + 1) givens.1, List.forall_mem_cons.mpr ⟨given, givens.2⟩⟩

theorem call_succ (faithful : ∀ f ∈ natives, f.Faithful natives) (callee : Expr) (close : Token)
    (args : List Expr) (closed : (Expr.call callee close args).Closed) (f : Value)
    (vs : List Value) (count : vs.length = args.length) (given : f.BuiltOf p)
    (givens : ∀ v ∈ vs, v.BuiltOf p) :
    Caused p [.call callee close args] (Value.BuiltOf p)
      (Traced.call natives (fuel + 1) close f vs) := by
  have counted (expected : Nat) : Caused p [.call callee close args] (fun _ => True)
      (Traced.lift (checkCount close expected vs.length)) := by
    rw [count]
    exact .lift List.mem_cons_self (.checkCount closed expected)
  cases f with
  | native ref =>
    rw [Traced.call]
    refine (counted ref.arity).bind fun _ _ => ?_
    exact .lift List.mem_cons_self (.callNative faithful ref givens)
  | function f =>
    rw [Traced.call]
    refine (counted f.params.length).bind fun _ _ => ?_
    exact .inCall f givens (ih.executeAll f.body given)
  | _ =>
    simp only [Traced.call]
    exact .lift List.mem_cons_self (.raise (.callee callee args closed))

theorem execute_succ (s : Stmt) (every : s.Every p) :
    Caused p [] (Completion.Gives (Value.BuiltOf p)) (Traced.execute natives (fuel + 1) s) := by
  have normal : Caused p [] (Completion.Gives (Value.BuiltOf p)) (Pure.pure .normal) := .pure trivial
  have define (name : Token) {v : Value} (given : v.BuiltOf p) :
      Caused p [] (fun _ => True) (Traced.lift (Machine.define name.lexeme v)) :=
    .always fun m holds => ⟨_, holds.define m.current name.lexeme given, rfl⟩
  cases s with
  | expression e =>
    rw [Traced.execute]
    refine (Caused.note _).bind fun _ _ => ?_
    exact (ih.evaluate e every).bind fun _ _ => normal
  | print e =>
    rw [Traced.execute]
    refine (Caused.note _).bind fun _ _ => ?_
    refine (ih.evaluate e every).bind fun v _ => ?_
    refine (Caused.always fun m holds => ?_).bind fun _ _ => normal
    exact ⟨{ m with output := m.output.push v.render }, holds, rfl⟩
  | declare name value =>
    cases value with
    | none =>
      rw [Traced.execute]
      refine (Caused.note _).bind fun _ _ => ?_
      exact (define name (v := .nil) trivial).bind fun _ _ => normal
    | some e =>
      rw [Traced.execute]
      refine (Caused.note _).bind fun _ _ => ?_
      refine (ih.evaluate e (every e rfl)).bind fun v given => ?_
      exact (define name given).bind fun _ _ => normal
  | block body =>
    rw [Traced.execute]
    refine (Caused.note _).bind fun _ _ => ?_
    exact (ih.executeAll body every).inFrame (fun m => ⟨[], some m.current⟩) (by simp)
  | ifThen c s =>
    rw [Traced.execute]
    refine (Caused.note _).bind fun _ _ => ?_
    refine (ih.evaluate c every.1).bind fun v _ => ?_
    split
    · exact ih.execute s every.2
    · exact normal
  | ifElse c s t =>
    rw [Traced.execute]
    obtain ⟨condition, first, second⟩ := every
    refine (Caused.note _).bind fun _ _ => ?_
    refine (ih.evaluate c condition).bind fun v _ => ?_
    split
    · exact ih.execute s first
    · exact ih.execute t second
  | loop c s =>
    rw [Traced.execute]
    refine (Caused.note _).bind fun _ _ => ?_
    refine (ih.evaluate c every.1).bind fun v _ => ?_
    split
    · exact (ih.execute s every.2).andThen (ih.execute (.loop c s) every)
    · exact normal
  | function name params body =>
    rw [Traced.execute]
    refine (Caused.note _).bind fun _ _ => ?_
    refine (Caused.always fun m holds => ?_).bind fun _ _ => normal
    have built : (Value.function ⟨m.functionCount, name, params, body, m.current⟩).BuiltOf p := every
    exact ⟨_, holds.define m.current name.lexeme built, rfl⟩
  | return_ keyword value =>
    cases value with
    | none =>
      rw [Traced.execute]
      refine (Caused.note _).bind fun _ _ => ?_
      exact (Caused.note _).bind fun _ _ => .pure trivial
    | some e =>
      rw [Traced.execute]
      refine (Caused.note _).bind fun _ _ => ?_
      refine (ih.evaluate e (every e rfl)).bind fun v given => ?_
      exact (Caused.note _).bind fun _ _ => .pure given

theorem executeAll_succ (ss : List Stmt) (every : Stmt.EveryOf p ss) :
    Caused p [] (Completion.Gives (Value.BuiltOf p)) (Traced.executeAll natives (fuel + 1) ss) := by
  cases ss with
  | nil =>
    rw [Traced.executeAll]
    exact .pure trivial
  | cons s ss =>
    rw [Traced.executeAll]
    exact (ih.execute s every.1).andThen (ih.executeAll ss every.2)

end CausedRuns

section Runs

variable {p : Expr → Prop} {natives : List Native} (closed : ∀ e, p e → e.Closed)
  (faithful : ∀ f ∈ natives, f.Faithful natives)
include closed faithful

theorem causedRuns (fuel : Nat) : CausedRuns p natives fuel := by
  induction fuel with
  | zero =>
    constructor
    · intro e _; rw [Traced.evaluate]; exact .outOfFuel
    · intro es _; rw [Traced.evaluateAll]; exact .outOfFuel
    · intro callee close args _ f vs _ _ _; rw [Traced.call]; exact .outOfFuel
    · intro s _; rw [Traced.execute]; exact .outOfFuel
    · intro ss _; rw [Traced.executeAll]; exact .outOfFuel
  | succ fuel ih =>
    exact ⟨ih.evaluate_succ closed, ih.evaluateAll_succ, ih.call_succ faithful, ih.execute_succ,
      ih.executeAll_succ⟩

theorem interpret_caused (fuel : Nat) (ss : List Stmt) (every : Stmt.EveryOf p ss) :
    Caused p [] (fun _ => True) (Traced.interpret natives fuel ss) := by
  induction ss with
  | nil => exact .pure trivial
  | cons s ss ih =>
    rw [Traced.interpret]
    refine ((causedRuns closed faithful fuel).execute s every.1).bind fun how _ => ?_
    exact (Caused.note _).bind fun _ _ => ih every.2

end Runs

end Lox
