import Lox.Proofs.History

/- Runs with a list of what happened in them: which statements and expressions were begun, which calls
   were entered and left, and where a return was raised. The traced evaluator goes the same way as the
   evaluator, and its events are well nested: a return is followed at once by the end of the call in
   which it was raised. -/
namespace Lox

mutual
/-- The return statements inside the statement, those in the bodies of functions apart. -/
def Stmt.returns : Stmt → List Stmt
  | .block body => Stmt.returnsOf body
  | .ifThen _ s => s.returns
  | .ifElse _ s t => s.returns ++ t.returns
  | .loop _ s => s.returns
  | .return_ keyword value => [.return_ keyword value]
  | .expression _ | .print _ | .declare _ _ | .function _ _ _ => []
def Stmt.returnsOf : List Stmt → List Stmt
  | [] => []
  | s :: ss => s.returns ++ Stmt.returnsOf ss
end

/-- What happens in a run. A round of a loop begins the loop again. -/
inductive Event where
  | begins (s : Stmt)
  | evaluates (e : Expr)
  /-- A return statement has its value and gives it up. -/
  | raises (s : Stmt) (v : Value)
  | calls (f : Closure)
  /-- The body of a call has completed, or has failed. -/
  | leaves (f : Closure) (how : Option Completion)
  /-- A statement of the program, outside of all others, has completed. -/
  | finishes (s : Stmt) (how : Completion)

structure Watched where
  machine : Machine
  events : List Event

abbrev Traced := EStateM Stop Watched

namespace Traced

variable {α β : Type}

def note (e : Event) : Traced Unit := fun w => .ok () ⟨w.machine, w.events ++ [e]⟩

def lift (x : Eval α) : Traced α := fun w =>
  match x w.machine with
  | .ok a m => .ok a ⟨m, w.events⟩
  | .error why m => .error why ⟨m, w.events⟩

def inFrame (frame : Frame) (body : Traced α) : Traced α := fun w =>
  match body ⟨w.machine.inside frame, w.events⟩ with
  | .ok a w' => .ok a ⟨{ w'.machine with current := w.machine.current }, w'.events⟩
  | .error why w' => .error why ⟨{ w'.machine with current := w.machine.current }, w'.events⟩

def inCall (f : Closure) (args : List Value) (body : Traced Completion) : Traced Value := fun w =>
  match inFrame (f.callFrame args) body ⟨w.machine, w.events ++ [.calls f]⟩ with
  | .ok how w' => .ok how.value ⟨w'.machine, w'.events ++ [.leaves f (some how)]⟩
  | .error why w' => .error why ⟨w'.machine, w'.events ++ [.leaves f none]⟩

mutual

def evaluate (natives : List Native) : Nat → Expr → Traced Value
  | 0, _ => throw .outOfFuel
  | fuel + 1, e => do
    note (.evaluates e)
    match e with
    | .literal l => pure (.ofLiteral l)
    | .grouping e => evaluate natives fuel e
    | .unary op e => do
      let v ← evaluate natives fuel e
      lift (unaryValue op v)
    | .binary a op b => do
      let left ← evaluate natives fuel a
      let right ← evaluate natives fuel b
      lift (binaryValue op left right)
    | .logical a op b => do
      let left ← evaluate natives fuel a
      if decides op left then pure left else evaluate natives fuel b
    | .reference name => lift (Machine.lookup name)
    | .assign name e => do
      let v ← evaluate natives fuel e
      lift (Machine.assign name v)
    | .call f paren args => do
      let callee ← evaluate natives fuel f
      let values ← evaluateAll natives fuel args
      call natives fuel paren callee values

def evaluateAll (natives : List Native) : Nat → List Expr → Traced (List Value)
  | 0, _ => throw .outOfFuel
  | _ + 1, [] => pure []
  | fuel + 1, e :: es => do
    let v ← evaluate natives fuel e
    let vs ← evaluateAll natives fuel es
    pure (v :: vs)

def call (natives : List Native) : Nat → Token → Value → List Value → Traced Value
  | 0, _, _, _ => throw .outOfFuel
  | _ + 1, paren, .native ref, args => do
    lift (checkCount paren ref.arity args.length)
    lift (Machine.callNative natives ref args)
  | fuel + 1, paren, .function f, args => do
    lift (checkCount paren f.params.length args.length)
    inCall f args (executeAll natives fuel f.body)
  | _ + 1, paren, _, _ => lift (Machine.raise paren .notCallable)

def execute (natives : List Native) : Nat → Stmt → Traced Completion
  | 0, _ => throw .outOfFuel
  | fuel + 1, s => do
    note (.begins s)
    match s with
    | .expression e => do
      let _ ← evaluate natives fuel e
      pure .normal
    | .print e => do
      let v ← evaluate natives fuel e
      lift (Machine.print v)
      pure .normal
    | .declare name none => do
      lift (Machine.define name.lexeme .nil)
      pure .normal
    | .declare name (some e) => do
      let v ← evaluate natives fuel e
      lift (Machine.define name.lexeme v)
      pure .normal
    | .block body => do
      let w ← get
      inFrame ⟨[], some w.machine.current⟩ (executeAll natives fuel body)
    | .ifThen c s => do
      let v ← evaluate natives fuel c
      if v.isTruthy then execute natives fuel s else pure .normal
    | .ifElse c s t => do
      let v ← evaluate natives fuel c
      if v.isTruthy then execute natives fuel s else execute natives fuel t
    | .loop c s => do
      let v ← evaluate natives fuel c
      if v.isTruthy then
        match ← execute natives fuel s with
        | .normal => execute natives fuel (.loop c s)
        | .returned v => pure (.returned v)
      else pure .normal
    | .function name params body => do
      lift (Machine.declare name params body)
      pure .normal
    | .return_ keyword none => do
      note (.raises (.return_ keyword none) .nil)
      pure (.returned .nil)
    | .return_ keyword (some e) => do
      let v ← evaluate natives fuel e
      note (.raises (.return_ keyword (some e)) v)
      pure (.returned v)

def executeAll (natives : List Native) : Nat → List Stmt → Traced Completion
  | 0, _ => throw .outOfFuel
  | _ + 1, [] => pure .normal
  | fuel + 1, s :: ss => do
    match ← execute natives fuel s with
    | .normal => executeAll natives fuel ss
    | .returned v => pure (.returned v)

end

def interpret (natives : List Native) (fuel : Nat) : List Stmt → Traced Unit
  | [] => pure ()
  | s :: ss => do
    let how ← execute natives fuel s
    note (.finishes s how)
    interpret natives fuel ss

end Traced

/-- What may come next inside some calls, the innermost first. A call that is left is the innermost,
and a return is raised by a statement in the body of the innermost call, which it ends at once. A
statement of the program has completed outside of all calls, and normally. -/
def WellNested : List Closure → List Event → Prop
  | _, [] => True
  | callers, .begins _ :: later => WellNested callers later
  | callers, .evaluates _ :: later => WellNested callers later
  | callers, .raises s v :: later =>
    (∃ f outer rest, callers = f :: outer ∧ s ∈ Stmt.returnsOf f.body ∧
      later = .leaves f (some (.returned v)) :: rest) ∧ WellNested callers later
  | callers, .calls f :: later => WellNested (f :: callers) later
  | callers, .leaves f _ :: later => ∃ outer, callers = f :: outer ∧ WellNested outer later
  | callers, .finishes _ how :: later => callers = [] ∧ how = .normal ∧ WellNested callers later

def Calm (word : List Event) : Prop :=
  ∀ callers later, WellNested callers later → WellNested callers (word ++ later)

/-- What is told of a statement with these return statements inside it: one that returns has raised a
return last. -/
def Tells (returns : List Stmt) : Completion → List Event → Prop
  | .normal, word => Calm word
  | .returned v, word => ∃ calm, ∃ s ∈ returns, Calm calm ∧ word = calm ++ [.raises s v]

section Words

variable {word word' : List Event} {returns returns' : List Stmt} {how : Completion}

theorem Calm.nil : Calm [] := fun _ _ nested => nested

theorem Calm.append (first : Calm word) (second : Calm word') : Calm (word ++ word') := by
  intro callers later nested
  rw [List.append_assoc]
  exact first callers _ (second callers later nested)

theorem calm_begins (s : Stmt) : Calm [.begins s] := fun _ _ nested => nested

theorem calm_evaluates (e : Expr) : Calm [.evaluates e] := fun _ _ nested => nested

theorem calm_call {f : Closure} (told : Tells (Stmt.returnsOf f.body) how word) :
    Calm (.calls f :: (word ++ [.leaves f (some how)])) := by
  intro callers later nested
  have left : WellNested (f :: callers) (.leaves f (some how) :: later) := ⟨callers, rfl, nested⟩
  rw [List.cons_append, List.append_assoc, WellNested]
  cases how with
  | normal => exact told _ _ left
  | returned v =>
    -- The return is the last of the body, so the end of the call comes next.
    obtain ⟨calm, s, inside, quiet, rfl⟩ := told
    rw [List.append_assoc]
    exact quiet _ _ ⟨⟨f, callers, later, rfl, inside, rfl⟩, left⟩

theorem calm_failed_call (f : Closure) (calm : Calm word) :
    Calm (.calls f :: (word ++ [.leaves f none])) := by
  intro callers later nested
  rw [List.cons_append, List.append_assoc, WellNested]
  exact calm _ _ ⟨callers, rfl, nested⟩

theorem Tells.after (told : Tells returns how word') (calm : Calm word) :
    Tells returns how (word ++ word') := by
  cases how with
  | normal => exact calm.append told
  | returned v =>
    obtain ⟨calm', s, inside, quiet, rfl⟩ := told
    exact ⟨word ++ calm', s, inside, calm.append quiet, (List.append_assoc ..).symm⟩

theorem Tells.mono (told : Tells returns how word) (more : returns ⊆ returns') :
    Tells returns' how word := by
  cases how with
  | normal => exact told
  | returned v =>
    obtain ⟨calm, s, inside, rest⟩ := told
    exact ⟨calm, s, more inside, rest⟩

/-- Without return statements a statement completes normally. -/
theorem Tells.normal (told : Tells [] how word) : how = .normal := by
  cases how with
  | normal => rfl
  | returned v =>
    obtain ⟨_, s, inside, -⟩ := told
    cases inside

end Words

inductive Traced.Ends {α : Type} (told : α → List Event → Prop) (w : Watched) :
    EStateM.Result Stop Watched α → EStateM.Result Stop Machine α → Prop where
  | ok {a : α} {m : Machine} {word : List Event} (tells : told a word) :
      Ends told w (.ok a ⟨m, w.events ++ word⟩) (.ok a m)
  | error {why : Stop} {m : Machine} {word : List Event} (calm : Calm word) :
      Ends told w (.error why ⟨m, w.events ++ word⟩) (.error why m)

section Silent

variable {α : Type} {told : α → List Event → Prop} {w : Watched} {m : Machine}

theorem Traced.Ends.ok_silent {a : α} (tells : told a []) :
    Traced.Ends told w (.ok a ⟨m, w.events⟩) (.ok a m) := by
  have ends : Traced.Ends told w (.ok a ⟨m, w.events ++ []⟩) (.ok a m) := .ok tells
  rwa [List.append_nil] at ends

theorem Traced.Ends.error_silent {why : Stop} :
    Traced.Ends told w (.error why ⟨m, w.events⟩) (.error why m) := by
  have ends : Traced.Ends told w (.error why ⟨m, w.events ++ []⟩) (.error why m) := .error .nil
  rwa [List.append_nil] at ends

end Silent

def Tracks {α : Type} (told : α → List Event → Prop) (x : Traced α) (y : Eval α) : Prop :=
  ∀ w : Watched, Traced.Ends told w (x w) (y w.machine)

namespace Tracks

variable {α β : Type} {told : α → List Event → Prop} {told' : β → List Event → Prop} {x : Traced α}
  {y : Eval α} {returns returns' : List Stmt}

theorem pure {a : α} (tells : told a []) : Tracks told (Pure.pure a) (Pure.pure a) :=
  fun _ => .ok_silent tells

theorem throw (why : Stop) : Tracks told (MonadExcept.throw why) (MonadExcept.throw why) :=
  fun _ => .error_silent

theorem lift (x : Eval α) : Tracks (fun _ => Calm) (Traced.lift x) x := by
  intro w
  unfold Traced.lift
  cases x w.machine with
  | ok a m => exact .ok_silent .nil
  | error why m => exact .error_silent

theorem mono {x : Traced Completion} {y : Eval Completion} (tracks : Tracks (Tells returns) x y)
    (more : returns ⊆ returns') : Tracks (Tells returns') x y := by
  intro w
  have ends := tracks w
  generalize x w = r at ends ⊢
  generalize y w.machine = r' at ends ⊢
  cases ends with
  | ok tells => exact .ok (tells.mono more)
  | error calm => exact .error calm

theorem ends_after (tracks : Tracks told x y)
    (prepends : ∀ {a word word'}, Calm word → told a word' → told a (word ++ word'))
    {word : List Event} (calm : Calm word) (w : Watched) (m : Machine) :
    Traced.Ends told w (x ⟨m, w.events ++ word⟩) (y m) := by
  have ends := tracks ⟨m, w.events ++ word⟩
  generalize x ⟨m, w.events ++ word⟩ = r at ends ⊢
  generalize y m = r' at ends ⊢
  cases ends with
  | ok tells =>
    rw [List.append_assoc]
    exact .ok (prepends calm tells)
  | error calm' =>
    rw [List.append_assoc]
    exact .error (calm.append calm')

theorem bind {f : α → Traced β} {g : α → Eval β} (first : Tracks (fun _ => Calm) x y)
    (prepends : ∀ {a word word'}, Calm word → told' a word' → told' a (word ++ word'))
    (second : ∀ a, Tracks told' (f a) (g a)) : Tracks told' (x >>= f) (y >>= g) := by
  intro w
  have ends := first w
  simp only [Bind.bind, EStateM.bind]
  generalize x w = r at ends ⊢
  generalize y w.machine = r' at ends ⊢
  cases ends with
  | ok calm => exact (second _).ends_after prepends calm w _
  | error calm => exact .error calm

theorem seq {f : α → Traced β} {g : α → Eval β} (first : Tracks (fun _ => Calm) x y)
    (second : ∀ a, Tracks (fun _ => Calm) (f a) (g a)) :
    Tracks (fun _ => Calm) (x >>= f) (y >>= g) :=
  first.bind (fun calm tells => calm.append tells) second

theorem given {f : α → Traced Completion} {g : α → Eval Completion}
    (first : Tracks (fun _ => Calm) x y) (second : ∀ a, Tracks (Tells returns) (f a) (g a)) :
    Tracks (Tells returns) (x >>= f) (y >>= g) :=
  first.bind (fun calm tells => Tells.after tells calm) second

theorem andThen {x x' : Traced Completion} {y y' : Eval Completion}
    (first : Tracks (Tells returns) x y) (second : Tracks (Tells returns) x' y') :
    Tracks (Tells returns)
      (do match ← x with
          | .normal => x'
          | .returned v => Pure.pure (.returned v))
      (do match ← y with
          | .normal => y'
          | .returned v => Pure.pure (.returned v)) := by
  intro w
  have ends := first w
  simp only [Bind.bind, EStateM.bind]
  generalize x w = r at ends ⊢
  generalize y w.machine = r' at ends ⊢
  cases ends with
  | @ok how m word tells =>
    cases how with
    | normal => exact second.ends_after (fun calm tells => Tells.after tells calm) tells w m
    | returned v => exact .ok tells
  | error calm => exact .error calm

theorem evaluates (e : Expr) (tracks : Tracks (fun _ => Calm) x y) :
    Tracks (fun _ => Calm) (Traced.note (.evaluates e) >>= fun _ => x) y :=
  fun w => tracks.ends_after (fun calm tells => calm.append tells) (calm_evaluates e) w w.machine

theorem begins (s : Stmt) {x : Traced Completion} {y : Eval Completion}
    (tracks : Tracks (Tells returns) x y) :
    Tracks (Tells returns) (Traced.note (.begins s) >>= fun _ => x) y :=
  fun w => tracks.ends_after (fun calm tells => Tells.after tells calm) (calm_begins s) w w.machine

theorem raises {s : Stmt} (inside : s ∈ returns) (v : Value) :
    Tracks (Tells returns) (Traced.note (.raises s v) >>= fun _ => Pure.pure (.returned v))
      (Pure.pure (.returned v)) :=
  fun _ => .ok ⟨[], s, inside, .nil, rfl⟩

theorem inFrame (frame : Machine → Frame) (tracks : Tracks told x y) :
    Tracks told (fun w => Traced.inFrame (frame w.machine) x w)
      fun m => Machine.inFrame (frame m) y m := by
  intro w
  have ends := tracks ⟨w.machine.inside (frame w.machine), w.events⟩
  simp only [Traced.inFrame, Machine.inFrame_eq]
  generalize x _ = r at ends ⊢
  generalize y _ = r' at ends ⊢
  cases ends with
  | ok tells => exact .ok tells
  | error calm => exact .error calm

/-- A call consumes the return that its body raises. -/
theorem inCall (f : Closure) (args : List Value) {x : Traced Completion} {y : Eval Completion}
    (tracks : Tracks (Tells (Stmt.returnsOf f.body)) x y) :
    Tracks (fun _ => Calm) (Traced.inCall f args x) (do
      let completion ← Machine.inFrame (f.callFrame args) y
      Pure.pure completion.value) := by
  intro w
  have ends : Traced.Ends (Tells (Stmt.returnsOf f.body)) ⟨w.machine, w.events ++ [.calls f]⟩
      (Traced.inFrame (f.callFrame args) x ⟨w.machine, w.events ++ [.calls f]⟩)
      (Machine.inFrame (f.callFrame args) y w.machine) :=
    tracks.inFrame (fun _ => f.callFrame args) ⟨w.machine, w.events ++ [.calls f]⟩
  simp only [Traced.inCall, Bind.bind, EStateM.bind]
  generalize Traced.inFrame (f.callFrame args) x _ = r at ends ⊢
  generalize Machine.inFrame (f.callFrame args) y _ = r' at ends ⊢
  cases ends with
  | ok tells =>
    simp only [List.append_assoc]
    exact .ok (calm_call tells)
  | error calm =>
    simp only [List.append_assoc]
    exact .error (calm_failed_call f calm)

end Tracks

structure TracedRuns (natives : List Native) (fuel : Nat) : Prop where
  evaluate : ∀ e, Tracks (fun _ => Calm) (Traced.evaluate natives fuel e) (evaluate natives fuel e)
  evaluateAll : ∀ es, Tracks (fun _ => Calm) (Traced.evaluateAll natives fuel es)
    (evaluateAll natives fuel es)
  call : ∀ paren f args, Tracks (fun _ => Calm) (Traced.call natives fuel paren f args)
    (call natives fuel paren f args)
  execute : ∀ s, Tracks (Tells s.returns) (Traced.execute natives fuel s) (execute natives fuel s)
  executeAll : ∀ ss, Tracks (Tells (Stmt.returnsOf ss)) (Traced.executeAll natives fuel ss)
    (executeAll natives fuel ss)

namespace TracedRuns

variable {natives : List Native} {fuel : Nat} (ih : TracedRuns natives fuel)
include ih

theorem evaluate_succ (e : Expr) :
    Tracks (fun _ => Calm) (Traced.evaluate natives (fuel + 1) e)
      (Lox.evaluate natives (fuel + 1) e) := by
  cases e with
  | literal l =>
    rw [Traced.evaluate, Lox.evaluate]
    refine .evaluates _ ?_
    exact .pure .nil
  | grouping e =>
    rw [Traced.evaluate, Lox.evaluate]
    refine .evaluates _ ?_
    exact ih.evaluate e
  | unary op e =>
    rw [Traced.evaluate, Lox.evaluate]
    refine .evaluates _ ?_
    exact (ih.evaluate e).seq fun v => .lift _
  | binary a op b =>
    rw [Traced.evaluate, Lox.evaluate]
    refine .evaluates _ ?_
    exact (ih.evaluate a).seq fun left => (ih.evaluate b).seq fun right => .lift _
  | logical a op b =>
    rw [Traced.evaluate, Lox.evaluate]
    refine .evaluates _ ?_
    refine (ih.evaluate a).seq fun left => ?_
    split
    · exact .pure .nil
    · exact ih.evaluate b
  | reference name =>
    rw [Traced.evaluate, Lox.evaluate]
    refine .evaluates _ ?_
    exact .lift _
  | assign name e =>
    rw [Traced.evaluate, Lox.evaluate]
    refine .evaluates _ ?_
    exact (ih.evaluate e).seq fun v => .lift _
  | call f paren args =>
    rw [Traced.evaluate, Lox.evaluate]
    refine .evaluates _ ?_
    refine (ih.evaluate f).seq fun callee => ?_
    exact (ih.evaluateAll args).seq fun values => ih.call paren callee values

theorem evaluateAll_succ (es : List Expr) :
    Tracks (fun _ => Calm) (Traced.evaluateAll natives (fuel + 1) es)
      (Lox.evaluateAll natives (fuel + 1) es) := by
  cases es with
  | nil =>
    rw [Traced.evaluateAll, Lox.evaluateAll]
    exact .pure .nil
  | cons e es =>
    rw [Traced.evaluateAll, Lox.evaluateAll]
    exact (ih.evaluate e).seq fun v => (ih.evaluateAll es).seq fun vs => .pure .nil

theorem call_succ (paren : Token) (f : Value) (args : List Value) :
    Tracks (fun _ => Calm) (Traced.call natives (fuel + 1) paren f args)
      (Lox.call natives (fuel + 1) paren f args) := by
  cases f with
  | native ref =>
    rw [Traced.call, Lox.call]
    exact (Tracks.lift _).seq fun _ => .lift _
  | function f =>
    rw [Traced.call, Lox.call]
    exact (Tracks.lift _).seq fun _ => .inCall f args (ih.executeAll f.body)
  | _ =>
    simp only [Traced.call, Lox.call]
    exact .lift _

theorem execute_succ (s : Stmt) :
    Tracks (Tells s.returns) (Traced.execute natives (fuel + 1) s)
      (Lox.execute natives (fuel + 1) s) := by
  have normal (returns : List Stmt) :
      Tracks (Tells returns) (Pure.pure .normal) (Pure.pure .normal) := .pure .nil
  cases s with
  | expression e =>
    rw [Traced.execute, Lox.execute]
    refine .begins _ ?_
    exact (ih.evaluate e).given fun _ => normal _
  | print e =>
    rw [Traced.execute, Lox.execute]
    refine .begins _ ?_
    exact (ih.evaluate e).given fun v => (Tracks.lift _).given fun _ => normal _
  | declare name value =>
    cases value with
    | none =>
      rw [Traced.execute, Lox.execute]
      refine .begins _ ?_
      exact (Tracks.lift _).given fun _ => normal _
    | some e =>
      rw [Traced.execute, Lox.execute]
      refine .begins _ ?_
      exact (ih.evaluate e).given fun v => (Tracks.lift _).given fun _ => normal _
  | block body =>
    rw [Traced.execute, Lox.execute]
    refine .begins _ ?_
    exact (ih.executeAll body).inFrame fun m => ⟨[], some m.current⟩
  | ifThen c s =>
    rw [Traced.execute, Lox.execute]
    refine .begins _ ?_
    refine (ih.evaluate c).given fun v => ?_
    split
    · exact ih.execute s
    · exact normal _
  | ifElse c s t =>
    rw [Traced.execute, Lox.execute]
    refine .begins _ ?_
    refine (ih.evaluate c).given fun v => ?_
    split
    · exact (ih.execute s).mono (List.subset_append_left _ _)
    · exact (ih.execute t).mono (List.subset_append_right _ _)
  | loop c s =>
    rw [Traced.execute, Lox.execute]
    refine .begins _ ?_
    refine (ih.evaluate c).given fun v => ?_
    split
    · exact (ih.execute s).andThen (ih.execute (.loop c s))
    · exact normal _
  | function name params body =>
    rw [Traced.execute, Lox.execute]
    refine .begins _ ?_
    exact (Tracks.lift _).given fun _ => normal _
  | return_ keyword value =>
    cases value with
    | none =>
      rw [Traced.execute, Lox.execute]
      refine .begins _ ?_
      exact .raises List.mem_cons_self _
    | some e =>
      rw [Traced.execute, Lox.execute]
      refine .begins _ ?_
      exact (ih.evaluate e).given fun v => .raises List.mem_cons_self v

theorem executeAll_succ (ss : List Stmt) :
    Tracks (Tells (Stmt.returnsOf ss)) (Traced.executeAll natives (fuel + 1) ss)
      (Lox.executeAll natives (fuel + 1) ss) := by
  cases ss with
  | nil =>
    rw [Traced.executeAll, Lox.executeAll]
    exact .pure .nil
  | cons s ss =>
    rw [Traced.executeAll, Lox.executeAll]
    have first := (ih.execute s).mono (List.subset_append_left s.returns (Stmt.returnsOf ss))
    exact first.andThen ((ih.executeAll ss).mono (List.subset_append_right _ _))

end TracedRuns

theorem tracedRuns (natives : List Native) (fuel : Nat) : TracedRuns natives fuel := by
  induction fuel with
  | zero =>
    constructor
    · intro e; rw [Traced.evaluate, Lox.evaluate]; exact .throw _
    · intro es; rw [Traced.evaluateAll, Lox.evaluateAll]; exact .throw _
    · intro paren f args; rw [Traced.call, Lox.call]; exact .throw _
    · intro s; rw [Traced.execute, Lox.execute]; exact .throw _
    · intro ss; rw [Traced.executeAll, Lox.executeAll]; exact .throw _
  | succ fuel ih =>
    exact ⟨ih.evaluate_succ, ih.evaluateAll_succ, ih.call_succ, ih.execute_succ, ih.executeAll_succ⟩

end Lox
