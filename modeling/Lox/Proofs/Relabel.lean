import Lox.Proofs.Frames
import Lox.Proofs.Lines

/- Source lines in running programs. Trees are kept in function values and these in frames, so a
   machine is full of lines; a run looks at none of them. Whatever is done on a relabelled machine
   ends as it would have ended, relabelled. -/
namespace Lox

instance : Lined Closure where
  relabel g f :=
    { f with name := relabel g f.name, params := relabel g f.params, body := relabel g f.body }
  relabel_id f := by simp
  relabel_relabel g h f := by simp

instance : Lined Value where
  relabel g
    | .function f => .function (relabel g f)
    | v => v
  relabel_id v := by cases v <;> simp
  relabel_relabel g h v := by cases v <;> simp

instance : Lined Frame where
  relabel g f := { f with bindings := relabel g f.bindings }
  relabel_id f := by simp
  relabel_relabel g h f := by simp

instance : Lined Store where
  relabel g s := ⟨s.frames.map (relabel g)⟩
  relabel_id s := by simp [show relabel (id : Nat → Nat) = (id : Frame → Frame) from
    funext Lined.relabel_id]
  relabel_relabel g h s := by simp [Function.comp_def]

instance : Lined Machine where
  relabel g m := { m with store := relabel g m.store }
  relabel_id m := by simp
  relabel_relabel g h m := by simp

instance : Lined Completion where
  relabel g
    | .normal => .normal
    | .returned v => .returned (relabel g v)
  relabel_id c := by cases c <;> simp
  relabel_relabel g h c := by cases c <;> simp

instance : Lined Fault where
  relabel g f := { f with line := g f.line }
  relabel_id _ := rfl
  relabel_relabel _ _ _ := rfl

instance : Lined Stuck where
  relabel g
    | .unaryOperator op => .unaryOperator (relabel g op)
    | .binaryOperator op => .binaryOperator (relabel g op)
    | .hostFunction ref => .hostFunction ref
  relabel_id why := by cases why <;> simp
  relabel_relabel g h why := by cases why <;> simp

instance : Lined Stop where
  relabel g
    | .fault f => .fault (relabel g f)
    | .stuck why => .stuck (relabel g why)
    | .outOfFuel => .outOfFuel
  relabel_id why := by cases why <;> simp
  relabel_relabel g h why := by cases why <;> simp

instance {ε σ α : Type} [Lined ε] [Lined σ] [Lined α] : Lined (EStateM.Result ε σ α) where
  relabel g
    | .ok a s => .ok (relabel g a) (relabel g s)
    | .error e s => .error (relabel g e) (relabel g s)
  relabel_id r := by cases r <;> simp
  relabel_relabel g h r := by cases r <;> simp

/-- The function passes on the lines in its arguments, if any, without a look at them. -/
def Native.LineBlind (f : Native) : Prop :=
  ∀ (g : Nat → Nat) (earlierCalls : Nat) (args : List Value),
    f.apply earlierCalls (relabel g args) = relabel g (f.apply earlierCalls args)

theorem Native.builtins_lineBlind (seconds : Nat → Float) : ∀ f ∈ builtins seconds, f.LineBlind := by
  intro f member
  rw [List.mem_singleton.mp member]
  intro g earlierCalls args
  rfl

variable {α β : Type} [Lined α] [Lined β] {g : Nat → Nat}

section Values

@[simp] theorem Value.isTruthy_relabel (v : Value) : (relabel g v).isTruthy = v.isTruthy := by
  cases v <;> rfl

@[simp] theorem Value.render_relabel (v : Value) : (relabel g v).render = v.render := by
  cases v <;> rfl

@[simp] theorem Value.beq_relabel (v w : Value) : (relabel g v == relabel g w) = (v == w) := by
  cases v <;> cases w <;> rfl

@[simp] theorem decides_relabel (op : Token) (v : Value) :
    decides (relabel g op) (relabel g v) = decides op v := by
  unfold decides
  rw [kind_relabel, Value.isTruthy_relabel]

@[simp] theorem Completion.value_relabel (c : Completion) :
    (relabel g c).value = relabel g c.value := by
  cases c <;> rfl

theorem Value.ofLiteral_relabel (l : Literal) :
    relabel g (Value.ofLiteral l) = .ofLiteral l := by
  cases l <;> rfl

end Values

section Stores

@[simp] theorem Frame.get?_relabel (f : Frame) (name : String) :
    (relabel g f).get? name = relabel g (f.get? name) := by
  obtain ⟨bindings, enclosing⟩ := f
  show List.lookup name (relabel g bindings) = relabel g (List.lookup name bindings)
  induction bindings with
  | nil => rfl
  | cons binding rest ih =>
    obtain ⟨other, old⟩ := binding
    show List.lookup name ((other, relabel g old) :: relabel g rest) = _
    simp only [List.lookup_cons]
    split
    · rfl
    · exact ih

theorem bindName_relabel (name : String) (v : Value) (bindings : List (String × Value)) :
    bindName name (relabel g v) (relabel g bindings) = relabel g (bindName name v bindings) := by
  induction bindings with
  | nil => rfl
  | cons binding rest ih =>
    obtain ⟨other, old⟩ := binding
    show bindName name (relabel g v) ((other, relabel g old) :: relabel g rest) = _
    simp only [bindName]
    split
    · rfl
    · rw [ih]
      rfl

theorem Frame.define_relabel (f : Frame) (name : String) (v : Value) :
    (relabel g f).define name (relabel g v) = relabel g (f.define name v) := by
  show Frame.mk (bindName name (relabel g v) (relabel g f.bindings)) _ = _
  rw [bindName_relabel]
  rfl

theorem Closure.callFrame_relabel (f : Closure) (args : List Value) :
    (relabel g f).callFrame (relabel g args) = relabel g (f.callFrame args) := by
  have pairs : (relabel g f.params).zip (relabel g args) = relabel g (f.params.zip args) :=
    List.zip_map
  have bound (bs : List (String × Value)) (ps : List (Token × Value)) :
      (relabel g ps).foldl (fun bs p => bindName p.1.lexeme p.2 bs) (relabel g bs) =
        relabel g (ps.foldl (fun bs p => bindName p.1.lexeme p.2 bs) bs) := by
    induction ps generalizing bs with
    | nil => rfl
    | cons binding rest ih =>
      rw [relabel_cons, List.foldl_cons, List.foldl_cons, ← ih, ← bindName_relabel]
      rfl
  show Frame.mk (((relabel g f.params).zip (relabel g args)).foldl _ _) _ = _
  rw [pairs]
  exact congrArg (Frame.mk · _) (bound [] _)

namespace Store

@[simp] theorem size_relabel (s : Store) : (relabel g s).size = s.size := Array.size_map

@[simp] theorem frame?_relabel (s : Store) (i : Nat) :
    (relabel g s).frame? i = relabel g (s.frame? i) := Array.getElem?_map

theorem ext_frame? {s s' : Store} (same : ∀ i, s.frame? i = s'.frame? i) : s = s' := by
  obtain ⟨frames⟩ := s
  obtain ⟨frames'⟩ := s'
  exact congrArg Store.mk (Array.ext_getElem? same)

theorem push_relabel (s : Store) (f : Frame) :
    (relabel g s).push (relabel g f) = relabel g (s.push f) := by
  simp [push, relabel]

theorem define_relabel (s : Store) (i : Nat) (name : String) (v : Value) :
    (relabel g s).define i name (relabel g v) = relabel g (s.define i name v) := by
  apply ext_frame?
  intro k
  rw [frame_define, frame?_relabel, frame?_relabel, frame_define]
  split
  · cases s.frame? k with
    | none => rfl
    | some f => exact congrArg some (f.define_relabel name v)
  · rfl

@[simp] theorem resolve?_relabel (s : Store) (name : String) (i : Nat) :
    (relabel g s).resolve? name i = s.resolve? name i := by
  induction i using Nat.strongRecOn with
  | ind i ih =>
    rw [resolve?, resolve?, frame?_relabel]
    cases s.frame? i with
    | none => rfl
    | some f =>
      have bound : ((relabel g f).get? name).isSome = (f.get? name).isSome := by
        rw [Frame.get?_relabel]
        cases f.get? name <;> rfl
      simp only [relabel_some, bound]
      split
      · rfl
      · obtain ⟨bindings, enclosing⟩ := f
        cases enclosing with
        | none => rfl
        | some outer =>
          dsimp only [relabel]
          split
          · rename_i less
            exact ih outer less
          · rfl

@[simp] theorem lookup?_relabel (s : Store) (name : String) (i : Nat) :
    (relabel g s).lookup? name i = relabel g (s.lookup? name i) := by
  unfold lookup?
  rw [resolve?_relabel]
  cases s.resolve? name i with
  | none => rfl
  | some k =>
    simp only [Option.bind_some, frame?_relabel]
    cases s.frame? k with
    | none => rfl
    | some f => exact f.get?_relabel name

end Store
end Stores

section Machines

variable (m : Machine)

@[simp] theorem Machine.store_relabel : (relabel g m).store = relabel g m.store := rfl

@[simp] theorem Machine.current_relabel : (relabel g m).current = m.current := rfl

theorem Machine.withStore_relabel {s s' : Store} (same : s' = relabel g s) :
    { relabel g m with store := s' } = relabel g { m with store := s } := by
  rw [same]
  rfl

end Machines

def Relabels (g : Nat → Nat) (x y : Eval α) : Prop :=
  ∀ m : Machine, y (relabel g m) = relabel g (x m)

namespace Relabels

theorem pure (a : α) : Relabels g (pure a) (pure (relabel g a)) := fun _ => rfl

theorem bind {x y : Eval α} {f f' : α → Eval β} (first : Relabels g x y)
    (second : ∀ a, Relabels g (f a) (f' (relabel g a))) : Relabels g (x >>= f) (y >>= f') := by
  intro m
  simp only [Bind.bind, EStateM.bind, first m]
  cases x m with
  | ok a m' => exact second a m'
  | error why m' => rfl

theorem stop (why : Stop) : Relabels g (throw why : Eval α) (throw (relabel g why)) :=
  fun _ => rfl

theorem raise (t : Token) (cause : Cause) :
    Relabels g (Machine.raise t cause : Eval α) (Machine.raise (relabel g t) cause) :=
  fun _ => rfl

theorem unary (op : Token) (v : Value) :
    Relabels g (unaryValue op v) (unaryValue (relabel g op) (relabel g v)) := by
  unfold unaryValue
  rw [kind_relabel, Value.isTruthy_relabel]
  split
  · cases v with
    | number x => exact pure (Value.number (-x))
    | _ => exact raise op _
  · exact pure _
  · exact stop _

theorem binary (op : Token) (left right : Value) :
    Relabels g (binaryValue op left right)
      (binaryValue (relabel g op) (relabel g left) (relabel g right)) := by
  unfold binaryValue
  simp only [kind_relabel, bne, Value.beq_relabel]
  split
  · exact pure _
  · exact pure _
  · cases left <;> cases right <;> first | exact pure _ | exact raise op _
  · cases meaning : arithmetic? _ with
    | none => exact stop _
    | some f =>
      have plain (a b : Float) : relabel g (f a b) = f a b := by
        have other := arithmetic_gives meaning a b
        cases eq : f a b with
        | function closure => exact absurd (eq ▸ trivial) other
        | _ => rfl
      cases left <;> cases right <;> first | exact raise op _ | skip
      rename_i a b
      have same := pure (g := g) (f a b)
      rw [plain] at same
      exact same
  · exact stop _

theorem checkCount (paren : Token) (expected given : Nat) :
    Relabels g (Lox.checkCount paren expected given)
      (Lox.checkCount (relabel g paren) expected given) := by
  unfold Lox.checkCount
  split
  · exact pure ()
  · exact raise paren _

theorem lookup (name : Token) :
    Relabels g (Machine.lookup name) (Machine.lookup (relabel g name)) := by
  intro m
  rw [Machine.lookup_eq, Machine.lookup_eq, lexeme_relabel, Machine.store_relabel,
    Machine.current_relabel, Store.lookup?_relabel]
  cases m.store.lookup? name.lexeme m.current <;> rfl

theorem assign (name : Token) (v : Value) :
    Relabels g (Machine.assign name v) (Machine.assign (relabel g name) (relabel g v)) := by
  intro m
  rw [Machine.assign_eq, Machine.assign_eq, lexeme_relabel, Machine.store_relabel,
    Machine.current_relabel, Store.resolve?_relabel]
  cases m.store.resolve? name.lexeme m.current with
  | none => rfl
  | some k =>
    exact congrArg (EStateM.Result.ok (relabel g v))
      (m.withStore_relabel (m.store.define_relabel k name.lexeme v))

theorem define (name : String) (v : Value) :
    Relabels g (Machine.define name v) (Machine.define name (relabel g v)) := by
  intro m
  exact congrArg (EStateM.Result.ok ())
    (m.withStore_relabel (m.store.define_relabel m.current name v))

theorem print (v : Value) : Relabels g (Machine.print v) (Machine.print (relabel g v)) := by
  intro m
  show EStateM.Result.ok () { relabel g m with output := m.output.push (relabel g v).render } = _
  rw [Value.render_relabel]
  rfl

theorem declare (name : Token) (params : List Token) (body : List Stmt) :
    Relabels g (Machine.declare name params body)
      (Machine.declare (relabel g name) (relabel g params) (relabel g body)) := by
  intro m
  let counted := { m with functionCount := m.functionCount + 1 }
  exact congrArg (EStateM.Result.ok ())
    (counted.withStore_relabel (m.store.define_relabel m.current name.lexeme
      (.function ⟨m.functionCount, name, params, body, m.current⟩)))

theorem callNative {natives : List Native} (blind : ∀ f ∈ natives, f.LineBlind) (ref : NativeRef)
    (args : List Value) :
    Relabels g (Machine.callNative natives ref args)
      (Machine.callNative natives ref (relabel g args)) := by
  intro m
  rw [Machine.callNative_eq, Machine.callNative_eq]
  cases found : natives[ref.slot]? with
  | none => rfl
  | some f =>
    dsimp only
    rw [blind f (List.mem_of_getElem? found)]
    rfl

theorem inFrame (frame : Frame) {x y : Eval α} (body : Relabels g x y) :
    Relabels g (Machine.inFrame frame x) (Machine.inFrame (relabel g frame) y) := by
  intro m
  have inside : (relabel g m).inside (relabel g frame) = relabel g (m.inside frame) := by
    unfold Machine.inside
    rw [Machine.store_relabel, Store.push_relabel, Store.size_relabel]
    rfl
  rw [Machine.inFrame_eq, Machine.inFrame_eq, inside, body]
  cases x (m.inside frame) <;> rfl

end Relabels

structure RunsRelabel (g : Nat → Nat) (natives : List Native) (fuel : Nat) : Prop where
  evaluate : ∀ e, Relabels g (evaluate natives fuel e) (evaluate natives fuel (relabel g e))
  evaluateAll : ∀ es,
    Relabels g (evaluateAll natives fuel es) (evaluateAll natives fuel (relabel g es))
  call : ∀ paren f args, Relabels g (call natives fuel paren f args)
    (call natives fuel (relabel g paren) (relabel g f) (relabel g args))
  execute : ∀ s, Relabels g (execute natives fuel s) (execute natives fuel (relabel g s))
  executeAll : ∀ ss,
    Relabels g (executeAll natives fuel ss) (executeAll natives fuel (relabel g ss))

namespace RunsRelabel

variable {natives : List Native} {fuel : Nat}

theorem zero : RunsRelabel g natives 0 := by
  constructor
  · intro e
    rw [Lox.evaluate, Lox.evaluate]
    exact .stop _
  · intro es
    rw [Lox.evaluateAll, Lox.evaluateAll]
    exact .stop _
  · intro paren f args
    rw [Lox.call, Lox.call]
    exact .stop _
  · intro s
    rw [Lox.execute, Lox.execute]
    exact .stop _
  · intro ss
    rw [Lox.executeAll, Lox.executeAll]
    exact .stop _

theorem andThen {x y f f' : Eval Completion} (first : Relabels g x y) (second : Relabels g f f') :
    Relabels g
      (x >>= fun
        | .normal => f
        | .returned v => pure (.returned v))
      (y >>= fun
        | .normal => f'
        | .returned v => pure (.returned v)) := by
  refine first.bind fun completion => ?_
  cases completion with
  | normal => exact second
  | returned v => exact .pure (Completion.returned v)

section Step

variable (ih : RunsRelabel g natives fuel)
include ih

theorem evaluate_succ (e : Expr) :
    Relabels g (Lox.evaluate natives (fuel + 1) e) (Lox.evaluate natives (fuel + 1) (relabel g e)) := by
  cases e with
  | literal l =>
    have same := Relabels.pure (g := g) (Value.ofLiteral l)
    rw [Value.ofLiteral_relabel] at same
    exact same
  | grouping e => exact ih.evaluate e
  | unary op e => exact (ih.evaluate e).bind fun v => .unary op v
  | binary a op b =>
    exact (ih.evaluate a).bind fun left => (ih.evaluate b).bind fun right => .binary op left right
  | logical a op b =>
    refine (ih.evaluate a).bind fun left => ?_
    rw [decides_relabel]
    split
    · exact .pure left
    · exact ih.evaluate b
  | reference name => exact .lookup name
  | assign name e => exact (ih.evaluate e).bind fun v => .assign name v
  | call f paren args =>
    rw [Expr.relabel_call]
    exact (ih.evaluate f).bind fun callee => (ih.evaluateAll args).bind fun values =>
      ih.call paren callee values

theorem evaluateAll_succ (es : List Expr) :
    Relabels g (Lox.evaluateAll natives (fuel + 1) es)
      (Lox.evaluateAll natives (fuel + 1) (relabel g es)) := by
  cases es with
  | nil => exact .pure []
  | cons e es =>
    exact (ih.evaluate e).bind fun v => (ih.evaluateAll es).bind fun vs => .pure (v :: vs)

theorem call_succ (blind : ∀ f ∈ natives, f.LineBlind) (paren : Token) (f : Value)
    (args : List Value) :
    Relabels g (Lox.call natives (fuel + 1) paren f args)
      (Lox.call natives (fuel + 1) (relabel g paren) (relabel g f) (relabel g args)) := by
  have count : (relabel g args).length = args.length := length_relabel g args
  cases f with
  | native ref =>
    refine Relabels.bind (x := Lox.checkCount paren ref.arity args.length) ?_ fun _ =>
      .callNative blind ref args
    rw [count]
    exact .checkCount paren ref.arity args.length
  | function f =>
    refine Relabels.bind (x := Lox.checkCount paren f.params.length args.length) ?_ fun _ =>
      ?_
    · show Relabels g _ (Lox.checkCount (relabel g paren) (relabel g f.params).length _)
      rw [count, length_relabel]
      exact .checkCount paren f.params.length args.length
    · rw [Closure.callFrame_relabel]
      refine (Relabels.inFrame _ (ih.executeAll f.body)).bind fun completion => ?_
      rw [Completion.value_relabel]
      exact .pure completion.value
  | _ => exact .raise paren .notCallable

theorem execute_succ (s : Stmt) :
    Relabels g (Lox.execute natives (fuel + 1) s) (Lox.execute natives (fuel + 1) (relabel g s)) := by
  have normal : Relabels g (pure Completion.normal) (pure .normal) := .pure Completion.normal
  cases s with
  | expression e => exact (ih.evaluate e).bind fun _ => normal
  | print e => exact (ih.evaluate e).bind fun v => (Relabels.print v).bind fun _ => normal
  | declare name value =>
    cases value with
    | none => exact (Relabels.define name.lexeme .nil).bind fun _ => normal
    | some e =>
      exact (ih.evaluate e).bind fun v => (Relabels.define name.lexeme v).bind fun _ => normal
  | block body =>
    rw [Stmt.relabel_block]
    exact fun m => Relabels.inFrame ⟨[], some m.current⟩ (ih.executeAll body) m
  | ifThen c s =>
    refine (ih.evaluate c).bind fun v => ?_
    rw [Value.isTruthy_relabel]
    split
    · exact ih.execute s
    · exact normal
  | ifElse c s t =>
    refine (ih.evaluate c).bind fun v => ?_
    rw [Value.isTruthy_relabel]
    split
    · exact ih.execute s
    · exact ih.execute t
  | loop c s =>
    refine (ih.evaluate c).bind fun v => ?_
    rw [Value.isTruthy_relabel]
    split
    · exact andThen (ih.execute s) (ih.execute (.loop c s))
    · exact normal
  | function name params body =>
    rw [Stmt.relabel_function]
    exact (Relabels.declare name params body).bind fun _ => normal
  | return_ keyword value =>
    cases value with
    | none => exact .pure (Completion.returned .nil)
    | some e => exact (ih.evaluate e).bind fun v => .pure (Completion.returned v)

theorem executeAll_succ (ss : List Stmt) :
    Relabels g (Lox.executeAll natives (fuel + 1) ss)
      (Lox.executeAll natives (fuel + 1) (relabel g ss)) := by
  cases ss with
  | nil => exact .pure Completion.normal
  | cons s ss => exact andThen (ih.execute s) (ih.executeAll ss)

end Step

/-- A step looks at no line, so no run does. -/
theorem of_lineBlind (blind : ∀ f ∈ natives, f.LineBlind) (fuel : Nat) :
    RunsRelabel g natives fuel := by
  induction fuel with
  | zero => exact zero
  | succ fuel ih =>
    exact ⟨ih.evaluate_succ, ih.evaluateAll_succ, ih.call_succ blind, ih.execute_succ,
      ih.executeAll_succ⟩

end RunsRelabel

theorem interpret_relabel {natives : List Native} (blind : ∀ f ∈ natives, f.LineBlind) (fuel : Nat)
    (ss : List Stmt) :
    Relabels g (interpret natives fuel ss) (interpret natives fuel (relabel g ss)) := by
  induction ss with
  | nil => exact .pure ()
  | cons s ss ih =>
    exact ((RunsRelabel.of_lineBlind blind fuel).execute s).bind fun _ => ih

section Sessions

instance {ε : Type} [Lined ε] : Lined (Except ε α) where
  relabel g
    | .ok a => .ok (relabel g a)
    | .error e => .error (relabel g e)
  relabel_id r := by cases r <;> simp
  relabel_relabel g h r := by cases r <;> simp

instance : Lined Failure where
  relabel g
    | .rejected ds => .rejected (relabel g ds)
    | .stopped why => .stopped (relabel g why)
  relabel_id f := by cases f <;> simp
  relabel_relabel g h f := by cases f <;> simp

instance : Lined Program where
  relabel g p := ⟨relabel g p.statements, relabel g p.diagnostics⟩
  relabel_id p := by simp
  relabel_relabel g h p := by simp

instance : Lined Session where
  relabel g s := { s with machine := relabel g s.machine }
  relabel_id s := by simp
  relabel_relabel g h s := by simp

namespace Session

@[simp] theorem machine_relabel (s : Session) : (relabel g s).machine = relabel g s.machine := rfl

theorem perform_relabel {x y : Eval α} (alike : Relabels g x y) (s : Session) :
    (relabel g s).perform y = relabel g (s.perform x) := by
  unfold perform
  rw [machine_relabel, alike]
  cases x s.machine <;> rfl

theorem interpret_relabel (fuel : Nat) (ss : List Stmt) (s : Session)
    (blind : ∀ f ∈ s.natives, f.LineBlind) :
    (relabel g s).interpret fuel (relabel g ss) = relabel g (s.interpret fuel ss) :=
  perform_relabel (Lox.interpret_relabel blind fuel ss) s

def runProgram (fuel : Nat) (program : Program) (s : Session) : Except Failure Unit × Session :=
  if program.diagnostics.isEmpty then
    let (result, s) := s.interpret fuel program.statements
    (result.mapError .stopped, s)
  else (.error (.rejected program.diagnostics), s)

theorem run_eq (fuel : Nat) (source : String) (s : Session) :
    s.run fuel source = s.runProgram fuel (Program.ofText source) := rfl

theorem runProgram_relabel (fuel : Nat) (program : Program) (s : Session)
    (blind : ∀ f ∈ s.natives, f.LineBlind) :
    (relabel g s).runProgram fuel (relabel g program) = relabel g (s.runProgram fuel program) := by
  obtain ⟨statements, diagnostics⟩ := program
  cases diagnostics with
  | nil =>
    show Prod.map _ id ((relabel g s).interpret fuel (relabel g statements)) = _
    rw [s.interpret_relabel fuel statements blind]
    show _ = relabel g (Prod.map _ id (s.interpret fuel statements))
    obtain ⟨result, after⟩ := s.interpret fuel statements
    cases result <;> rfl
  | cons d ds => rfl

end Session
end Sessions
end Lox
