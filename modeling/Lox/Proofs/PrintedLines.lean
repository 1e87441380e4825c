import Lox.Proofs.Frames
import Lox.Proofs.Joined

/- Printed lines. Nothing that runs looks at what was printed before it: with other lines in front, a
   run ends the same and adds the same lines behind them. A program that fails has done what its
   statements did up to the failing one, and no more. -/
namespace Lox

variable {α : Type}

namespace Machine

def behind (lines : Array String) (m : Machine) : Machine := { m with output := lines ++ m.output }

def silent (m : Machine) : Machine := { m with output := #[] }

def DiffersInOutput (m n : Machine) : Prop := n = { m with output := n.output }

theorem store_behind (lines : Array String) (m : Machine) : (m.behind lines).store = m.store := rfl

theorem current_behind (lines : Array String) (m : Machine) : (m.behind lines).current = m.current :=
  rfl

theorem behind_silent (m : Machine) : m.silent.behind m.output = m := by
  simp [silent, behind]

theorem DiffersInOutput.silent_eq {m n : Machine} (differs : m.DiffersInOutput n) :
    n.silent = m.silent := by
  rw [differs]
  rfl

end Machine

def endBehind (lines : Array String) :
    EStateM.Result Stop Machine α → EStateM.Result Stop Machine α
  | .ok a m => .ok a (m.behind lines)
  | .error why m => .error why (m.behind lines)

/-- Code that only adds to what was printed, and does not look at it. -/
def OnlyPrints (x : Eval α) : Prop :=
  ∀ lines m, x (m.behind lines) = endBehind lines (x m)

namespace OnlyPrints

theorem of_stateless {p : α → Prop} {x : Eval α} (stateless : Stateless p x) : OnlyPrints x := by
  intro lines m
  rcases stateless with ⟨a, -, rfl⟩ | ⟨why, rfl⟩
  · rfl
  · rfl

theorem print (value : Value) : OnlyPrints (Machine.print value) := by
  intro lines m
  have pushed : (lines ++ m.output).push value.render = lines ++ m.output.push value.render :=
    Array.append_push.symm
  exact congrArg (fun output => EStateM.Result.ok () { m with output }) pushed

theorem perform (natives : List Native) (x : Act α) : OnlyPrints (x.perform natives) := by
  cases x with
  | unary op v => exact of_stateless (unaryValue_stateless op v)
  | binary op v w => exact of_stateless (binaryValue_stateless op v w)
  | checkCount paren expected given => exact of_stateless (checkCount_stateless paren expected given)
  | define name v => exact fun _ _ => rfl
  | print v => exact print v
  | declare name params body => exact fun _ _ => rfl
  | lookup name =>
    intro lines m
    rw [Act.perform, Machine.lookup_eq, Machine.lookup_eq, Machine.store_behind,
      Machine.current_behind]
    cases m.store.lookup? name.lexeme m.current <;> rfl
  | assign name v =>
    intro lines m
    rw [Act.perform, Machine.assign_eq, Machine.assign_eq, Machine.store_behind,
      Machine.current_behind]
    cases m.store.resolve? name.lexeme m.current <;> rfl
  | native ref args =>
    intro lines m
    rw [Act.perform, Machine.callNative_eq, Machine.callNative_eq]
    cases natives[ref.slot]? <;> rfl

theorem inFrame (frame : Machine → Frame) {x : Eval α} (inner : OnlyPrints x)
    (blind : ∀ lines m, frame (m.behind lines) = frame m) :
    OnlyPrints fun m => Machine.inFrame (frame m) x m := by
  intro lines m
  have inside := inner lines (m.inside (frame m))
  simp only [Machine.inFrame_eq, blind]
  show (match x ((m.inside (frame m)).behind lines) with | .ok _ _ => _ | .error _ _ => _) = _
  rw [inside]
  cases x (m.inside (frame m)) <;> rfl

theorem kept (natives : List Native) :
    Runner.Kept (Runner.machine natives) fun _ _ x => OnlyPrints x where
  pure _ := fun _ _ => rfl
  bind := by
    intro mode α β x f first second lines m
    simp only [bind, EStateM.bind, first lines m]
    cases eq : x m with
    | ok a n => exact second eq lines n
    | error why n => rfl
  weaken prints := prints
  throws _ := rfl
  stop _ := fun _ _ => rfl
  act := perform natives
  block inner := inFrame (fun m => ⟨[], some m.current⟩) inner fun _ _ => rfl
  enter f args _ inner := inFrame (fun _ => f.callFrame args) inner fun _ _ => rfl

end OnlyPrints

/-- Both runs end with the same outcome, on machines that differ in nothing but the output, and each
has added the same lines to what was printed before it. -/
inductive AddsAlike (m n : Machine) :
    EStateM.Result Stop Machine α → EStateM.Result Stop Machine α → Prop where
  | ok {a : α} {last : Machine} (lines : Array String) :
      AddsAlike m n (.ok a { last with output := m.output ++ lines })
        (.ok a { last with output := n.output ++ lines })
  | error {why : Stop} {last : Machine} (lines : Array String) :
      AddsAlike m n (.error why { last with output := m.output ++ lines })
        (.error why { last with output := n.output ++ lines })

theorem OnlyPrints.addsAlike {x : Eval α} (prints : OnlyPrints x) {m n : Machine}
    (differs : m.DiffersInOutput n) : AddsAlike m n (x m) (x n) := by
  have first : x m = endBehind m.output (x m.silent) := by
    rw [← prints, Machine.behind_silent]
  have second : x n = endBehind n.output (x m.silent) := by
    rw [← prints, ← differs.silent_eq, Machine.behind_silent]
  rw [first, second]
  cases x m.silent with
  | ok a last => exact .ok last.output
  | error why last => exact .error last.output

theorem OnlyPrints.output_grows {x : Eval α} (prints : OnlyPrints x) (m : Machine) :
    ∃ lines, (final x m).output = m.output ++ lines := by
  have alike := prints.addsAlike (m := m) (n := m) rfl
  unfold final
  generalize x m = r at alike
  cases alike with
  | ok lines => exact ⟨lines, rfl⟩
  | error lines => exact ⟨lines, rfl⟩

section Code

variable (natives : List Native) (fuel : Nat)

theorem evaluate_onlyPrints (e : Expr) : OnlyPrints (evaluate natives fuel e) := by
  rw [← (Runner.isEvaluator natives fuel).evaluate]
  exact (((OnlyPrints.kept natives).related.runs fuel).evaluate e).1

theorem execute_onlyPrints (s : Stmt) : OnlyPrints (execute natives fuel s) := by
  rw [← (Runner.isEvaluator natives fuel).execute]
  exact (((OnlyPrints.kept natives).related.runs fuel).execute s).1

theorem interpret_onlyPrints (ss : List Stmt) : OnlyPrints (interpret natives fuel ss) := by
  rw [← Runner.machine_interpret]
  exact ((OnlyPrints.kept natives).related.interpret fuel ss).1

variable {natives fuel} {before later : List Stmt} {s : Stmt} {m n last : Machine} {why : Stop}

theorem interpret_of_failed (ran : interpret natives fuel before m = .ok () n)
    (failed : execute natives fuel s n = .error why last) (later : List Stmt) :
    interpret natives fuel (before ++ s :: later) m = .error why last := by
  rw [interpret_append, bind_of_ok ran, interpret]
  simp only [bind, EStateM.bind, failed]

/-- A program fails at one of its statements. -/
theorem failed_statement {ss : List Stmt} (failed : interpret natives fuel ss m = .error why last) :
    ∃ before s later n, ss = before ++ s :: later ∧ interpret natives fuel before m = .ok () n ∧
      execute natives fuel s n = .error why last := by
  induction ss generalizing m with
  | nil => cases failed
  | cons s ss ih =>
    rw [interpret] at failed
    simp only [bind, EStateM.bind] at failed
    cases first : execute natives fuel s m with
    | error why' n =>
      rw [first] at failed
      cases failed
      exact ⟨[], s, ss, m, rfl, rfl, first⟩
    | ok completion n =>
      rw [first] at failed
      obtain ⟨before, s', later, n', rfl, ran, failed'⟩ := ih failed
      refine ⟨s :: before, s', later, n', rfl, ?_, failed'⟩
      rw [interpret, bind_of_ok first]
      exact ran

end Code

/-- Output is an append-only log that nothing reads. On machines that differ only in what was printed,
expressions, statements and programs end the same, leave the same frames, and add the same lines. A
program fails at one of its statements, and then it has printed, bound and ended as if that statement
were its last: what comes after has done nothing, and what came before stays printed. -/
theorem output_unread (natives : List Native) (fuel : Nat) :
    (∀ m n : Machine, m.DiffersInOutput n →
      (∀ e, AddsAlike m n (evaluate natives fuel e m) (evaluate natives fuel e n)) ∧
      (∀ s, AddsAlike m n (execute natives fuel s m) (execute natives fuel s n)) ∧
      ∀ ss, AddsAlike m n (interpret natives fuel ss m) (interpret natives fuel ss n)) ∧
    (∀ ss m why last, interpret natives fuel ss m = .error why last →
      ∃ before s later n, ss = before ++ s :: later ∧
        interpret natives fuel before m = .ok () n ∧ execute natives fuel s n = .error why last) ∧
    ∀ before s m n why last, interpret natives fuel before m = .ok () n →
      execute natives fuel s n = .error why last →
      interpret natives fuel (before ++ [s]) m = .error why last ∧
      (∀ later, interpret natives fuel (before ++ [s] ++ later) m =
        interpret natives fuel (before ++ [s]) m) ∧
      ∃ lines lines', n.output = m.output ++ lines ∧ last.output = m.output ++ lines ++ lines' := by
  refine ⟨?_, ?_, ?_⟩
  · intro m n differs
    exact ⟨fun e => (evaluate_onlyPrints natives fuel e).addsAlike differs,
      fun s => (execute_onlyPrints natives fuel s).addsAlike differs,
      fun ss => (interpret_onlyPrints natives fuel ss).addsAlike differs⟩
  · intro ss m why last failed
    exact failed_statement failed
  · intro before s m n why last ran failed
    have alone := interpret_of_failed ran failed []
    refine ⟨alone, ?_, ?_⟩
    · intro later
      rw [alone, List.append_assoc]
      exact interpret_of_failed ran failed later
    · obtain ⟨lines, added⟩ := (interpret_onlyPrints natives fuel before).output_grows m
      obtain ⟨lines', added'⟩ := (execute_onlyPrints natives fuel s).output_grows n
      rw [final, ran] at added
      rw [final, failed] at added'
      exact ⟨lines, lines', added, by rw [← added]; exact added'⟩

/-- After a line of its own a program negates nil: it fails with that line printed, behind whatever was
printed before, and its last statement prints nothing. -/
theorem output_unread_negation :
    let before := [Stmt.print (.literal (.bool true))]
    let s := Stmt.print (.unary ⟨.symbol .minus, "-", 2⟩ (.literal .nil))
    let later := [Stmt.print (.literal (.bool false))]
    let m := Machine.start Native.standard
    let n : Machine := { m with output := #["earlier"] }
    m.DiffersInOutput n ∧
      AddsAlike m n (interpret Native.standard 9 (before ++ [s] ++ later) m)
        (interpret Native.standard 9 (before ++ [s] ++ later) n) ∧
      ∃ last, interpret Native.standard 9 (before ++ [s] ++ later) m =
          .error (.fault ⟨.operandNotNumber, 2⟩) last ∧
        interpret Native.standard 9 (before ++ [s]) m =
          .error (.fault ⟨.operandNotNumber, 2⟩) last ∧
        last.output = #["true"] := by
  intro before s later m n
  obtain ⟨alike, -, fails⟩ := output_unread Native.standard 9
  have differs : m.DiffersInOutput n := rfl
  have ran : interpret Native.standard 9 before m =
      .ok () { m with output := #["true"] } := rfl
  obtain ⟨alone, same, -⟩ := fails before s m _ _ _ ran rfl
  exact ⟨differs, (alike m n differs).2.2 _, _, (same later).trans alone, alone, rfl⟩

end Lox
