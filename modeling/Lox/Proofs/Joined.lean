import Lox.Proofs.Relabel
import Lox.Proofs.Seams

/- Two texts in one. Run in turn on a session, or joined by a line break and run at once, they do the
   same up to lines. Where a token came from is told by marking the lines of the second text; as no
   run looks at a line, one marked run stands for both. -/
namespace Lox

theorem interpret_append (natives : List Native) (fuel : Nat) (ss later : List Stmt) :
    interpret natives fuel (ss ++ later) =
      interpret natives fuel ss >>= fun _ => interpret natives fuel later := by
  induction ss with
  | nil => rfl
  | cons s ss ih =>
    rw [List.cons_append, interpret, interpret, ih, bind_assoc]

namespace Session

def inTurn (run next : Session → Except Failure Unit × Session) (s : Session) :
    Except Failure Unit × Session :=
  match run s with
  | (.ok (), after) => next after
  | failed => failed

theorem inTurn_of_failed {run next : Session → Except Failure Unit × Session} {s : Session}
    (failed : (run s).1 ≠ .ok ()) : s.inTurn run next = run s := by
  unfold inTurn
  split
  · rename_i eq
    rw [eq] at failed
    exact absurd rfl failed
  · rfl

section InTurn

variable {g : Nat → Nat} (fuel : Nat) (p q : Program) (s : Session)

theorem natives_runProgram : (s.runProgram fuel p).2.natives = s.natives := by
  unfold runProgram interpret perform
  split
  · cases Lox.interpret s.natives fuel p.statements s.machine <;> rfl
  · rfl

/-- Programs without diagnostics do in turn what their statements do together. -/
theorem runProgram_append (ss later : List Stmt) :
    s.runProgram fuel ⟨ss ++ later, []⟩ =
      s.inTurn (·.runProgram fuel ⟨ss, []⟩) (·.runProgram fuel ⟨later, []⟩) := by
  have together : Lox.interpret s.natives fuel (ss ++ later) s.machine =
      (Lox.interpret s.natives fuel ss).bind (fun _ => Lox.interpret s.natives fuel later) s.machine :=
    congrFun (interpret_append s.natives fuel ss later) s.machine
  simp only [inTurn, runProgram, interpret, perform, together, EStateM.bind]
  cases Lox.interpret s.natives fuel ss s.machine <;> rfl

theorem inTurn_relabel (blind : ∀ f ∈ s.natives, f.LineBlind) :
    (relabel g s).inTurn (·.runProgram fuel (relabel g p)) (·.runProgram fuel (relabel g q)) =
      relabel g (s.inTurn (·.runProgram fuel p) (·.runProgram fuel q)) := by
  have natives := s.natives_runProgram fuel p
  simp only [inTurn, s.runProgram_relabel fuel p blind]
  generalize s.runProgram fuel p = run at natives ⊢
  obtain ⟨result, after⟩ := run
  cases result with
  | ok => exact after.runProgram_relabel fuel q (natives ▸ blind)
  | error why => rfl

end InTurn
end Session

def secondMark (line : Nat) : Nat := 2 * line + 1

def otherMark (line : Nat) : Nat := 2 * line

def ofSecond (mark : Nat) : Bool := mark % 2 = 1

/-- The line that a mark stands for, if lines of the second text are `shift` further down. -/
def lineOf (shift mark : Nat) : Nat := if ofSecond mark then mark / 2 + shift else mark / 2

section Marks

variable (shift line : Nat)

@[simp] theorem lineOf_secondMark : lineOf shift (secondMark line) = line + shift := by
  have odd : ofSecond (secondMark line) = true := by simp [ofSecond, secondMark]
  rw [lineOf, if_pos odd]
  simp [secondMark, Nat.mul_add_div]

@[simp] theorem lineOf_otherMark : lineOf shift (otherMark line) = line := by
  simp [lineOf, ofSecond, otherMark]

theorem lineOf_eq (mark : Nat) :
    lineOf shift mark = if ofSecond mark then lineOf 0 mark + shift else lineOf 0 mark := by
  unfold lineOf
  split <;> rfl

end Marks

def faultOf : Except Failure Unit → Option Fault
  | .error (.stopped (.fault f)) => some f
  | _ => none

theorem faultOf_relabel (g : Nat → Nat) (result : Except Failure Unit) :
    faultOf (relabel g result) = relabel g (faultOf result) := by
  rcases result with (_ | (_ | _ | _)) | _ <;> rfl

theorem faultOf_lineOf {marked : Except Failure Unit} {f : Fault} (shift : Nat)
    (ends : faultOf (relabel (lineOf 0) marked) = some f) :
    faultOf (relabel (lineOf shift) marked) = some ⟨f.cause,
      if (faultOf marked).any fun f => ofSecond f.line then f.line + shift else f.line⟩ := by
  rw [faultOf_relabel] at ends ⊢
  generalize faultOf marked = fault at ends ⊢
  cases fault with
  | none => cases ends
  | some f' =>
    obtain rfl := Option.some.inj ends
    exact congrArg (fun line => some (Fault.mk f'.cause line)) (lineOf_eq shift f'.line)

namespace Session

variable (fuel : Nat) (first second : String) (s : Session)

/-- Both texts run in turn, with marks for lines. -/
def runMarked : Except Failure Unit × Session :=
  (relabel otherMark s).inTurn
    (·.runProgram fuel (relabel otherMark (Program.ofText first)))
    (·.runProgram fuel (relabel secondMark (Program.ofText second)))

def faultsInSecond : Bool :=
  (faultOf (s.runMarked fuel first second).1).any fun f => ofSecond f.line

variable {s} (blind : ∀ f ∈ s.natives, f.LineBlind)
include blind

/-- The marked run stands for the texts run in turn, the second one any number of lines down. -/
theorem relabel_runMarked (shift : Nat) :
    relabel (lineOf shift) (s.runMarked fuel first second) =
      s.inTurn (·.runProgram fuel (Program.ofText first))
        (·.runProgram fuel (relabel (· + shift) (Program.ofText second))) := by
  have others : lineOf shift ∘ otherMark = id := funext (lineOf_otherMark shift)
  have seconds : lineOf shift ∘ secondMark = (· + shift) := funext (lineOf_secondMark shift)
  rw [runMarked, ← inTurn_relabel fuel _ _ (relabel otherMark s) blind]
  simp only [Lined.relabel_relabel, others, seconds, Lined.relabel_id]

theorem inTurn_eq_marked :
    s.inTurn (·.run fuel first) (·.run fuel second) =
      relabel (lineOf 0) (s.runMarked fuel first second) := by
  rw [relabel_runMarked fuel first second blind, show ((· + 0) : Nat → Nat) = id from rfl,
    Lined.relabel_id]
  rfl

theorem run_joined_eq_marked (accepted : (Program.ofText first).diagnostics = [])
    (accepted' : (Program.ofText second).diagnostics = []) :
    s.run fuel (first ++ "\n" ++ second) =
      relabel (lineOf (1 + newlines first.toList)) (s.runMarked fuel first second) := by
  rw [relabel_runMarked fuel first second blind, run_eq,
    Program.ofText_append_break accepted accepted', runProgram_append]
  have readFirst : Program.ofText first = ⟨(Program.ofText first).statements, []⟩ := by
    rw [← accepted]
  have readSecond : relabel (· + (1 + newlines first.toList)) (Program.ofText second) =
      ⟨relabel (· + (1 + newlines first.toList)) (Program.ofText second).statements, []⟩ :=
    congrArg (Program.mk _) (congrArg (relabel _) accepted')
  rw [readSecond, ← readFirst]

theorem faultsInSecond_of_failed (failed : (s.run fuel first).1 ≠ .ok ()) :
    s.faultsInSecond fuel first second = false := by
  have run := s.runProgram_relabel (g := otherMark) fuel (Program.ofText first) blind
  have failed' : (relabel otherMark (s.run fuel first)).1 ≠ .ok () := by
    generalize s.run fuel first = ran at failed
    obtain ⟨_ | _, after⟩ := ran
    · nofun
    · exact absurd rfl failed
  rw [run_eq, ← run] at failed'
  rw [faultsInSecond, runMarked, inTurn_of_failed failed', run]
  show (faultOf (relabel otherMark (s.run fuel first).1)).any _ = false
  rw [faultOf_relabel]
  cases faultOf (s.run fuel first).1 with
  | none => rfl
  | some f => simp [relabel, ofSecond, otherMark]

end Session

theorem Session.global?_relabel {g : Nat → Nat} (name : String) (s : Session) :
    (relabel g s).global? name = relabel g (s.global? name) := Store.lookup?_relabel _ _ _

/-- A session agrees with the whole text. Of two texts without syntax errors, joined by a line break,
the statements are those of the first and then those of the second, further down; and run at once
they print, bind and end as in turn, up to lines. The line of a fault is further down exactly if it
is at a token of the second text, which it never is if the first text fails. -/
theorem Session.joined_texts_run_in_turn (first second : String)
    (accepted : (Program.ofText first).diagnostics = [])
    (accepted' : (Program.ofText second).diagnostics = []) :
    let joined := first ++ "\n" ++ second
    let shift := 1 + newlines first.toList
    (Program.ofText joined).diagnostics = [] ∧
    (Program.ofText joined).statements = (Program.ofText first).statements ++
      relabel (· + shift) (Program.ofText second).statements ∧
    ∀ s : Session, (∀ f ∈ s.natives, f.LineBlind) → ∀ fuel,
      let whole := s.run fuel joined
      let parts := s.inTurn (·.run fuel first) (·.run fuel second)
      whole.2.machine.output = parts.2.machine.output ∧
      unlined whole.1 = unlined parts.1 ∧
      unlined whole.2 = unlined parts.2 ∧
      (∀ name, unlined (whole.2.global? name) = unlined (parts.2.global? name)) ∧
      (∀ f, faultOf parts.1 = some f → faultOf whole.1 = some ⟨f.cause,
        if s.faultsInSecond fuel first second then f.line + shift else f.line⟩) ∧
      ((s.run fuel first).1 ≠ .ok () → s.faultsInSecond fuel first second = false) := by
  intro joined shift
  have program := Program.ofText_append_break accepted accepted'
  refine ⟨congrArg Program.diagnostics program, congrArg Program.statements program, ?_⟩
  intro s blind fuel whole parts
  have wholeMarked : whole = relabel (lineOf shift) (s.runMarked fuel first second) :=
    run_joined_eq_marked fuel first second blind accepted accepted'
  have partsMarked : parts = relabel (lineOf 0) (s.runMarked fuel first second) :=
    inTurn_eq_marked fuel first second blind
  have alike : unlined whole = unlined parts := by
    rw [wholeMarked, partsMarked, unlined_relabel, unlined_relabel]
  have sessions : unlined whole.2 = unlined parts.2 := congrArg Prod.snd alike
  refine ⟨congrArg (·.machine.output) sessions, congrArg Prod.fst alike, sessions, ?_, ?_,
    faultsInSecond_of_failed fuel first second blind⟩
  · intro name
    have bound := congrArg (Session.global? name) sessions
    rwa [unlined, unlined, global?_relabel, global?_relabel] at bound
  · intro f ends
    rw [partsMarked] at ends
    rw [wholeMarked]
    exact faultOf_lineOf shift ends

/-- A fault in a function of the first text stays on its line, and a call with an argument too many
in the second is two lines further down. -/
theorem Session.joined_texts_run_in_turn_call :
    let first := "fun f() \x7b\nreturn -nil; \x7d"
    let second := "print f;\nf();"
    let second' := "print f;\nf(nil);"
    let s := Session.start Native.standard
    faultOf (s.inTurn (·.run 20 first) (·.run 20 second)).1 = some ⟨.operandNotNumber, 2⟩ ∧
    faultOf (s.run 20 (first ++ "\n" ++ second)).1 = some ⟨.operandNotNumber, 2⟩ ∧
    faultOf (s.inTurn (·.run 20 first) (·.run 20 second')).1 = some ⟨.argumentCount 0 1, 2⟩ ∧
    faultOf (s.run 20 (first ++ "\n" ++ second')).1 = some ⟨.argumentCount 0 1, 4⟩ := by
  intro first second second' s
  have accepted : (Program.ofText first).diagnostics = [] := by decide +kernel
  have agrees := joined_texts_run_in_turn first second accepted (by decide +kernel)
  have agrees' := joined_texts_run_in_turn first second' accepted (by decide +kernel)
  have parts : faultOf (s.inTurn (·.run 20 first) (·.run 20 second)).1 =
      some ⟨.operandNotNumber, 2⟩ := by decide +kernel
  have parts' : faultOf (s.inTurn (·.run 20 first) (·.run 20 second')).1 =
      some ⟨.argumentCount 0 1, 2⟩ := by decide +kernel
  have inFirst : s.faultsInSecond 20 first second = false := by decide +kernel
  have inSecond : s.faultsInSecond 20 first second' = true := by decide +kernel
  have lines : newlines first.toList = 1 := by decide +kernel
  obtain ⟨-, -, -, -, fault, -⟩ := agrees.2.2 s (Native.builtins_lineBlind _) 20
  obtain ⟨-, -, -, -, fault', -⟩ := agrees'.2.2 s (Native.builtins_lineBlind _) 20
  have whole := fault _ parts
  have whole' := fault' _ parts'
  rw [inFirst] at whole
  rw [inSecond, lines] at whole'
  exact ⟨parts, whole, parts', whole'⟩

end Lox
