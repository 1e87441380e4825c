import Lox.Proofs.Acceptance
import Lox.Proofs.Trace

/- Where returns go. A text without diagnostics has no return statement outside of functions, so its
   statements complete normally, and every return that is raised while it runs ends the innermost call
   before anything else happens. -/
namespace Lox

namespace Grammar

/-- No return statement stands outside of functions. -/
def NoReturn (parts : List (Sentence × Bool)) : Prop :=
  ∀ keyword value, (.return_ keyword value, false) ∉ parts

theorem NoReturn.left {parts parts' : List (Sentence × Bool)} (none : NoReturn (parts ++ parts')) :
    NoReturn parts :=
  fun keyword value member => none keyword value (List.mem_append_left _ member)

theorem NoReturn.right {parts parts' : List (Sentence × Bool)} (none : NoReturn (parts ++ parts')) :
    NoReturn parts' :=
  fun keyword value member => none keyword value (List.mem_append_right _ member)

theorem NoReturn.tail {part : Sentence × Bool} {parts : List (Sentence × Bool)}
    (none : NoReturn (part :: parts)) : NoReturn parts :=
  fun keyword value member => none keyword value (List.mem_cons_of_mem _ member)

theorem returns_afterStart (start : Option Start) (loop : Stmt) :
    (afterStart start loop).returns = loop.returns := by
  cases start with
  | none => rfl
  | some start => cases start <;> simp [afterStart, Start.stmt, Stmt.returns, Stmt.returnsOf]

theorem returns_beforeIncrement (body : Stmt) (increment : Option Phrase) :
    (beforeIncrement body increment).returns = body.returns := by
  cases increment <;> simp [beforeIncrement, Stmt.returns, Stmt.returnsOf]

mutual

theorem Sentence.returns_eq_nil (s : Sentence) (none : NoReturn (s.parts false)) :
    s.stmt.returns = [] := by
  cases s with
  | expression | print | declare | function => rfl
  | return_ keyword value => exact absurd List.mem_cons_self (none keyword value)
  | block body => exact body.returns_eq_nil none.tail
  | ifThen condition thenBranch => exact thenBranch.returns_eq_nil none.tail
  | ifElse condition thenBranch elseBranch =>
    rw [Sentence.stmt, Stmt.returns, thenBranch.returns_eq_nil none.tail.left,
      elseBranch.returns_eq_nil none.tail.right, List.append_nil]
  | loop condition body => exact body.returns_eq_nil none.tail
  | count start condition increment body =>
    rw [Sentence.stmt, returns_afterStart, Stmt.returns, returns_beforeIncrement]
    exact body.returns_eq_nil none.tail

theorem Sentences.returns_eq_nil (ss : Sentences) (none : NoReturn (ss.parts false)) :
    Stmt.returnsOf ss.stmts = [] := by
  cases ss with
  | none => rfl
  | more first later =>
    rw [Sentences.stmts, Stmt.returnsOf, first.returns_eq_nil none.left,
      later.returns_eq_nil none.right, List.append_nil]

end

end Grammar

/-- In a text without diagnostics every return statement is inside a function. -/
theorem Program.returns_eq_nil {source : String} (clean : (Program.ofText source).diagnostics = []) :
    Stmt.returnsOf (Program.ofText source).statements = [] := by
  obtain ⟨-, parsed⟩ := List.append_eq_nil_iff.mp clean
  let ts := (Cursor.ofTokens (Scan.ofText source).tokens).rest
  have quiet : (Parse.program ts).2 = [] := List.map_eq_nil_iff.mp parsed
  have expected : Grammar.Clean (Parse.program ts).2 := by
    rw [quiet]
    exact List.forall_mem_nil _
  obtain ⟨tree, -, eq⟩ := Grammar.program_reads expected
  rw [eq] at quiet
  have made : (Program.ofText source).statements = tree.stmts := congrArg Prod.fst eq
  rw [made]
  exact tree.returns_eq_nil ((Grammar.reports_eq_nil_iff_lawful tree).mp quiet).returns

theorem Stmt.returns_eq_nil_of_mem {s : Stmt} {ss : List Stmt} (member : s ∈ ss)
    (none : Stmt.returnsOf ss = []) : s.returns = [] := by
  induction ss with
  | nil => cases member
  | cons first ss ih =>
    obtain ⟨here, there⟩ := List.append_eq_nil_iff.mp none
    rcases List.mem_cons.mp member with rfl | member
    · exact here
    · exact ih member there

def activeAfter : List Closure → List Event → List Closure
  | callers, [] => callers
  | callers, .calls f :: later => activeAfter (f :: callers) later
  | callers, .leaves _ _ :: later => activeAfter callers.tail later
  | callers, .begins _ :: later | callers, .evaluates _ :: later | callers, .raises _ _ :: later
  | callers, .finishes _ _ :: later => activeAfter callers later

theorem WellNested.after {callers : List Closure} {before later : List Event}
    (nested : WellNested callers (before ++ later)) :
    WellNested (activeAfter callers before) later := by
  induction before generalizing callers with
  | nil => exact nested
  | cons event before ih =>
    cases event with
    | begins s => exact ih nested
    | evaluates e => exact ih nested
    | raises s v => exact ih nested.2
    | calls f => exact ih nested
    | leaves f how =>
      obtain ⟨outer, rfl, nested⟩ := nested
      exact ih nested
    | finishes s how => exact ih nested.2.2

/-- Events of a session up to a place outside of all calls. -/
def AtTop (events : List Event) : Prop :=
  ∀ later, WellNested [] later → WellNested [] (events ++ later)

theorem AtTop.calm {events word : List Event} (top : AtTop events) (calm : Calm word) :
    AtTop (events ++ word) := by
  intro later nested
  rw [List.append_assoc]
  exact top _ (calm [] later nested)

theorem AtTop.finishes {events : List Event} (top : AtTop events) (s : Stmt) :
    AtTop (events ++ [.finishes s .normal]) := by
  intro later nested
  rw [List.append_assoc]
  exact top _ ⟨rfl, rfl, nested⟩

/-- A program without stray returns is traced as it is interpreted, and each of its statements that
completes does so normally. -/
theorem interpret_traced (natives : List Native) (fuel : Nat) {ss : List Stmt}
    (none : Stmt.returnsOf ss = []) (w : Watched) (top : AtTop w.events) :
    (final (Traced.interpret natives fuel ss) w).machine =
        final (interpret natives fuel ss) w.machine ∧
      AtTop (final (Traced.interpret natives fuel ss) w).events := by
  induction ss generalizing w with
  | nil => exact ⟨rfl, top⟩
  | cons s ss ih =>
    obtain ⟨first, others⟩ := List.append_eq_nil_iff.mp none
    have ends := (tracedRuns natives fuel).execute s w
    rw [first] at ends
    rw [Traced.interpret, interpret]
    unfold final
    simp only [bind, EStateM.bind]
    generalize Traced.execute natives fuel s w = r at ends ⊢
    generalize execute natives fuel s w.machine = r' at ends ⊢
    cases ends with
    | ok tells =>
      -- With no return statement inside, the statement has completed normally and is calm.
      cases tells.normal
      have finished : AtTop _ := (top.calm tells).finishes s
      exact ih others ⟨_, _⟩ finished
    | error calm => exact ⟨rfl, top.calm calm⟩

namespace Watched

def run (natives : List Native) (fuel : Nat) (source : String) (w : Watched) : Watched :=
  let program := Program.ofText source
  if program.diagnostics.isEmpty then final (Traced.interpret natives fuel program.statements) w
  else w

/-- The trace of a session that runs source texts, each with its fuel. -/
def of (natives : List Native) (texts : List (Nat × String)) : Watched :=
  texts.foldl (fun w text => w.run natives text.1 text.2) ⟨Machine.start natives, []⟩

theorem run_traced {natives : List Native} {w : Watched} {s : Session} (fuel : Nat) (source : String)
    (same : w.machine = s.machine) (host : s.natives = natives) (top : AtTop w.events) :
    (w.run natives fuel source).machine = (s.run fuel source).2.machine ∧
      (s.run fuel source).2.natives = natives ∧ AtTop (w.run natives fuel source).events := by
  subst host
  rw [run, Session.run]
  by_cases clean : (Program.ofText source).diagnostics.isEmpty
  · simp only [clean, if_true]
    have none := Program.returns_eq_nil (List.isEmpty_iff.mp clean)
    obtain ⟨machine, top'⟩ := interpret_traced s.natives fuel none w top
    obtain ⟨ends, keeps⟩ :=
      s.perform_machine (Lox.interpret s.natives fuel (Program.ofText source).statements)
    rw [same] at machine
    exact ⟨machine.trans ends.symm, keeps, top'⟩
  · simp only [clean]
    exact ⟨same, rfl, top⟩

theorem of_traced (natives : List Native) (texts : List (Nat × String)) :
    (of natives texts).machine =
        (Session.after natives (texts.map fun text => .run text.1 text.2)).machine ∧
      AtTop (of natives texts).events := by
  have along : ∀ (texts : List (Nat × String)) (w : Watched) (s : Session),
      w.machine = s.machine → s.natives = natives → AtTop w.events →
      (texts.foldl (fun w text => w.run natives text.1 text.2) w).machine =
          ((texts.map fun text => Step.run text.1 text.2).foldl Step.perform s).machine ∧
        AtTop (texts.foldl (fun w text => w.run natives text.1 text.2) w).events := by
    intro texts
    induction texts with
    | nil => exact fun _ _ same _ top => ⟨same, top⟩
    | cons text texts ih =>
      intro w s same host top
      obtain ⟨same', host', top'⟩ := run_traced text.1 text.2 same host top
      exact ih _ _ same' host' top'
  exact along texts _ _ rfl rfl fun _ nested => nested

end Watched

/-- No return goes astray. A statement of a text without diagnostics never completes with a return,
from any machine. A statement that does complete with one has raised it last, in a return statement
inside it. In every session that runs texts, statements of the texts complete normally, and each return
is raised by a statement in the body of the innermost active call, which it ends with its value before
anything else is begun. -/
theorem no_stray_return (natives : List Native) :
    (∀ source, (Program.ofText source).diagnostics = [] →
      ∀ s ∈ (Program.ofText source).statements, ∀ fuel m v n,
        execute natives fuel s m ≠ .ok (.returned v) n) ∧
    (∀ fuel s (w : Watched) v n, execute natives fuel s w.machine = .ok (.returned v) n →
      ∃ r ∈ s.returns, ∃ word,
        Traced.execute natives fuel s w =
          .ok (.returned v) ⟨n, w.events ++ word ++ [.raises r v]⟩) ∧
    ∀ texts, (Watched.of natives texts).machine =
        (Session.after natives (texts.map fun text => .run text.1 text.2)).machine ∧
      (∀ before s how after, (Watched.of natives texts).events = before ++ .finishes s how :: after →
        activeAfter [] before = [] ∧ how = .normal) ∧
      ∀ before s v after, (Watched.of natives texts).events = before ++ .raises s v :: after →
        ∃ f outer rest, activeAfter [] before = f :: outer ∧ s ∈ Stmt.returnsOf f.body ∧
          after = .leaves f (some (.returned v)) :: rest := by
  refine ⟨?_, ?_, ?_⟩
  · intro source clean s member fuel m v n returned
    have none := Stmt.returns_eq_nil_of_mem member (Program.returns_eq_nil clean)
    have ends := (tracedRuns natives fuel).execute s ⟨m, []⟩
    rw [none, returned] at ends
    generalize Traced.execute natives fuel s ⟨m, []⟩ = r at ends
    cases ends with
    | ok tells => cases tells.normal
  · intro fuel s w v n returned
    have ends := (tracedRuns natives fuel).execute s w
    rw [returned] at ends
    generalize Traced.execute natives fuel s w = r at ends ⊢
    cases ends with
    | ok tells =>
      obtain ⟨calm, r, inside, -, rfl⟩ := tells
      exact ⟨r, inside, calm, by rw [List.append_assoc]⟩
  · intro texts
    obtain ⟨machine, top⟩ := Watched.of_traced natives texts
    have nested := top [] trivial
    rw [List.append_nil] at nested
    refine ⟨machine, ?_, ?_⟩
    · intro before s how after eq
      rw [eq] at nested
      obtain ⟨outside, normal, -⟩ := nested.after
      exact ⟨outside, normal⟩
    · intro before s v after eq
      rw [eq] at nested
      exact nested.after.1

/-- A return from inside a loop ends the call of its function, and all that comes after is the end of
the statement with the call. -/
theorem no_stray_return_loop :
    let source := "fun f() \x7b while (true) \x7b return nil; \x7d print true; \x7d f();"
    (Program.ofText source).diagnostics = [] ∧
      (∀ s ∈ (Program.ofText source).statements, ∀ fuel m v n,
        execute Native.standard fuel s m ≠ .ok (.returned v) n) ∧
      ∃ before s v f last, (Watched.of Native.standard [(20, source)]).events =
        before ++ [.raises s v, .leaves f (some (.returned v)), last] := by
  intro source
  have clean : (Program.ofText source).diagnostics = [] := by decide +kernel
  obtain ⟨normal, -, traces⟩ := no_stray_return Native.standard
  refine ⟨clean, normal source clean, ?_⟩
  have raised : (Watched.of Native.standard [(20, source)]).events[11]?.map
      (fun | .raises _ _ => true | _ => false) = some true := by decide +kernel
  have length : (Watched.of Native.standard [(20, source)]).events.length = 14 := by decide +kernel
  have consumed := (traces [(20, source)]).2.2
  generalize (Watched.of Native.standard [(20, source)]).events = events at raised length consumed ⊢
  obtain ⟨event, found, kind⟩ := Option.map_eq_some_iff.mp raised
  obtain ⟨less, rfl⟩ := List.getElem?_eq_some_iff.mp found
  have split := (List.take_append_drop 11 events).symm
  rw [List.drop_eq_getElem_cons less] at split
  generalize events[11] = event at kind split
  cases event with
  | raises s v =>
    obtain ⟨f, outer, rest, -, -, after⟩ := consumed _ s v _ split
    rw [after] at split
    have one : rest.length = 1 := by
      have count := congrArg List.length split
      simp only [length, List.length_append, List.length_take, List.length_cons] at count
      omega
    obtain ⟨last, rfl⟩ := List.length_eq_one_iff.mp one
    exact ⟨_, s, v, f, last, split⟩
  | _ => cases kind

end Lox
