import Lox.Proofs.Frames

/- Sessions with a record of every moment. A second runner performs the same actions and notes the
   machine after each of them and at both ends of each scope, with the frames whose scopes were left
   by then. Forgetting the record gives the session itself. -/
namespace Lox

/-- A machine while a session runs, and the frames whose block or call has ended. -/
structure Moment where
  machine : Machine
  finished : List Nat

structure Log where
  now : Moment
  past : List Moment

abbrev Recorded := EStateM Stop Log

namespace Log

variable {α : Type}

def note (l : Log) (next : Moment) : Log := ⟨next, l.now :: l.past⟩

def moments (l : Log) : List Moment := (l.now :: l.past).reverse

def perform (x : Eval α) : Recorded α := fun l =>
  match x l.now.machine with
  | .ok a m => .ok a (l.note { l.now with machine := m })
  | .error why m => .error why (l.note { l.now with machine := m })

/-- The moment of going back to frame `outer`; the scope of frame `inner` has ended. -/
def leave (outer inner : Nat) (l : Log) : Log :=
  l.note ⟨{ l.now.machine with current := outer }, inner :: l.now.finished⟩

def scope (frame : Frame) (body : Recorded α) : Recorded α := fun l =>
  let outer := l.now.machine.current
  let inner := l.now.machine.store.size
  match body (l.note { l.now with machine := l.now.machine.inside frame }) with
  | .ok a l' => .ok a (l'.leave outer inner)
  | .error why l' => .error why (l'.leave outer inner)

theorem final_perform (x : Eval α) (l : Log) :
    final (perform x) l = l.note { l.now with machine := final x l.now.machine } := by
  unfold final perform
  cases x l.now.machine <;> rfl

theorem final_scope (frame : Frame) (body : Recorded α) (l : Log) :
    final (scope frame body) l =
      (final body (l.note { l.now with machine := l.now.machine.inside frame })).leave
        l.now.machine.current l.now.machine.store.size := by
  unfold final scope
  simp only
  cases body (l.note { l.now with machine := l.now.machine.inside frame }) <;> rfl

def forget : EStateM.Result Stop Log α → EStateM.Result Stop Machine α
  | .ok a l => .ok a l.now.machine
  | .error why l => .error why l.now.machine

def Records (x : Recorded α) (y : Eval α) : Prop := ∀ l, forget (x l) = y l.now.machine

theorem records_perform (x : Eval α) : Records (perform x) x := by
  intro l
  unfold perform
  cases x l.now.machine <;> rfl

theorem records_scope (frame : Machine → Frame) {x : Recorded α} {y : Eval α}
    (inner : Records x y) :
    Records (fun l => scope (frame l.now.machine) x l)
      fun m => Machine.inFrame (frame m) y m := by
  intro l
  have same := inner (l.note { l.now with machine := l.now.machine.inside (frame l.now.machine) })
  unfold scope Machine.inFrame
  simp only
  unfold note Machine.inside at same ⊢
  simp only at same ⊢
  rw [← same]
  cases x _ <;> rfl

theorem Records.final {x : Recorded α} {y : Eval α} (records : Records x y) (l : Log) :
    (final x l).now.machine = Lox.final y l.now.machine := by
  unfold Lox.final
  rw [← records l]
  cases x l <;> rfl

end Log

namespace Runner

def recording (natives : List Native) : Runner Recorded where
  act x := Log.perform (x.perform natives)
  stop := throw
  block body := fun l => Log.scope ⟨[], some l.now.machine.current⟩ body l
  enter f args body := Log.scope (f.callFrame args) body

theorem records_related (natives : List Native) :
    Related (recording natives) (machine natives) (fun _ => True)
      fun _ _ p x y => Log.Records x y ∧ Yields p y where
  pure given := ⟨fun _ => rfl, by rintro s a t ⟨⟩; exact given⟩
  bind := by
    intro mode α β p q x y f g first second
    constructor
    · intro l
      have same := first.1 l
      simp only [bind, EStateM.bind]
      rw [← same]
      cases eq : x l with
      | error why l' => rfl
      | ok a l' =>
        have ok : y l.now.machine = .ok a l'.now.machine := by
          rw [← same, eq]
          rfl
        exact (second a (first.2 ok)).1 l'
    · exact Yields.bind first.2 fun a given => (second a given).2
  weaken related := related
  literal _ := trivial
  stop _ := ⟨fun _ => rfl, nofun⟩
  act x _ := ⟨Log.records_perform _, fun _ => act_gives x _⟩
  block related :=
    ⟨Log.records_scope (fun m => ⟨[], some m.current⟩) related.1, fun _ => completion_gives _⟩
  enter := by
    intro f args x y _ _ related
    exact ⟨Log.records_scope (fun _ => f.callFrame args) related.1, fun _ => completion_gives _⟩

end Runner

inductive Step where
  | evaluate (fuel : Nat) (e : Expr)
  | execute (fuel : Nat) (s : Stmt)
  | interpret (fuel : Nat) (ss : List Stmt)
  | run (fuel : Nat) (source : String)
  | defineGlobal (name : String) (value : Value)

namespace Step

def perform (s : Session) : Step → Session
  | .evaluate fuel e => (s.evaluate fuel e).2
  | .execute fuel stmt => (s.execute fuel stmt).2
  | .interpret fuel stmts => (s.interpret fuel stmts).2
  | .run fuel source => (s.run fuel source).2
  | .defineGlobal name value => s.defineGlobal name value

def record (natives : List Native) (l : Log) : Step → Log
  | .evaluate fuel e => final ((Runner.recording natives).evaluate fuel e) l
  | .execute fuel stmt => final ((Runner.recording natives).execute fuel stmt) l
  | .interpret fuel stmts => final ((Runner.recording natives).interpret fuel stmts) l
  | .run fuel source =>
    let program := Program.ofText source
    if program.diagnostics.isEmpty then
      final ((Runner.recording natives).interpret fuel program.statements) l
    else l
  | .defineGlobal name value =>
    l.note { l.now with machine :=
      { l.now.machine with
        store := l.now.machine.store.define Machine.globals name value } }

end Step

def Session.after (natives : List Native) (steps : List Step) : Session :=
  steps.foldl Step.perform (.start natives)

def Log.of (natives : List Native) (steps : List Step) : Log :=
  steps.foldl (Step.record natives) ⟨⟨Machine.start natives, []⟩, []⟩

namespace Session

variable {α : Type}

theorem perform_machine (x : Eval α) (s : Session) :
    (s.perform x).2.machine = final x s.machine ∧ (s.perform x).2.natives = s.natives := by
  unfold perform final
  cases x s.machine <;> exact ⟨rfl, rfl⟩

/-- What a session does with a text: nothing, all of it, or what stands before a stop. -/
inductive Answers (fuel : Nat) (source : String) (s : Session) :
    Except Failure Unit × Session → Prop where
  | rejected (found : (Program.ofText source).diagnostics ≠ []) :
      Answers fuel source s (.error (.rejected (Program.ofText source).diagnostics), s)
  | done {m : Machine} (accepted : (Program.ofText source).diagnostics = [])
      (ran : Lox.interpret s.natives fuel (Program.ofText source).statements s.machine = .ok () m) :
      Answers fuel source s (.ok (), { s with machine := m })
  | stopped {why : Stop} {m : Machine} (accepted : (Program.ofText source).diagnostics = [])
      (ran : Lox.interpret s.natives fuel (Program.ofText source).statements s.machine =
        .error why m) :
      Answers fuel source s (.error (.stopped why), { s with machine := m })

variable {fuel : Nat} {source : String} {s : Session}

theorem run_of_diagnostics (found : (Program.ofText source).diagnostics ≠ []) :
    s.run fuel source = (.error (.rejected (Program.ofText source).diagnostics), s) := by
  have unclean : ¬ (Program.ofText source).diagnostics.isEmpty = true :=
    fun clean => found (List.isEmpty_iff.mp clean)
  exact if_neg unclean

theorem run_of_accepted (accepted : (Program.ofText source).diagnostics = []) :
    s.run fuel source =
      match Lox.interpret s.natives fuel (Program.ofText source).statements s.machine with
      | .ok () m => (.ok (), { s with machine := m })
      | .error why m => (.error (.stopped why), { s with machine := m }) := by
  have clean : (Program.ofText source).diagnostics.isEmpty = true := List.isEmpty_iff.mpr accepted
  refine (if_pos clean).trans ?_
  cases Lox.interpret s.natives fuel (Program.ofText source).statements s.machine <;> rfl

theorem run_answers (fuel : Nat) (source : String) (s : Session) :
    s.Answers fuel source (s.run fuel source) := by
  by_cases accepted : (Program.ofText source).diagnostics = []
  · rw [run_of_accepted accepted]
    cases ran : Lox.interpret s.natives fuel (Program.ofText source).statements s.machine with
    | ok _ m => exact .done accepted ran
    | error why m => exact .stopped accepted ran
  · rw [run_of_diagnostics accepted]
    exact .rejected accepted

end Session

theorem recording_ends (natives : List Native) (l : Log) (fuel : Nat) :
    (∀ e, (final ((Runner.recording natives).evaluate fuel e) l).now.machine =
      final (evaluate natives fuel e) l.now.machine) ∧
    (∀ s, (final ((Runner.recording natives).execute fuel s) l).now.machine =
      final (execute natives fuel s) l.now.machine) ∧
    ∀ ss, (final ((Runner.recording natives).interpret fuel ss) l).now.machine =
      final (interpret natives fuel ss) l.now.machine := by
  have runs := (Runner.records_related natives).runs fuel
  have same := Runner.isEvaluator natives fuel
  refine ⟨?_, ?_, ?_⟩
  · intro e
    rw [← same.evaluate]
    exact (runs.evaluate e).1.final l
  · intro s
    rw [← same.execute]
    exact (runs.execute s).1.final l
  · intro ss
    rw [← Runner.machine_interpret]
    exact ((Runner.records_related natives).interpret fuel ss).1.final l

theorem Step.record_machine {natives : List Native} {l : Log} {s : Session} (step : Step)
    (same : l.now.machine = s.machine) (host : s.natives = natives) :
    (step.record natives l).now.machine = (step.perform s).machine ∧
      (step.perform s).natives = natives := by
  subst host
  cases step with
  | evaluate fuel e =>
    obtain ⟨ends, keeps⟩ := s.perform_machine (Lox.evaluate s.natives fuel e)
    rw [Step.record, (recording_ends s.natives l fuel).1, same]
    exact ⟨ends.symm, keeps⟩
  | execute fuel stmt =>
    obtain ⟨ends, keeps⟩ := s.perform_machine (Lox.execute s.natives fuel stmt)
    rw [Step.record, (recording_ends s.natives l fuel).2.1, same]
    exact ⟨ends.symm, keeps⟩
  | interpret fuel stmts =>
    obtain ⟨ends, keeps⟩ := s.perform_machine (Lox.interpret s.natives fuel stmts)
    rw [Step.record, (recording_ends s.natives l fuel).2.2, same]
    exact ⟨ends.symm, keeps⟩
  | run fuel source =>
    obtain ⟨ends, keeps⟩ :=
      s.perform_machine (Lox.interpret s.natives fuel (Program.ofText source).statements)
    rw [Step.record, Step.perform, Session.run]
    by_cases clean : (Program.ofText source).diagnostics.isEmpty
    · simp only [clean, if_true]
      rw [(recording_ends s.natives l fuel).2.2, same]
      exact ⟨ends.symm, keeps⟩
    · simp only [clean]
      exact ⟨same, rfl⟩
  | defineGlobal name value =>
    refine ⟨?_, rfl⟩
    simp only [Step.record, Step.perform, Log.note, Session.defineGlobal, same]

theorem Log.of_session (natives : List Native) (steps : List Step) :
    (Log.of natives steps).now.machine = (Session.after natives steps).machine ∧
      (Session.after natives steps).natives = natives := by
  have along : ∀ (steps : List Step) (l : Log) (s : Session), l.now.machine = s.machine →
      s.natives = natives →
      (steps.foldl (Step.record natives) l).now.machine = (steps.foldl Step.perform s).machine ∧
        (steps.foldl Step.perform s).natives = natives := by
    intro steps
    induction steps with
    | nil => exact fun _ _ same host => ⟨same, host⟩
    | cons step steps ih =>
      intro l s same host
      obtain ⟨same', host'⟩ := step.record_machine same host
      exact ih _ _ same' host'
  exact along steps _ _ rfl rfl

/-- The record of a session ends with the machine of the session. -/
theorem Log.of_machine (natives : List Native) (steps : List Step) :
    (Log.of natives steps).now.machine = (Session.after natives steps).machine :=
  (Log.of_session natives steps).1

end Lox
