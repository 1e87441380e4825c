import Lox.Proofs.Causes
import Lox.Proofs.SourceLines

/- Where the faults of a session come from. Values in the frames are built of trees that earlier steps
   have executed, so a step that fails does so at an expression of one of these trees or of its own;
   and the line of the fault is a line of the source that the tree was read from. -/
namespace Lox

namespace Grammar

theorem Derives.closed {l : Level} {ts rest : List Token} {phrase : Phrase}
    (d : Derives l ts phrase rest) : phrase.expr.Every Expr.Closed := by
  induction d using @Derives.rec _ fun _ args _ _ => Expr.EveryOf Expr.Closed args.exprs with
  | constant | name => trivial
  | group _ _ _ inner => exact ⟨trivial, inner⟩
  | primary _ ih | call _ ih | operand _ ih | operation _ ih => exact ih
  | callNone _ _ closes callee => exact ⟨closes, callee, trivial⟩
  | callSome _ _ _ closes callee args => exact ⟨closes, callee, args⟩
  | unary _ _ operand => exact ⟨trivial, operand⟩
  | binary _ _ _ left right =>
    simp only [Phrase.expr]
    split
    · exact ⟨trivial, left, right⟩
    · exact ⟨trivial, left, right⟩
  | @assign _ _ _ _ target _ _ _ _ left right =>
    cases target with
    | name token => exact ⟨trivial, right⟩
    | _ => exact left
  | last _ value => exact ⟨value, trivial⟩
  | more _ _ _ value later => exact ⟨value, later⟩

end Grammar

theorem Parse.expression_closed (ts : List Token) :
    (expression ts).answer.Only (·.Every Expr.Closed) := by
  refine (expression_derives ts).mono ?_
  rintro _ ⟨phrase, rest, derives, rfl⟩
  exact derives.closed

theorem Expr.ReadFrom.closed {source : String} {e : Expr} (read : e.ReadFrom source) :
    e.Every Expr.Closed := by
  obtain ⟨c, -, read⟩ := read
  exact Expr.Read.every Parse.expression_closed ⟨c, read⟩

theorem Stmt.ReadFrom.closed {source : String} {s : Stmt} (read : s.ReadFrom source) :
    s.Every Expr.Closed := by
  obtain ⟨c, -, read⟩ := read
  exact Stmt.Read.every Parse.expression_closed trivial ⟨c, read⟩

/-- The expression is a node of a tree that the step executes, and the tree was read from the
source. -/
inductive Step.Executes (source : String) (node : Expr) : Step → Prop where
  | evaluate {fuel : Nat} {e : Expr} (read : e.ReadFrom source) (inside : node ∈ e.nodes) :
      Executes source node (.evaluate fuel e)
  | execute {fuel : Nat} {s : Stmt} (read : s.ReadFrom source) (inside : node ∈ s.nodes) :
      Executes source node (.execute fuel s)
  | interpret {fuel : Nat} {ss : List Stmt} {s : Stmt} (member : s ∈ ss) (read : s.ReadFrom source)
      (inside : node ∈ s.nodes) : Executes source node (.interpret fuel ss)
  | run {fuel : Nat} {s : Stmt} (clean : (Program.ofText source).diagnostics = [])
      (member : s ∈ (Program.ofText source).statements) (inside : node ∈ s.nodes) :
      Executes source node (.run fuel source)

/-- Trees of the step were read from sources, and a value that it defines is no function of a
program. -/
def Step.Sourced (natives : List Native) : Step → Prop
  | .evaluate _ e => ∃ source, e.ReadFrom source
  | .execute _ s => ∃ source, s.ReadFrom source
  | .interpret _ ss => ∀ s ∈ ss, ∃ source, s.ReadFrom source
  | .run _ _ => True
  | .defineGlobal _ value => value.Sound natives 0

section Steps

variable (natives : List Native)

def Step.action : Step → Eval Unit
  | .evaluate fuel e => Lox.evaluate natives fuel e >>= fun _ => pure ()
  | .execute fuel s => Lox.execute natives fuel s >>= fun _ => pure ()
  | .interpret fuel ss => Lox.interpret natives fuel ss
  | .run fuel source =>
    let program := Program.ofText source
    if program.diagnostics.isEmpty then Lox.interpret natives fuel program.statements else pure ()
  | .defineGlobal name value =>
    modify fun m => { m with store := m.store.define Machine.globals name value }

def Step.traced : Step → Traced Unit
  | .evaluate fuel e => Traced.evaluate natives fuel e >>= fun _ => pure ()
  | .execute fuel s => Traced.execute natives fuel s >>= fun _ => pure ()
  | .interpret fuel ss => Traced.interpret natives fuel ss
  | .run fuel source =>
    let program := Program.ofText source
    if program.diagnostics.isEmpty then Traced.interpret natives fuel program.statements else pure ()
  | .defineGlobal name value =>
    Traced.lift (modify fun m => { m with store := m.store.define Machine.globals name value })

end Steps

/-- All that happens when the step is performed next in the session. -/
def Step.events (s : Session) (step : Step) : List Event :=
  (final (step.traced s.natives) ⟨s.machine, []⟩).events

section Shows

variable {α β : Type} {x : Traced α} {y : Eval α}

def Traced.plain : EStateM.Result Stop Watched α → EStateM.Result Stop Machine α
  | .ok a w => .ok a w.machine
  | .error why w => .error why w.machine

def Shows (x : Traced α) (y : Eval α) : Prop := ∀ w, Traced.plain (x w) = y w.machine

theorem Tracks.shows {told : α → List Event → Prop} (tracks : Tracks told x y) : Shows x y := by
  intro w
  have ends := tracks w
  generalize x w = r at ends ⊢
  generalize y w.machine = r' at ends ⊢
  cases ends with
  | ok => rfl
  | error => rfl

theorem Shows.bind {f : α → Traced β} {g : α → Eval β} (first : Shows x y)
    (second : ∀ a, Shows (f a) (g a)) : Shows (x >>= f) (y >>= g) := by
  intro w
  have same := first w
  simp only [Bind.bind, EStateM.bind]
  rw [← same]
  cases x w with
  | ok a w' => exact second a w'
  | error why w' => rfl

theorem Shows.final (shows_ : Shows x y) (w : Watched) :
    (final x w).machine = Lox.final y w.machine := by
  unfold Lox.final
  rw [← shows_ w]
  cases x w with
  | ok a w' => rfl
  | error why w' => rfl

theorem interpret_shows (natives : List Native) (fuel : Nat) (ss : List Stmt) :
    Shows (Traced.interpret natives fuel ss) (interpret natives fuel ss) := by
  induction ss with
  | nil => exact fun _ => rfl
  | cons s ss ih =>
    rw [Traced.interpret, interpret]
    exact ((tracedRuns natives fuel).execute s).shows.bind fun how w => ih ⟨w.machine, _⟩

theorem Step.shows (natives : List Native) (step : Step) :
    Shows (step.traced natives) (step.action natives) := by
  cases step with
  | evaluate fuel e => exact ((tracedRuns natives fuel).evaluate e).shows.bind fun _ _ => rfl
  | execute fuel s => exact ((tracedRuns natives fuel).execute s).shows.bind fun _ _ => rfl
  | interpret fuel ss => exact interpret_shows natives fuel ss
  | run fuel source =>
    rw [Step.traced, Step.action]
    by_cases clean : (Program.ofText source).diagnostics.isEmpty
    · simp only [clean, if_true]
      exact interpret_shows natives fuel _
    · simp only [clean]
      exact fun _ => rfl
  | defineGlobal name value => exact fun _ => rfl

end Shows

theorem final_ignored {σ α : Type} (x : EStateM Stop σ α) (s : σ) :
    final (x >>= fun _ => pure ()) s = final x s := by
  unfold final
  simp only [Bind.bind, EStateM.bind]
  cases x s with
  | ok a t => rfl
  | error why t => rfl

theorem Step.perform_eq (s : Session) (step : Step) :
    (step.perform s).machine = final (step.action s.natives) s.machine ∧
      (step.perform s).natives = s.natives := by
  cases step with
  | evaluate fuel e =>
    obtain ⟨ends, keeps⟩ := s.perform_machine (Lox.evaluate s.natives fuel e)
    exact ⟨ends.trans (final_ignored _ _).symm, keeps⟩
  | execute fuel stmt =>
    obtain ⟨ends, keeps⟩ := s.perform_machine (Lox.execute s.natives fuel stmt)
    exact ⟨ends.trans (final_ignored _ _).symm, keeps⟩
  | interpret fuel ss => exact s.perform_machine (Lox.interpret s.natives fuel ss)
  | run fuel source =>
    rw [Step.perform, Session.run, Step.action]
    by_cases clean : (Program.ofText source).diagnostics.isEmpty
    · simp only [clean, if_true]
      exact s.perform_machine (Lox.interpret s.natives fuel (Program.ofText source).statements)
    · simp only [clean]
      exact ⟨rfl, rfl⟩
  | defineGlobal name value => exact ⟨rfl, rfl⟩

theorem Step.Stops.action {s : Session} {step : Step} {why : Stop} (stops : step.Stops s why) :
    ∃ m, step.action s.natives s.machine = .error why m := by
  have ignored {α : Type} {x : Eval α} (stopped : (s.perform x).1 = .error why) :
      ∃ m, (x >>= fun _ => pure ()) s.machine = .error why m := by
    obtain ⟨m, eq⟩ := Session.perform_eq_error stopped
    refine ⟨m, ?_⟩
    simp only [Bind.bind, EStateM.bind, eq]
  cases step with
  | evaluate fuel e => exact ignored stops
  | execute fuel stmt => exact ignored stops
  | interpret fuel ss => exact Session.perform_eq_error stops
  | run fuel source =>
    obtain ⟨accepted, stopped⟩ := Session.run_eq_stopped stops
    rw [Step.action]
    simp only [accepted, List.isEmpty_nil, if_true]
    exact Session.perform_eq_error stopped
  | defineGlobal name value => exact stops.elim

def Step.BuiltOf (p : Expr → Prop) : Step → Prop
  | .evaluate _ e => e.Every p
  | .execute _ s => s.Every p
  | .interpret _ ss => ∀ s ∈ ss, s.Every p
  | .run _ source => (Program.ofText source).diagnostics = [] →
      ∀ s ∈ (Program.ofText source).statements, s.Every p
  | .defineGlobal _ value => value.BuiltOf p

theorem Stmt.everyOf_of_mem {p : Expr → Prop} {ss : List Stmt} (every : ∀ s ∈ ss, s.Every p) :
    Stmt.EveryOf p ss := by
  induction ss with
  | nil => trivial
  | cons s ss ih =>
    obtain ⟨first, later⟩ := List.forall_mem_cons.mp every
    exact ⟨first, ih later⟩

theorem Caused.final_holds {α : Type} {p : Expr → Prop} {good : α → Prop} {x : Traced α}
    (caused : Caused p [] good x) (w : Watched) (holds : w.machine.store.Holds (Value.BuiltOf p)) :
    (final x w).machine.store.Holds (Value.BuiltOf p) := by
  have ends := caused w holds (List.forall_mem_nil _)
  unfold final
  generalize x w = r at ends ⊢
  cases ends with
  | ok _ holds' _ => exact holds'
  | error holds' _ => exact holds'

section Sessions

variable {p : Expr → Prop} {natives : List Native} (closed : ∀ e, p e → e.Closed)
  (faithful : ∀ f ∈ natives, f.Faithful natives)
include closed faithful

theorem Step.caused {step : Step} (built : step.BuiltOf p) :
    Caused p [] (fun _ => True) (step.traced natives) := by
  cases step with
  | evaluate fuel e =>
    exact ((causedRuns closed faithful fuel).evaluate e built).bind fun _ _ => .pure trivial
  | execute fuel s =>
    exact ((causedRuns closed faithful fuel).execute s built).bind fun _ _ => .pure trivial
  | interpret fuel ss => exact interpret_caused closed faithful fuel ss (Stmt.everyOf_of_mem built)
  | run fuel source =>
    rw [Step.traced]
    by_cases clean : (Program.ofText source).diagnostics.isEmpty
    · simp only [clean, if_true]
      exact interpret_caused closed faithful fuel _
        (Stmt.everyOf_of_mem (built (List.isEmpty_iff.mp clean)))
    · simp only [clean]
      exact .pure trivial
  | defineGlobal name value =>
    rw [Step.traced]
    refine .always fun m holds => ?_
    exact ⟨{ m with store := m.store.define Machine.globals name value },
      holds.define Machine.globals name built, rfl⟩

/-- Functions in the frames of a session are built of what its steps are built of. -/
theorem Session.after_holds {steps : List Step} (built : ∀ step ∈ steps, step.BuiltOf p) :
    (Session.after natives steps).machine.store.Holds (Value.BuiltOf p) ∧
      (Session.after natives steps).natives = natives := by
  have along : ∀ (steps : List Step) (s : Session), s.natives = natives →
      s.machine.store.Holds (Value.BuiltOf p) → (∀ step ∈ steps, step.BuiltOf p) →
      (steps.foldl Step.perform s).machine.store.Holds (Value.BuiltOf p) ∧
        (steps.foldl Step.perform s).natives = natives := by
    intro steps
    induction steps with
    | nil => exact fun s host holds _ => ⟨holds, host⟩
    | cons step steps ih =>
      intro s host holds built
      obtain ⟨first, later⟩ := List.forall_mem_cons.mp built
      obtain ⟨machine, keeps⟩ := step.perform_eq s
      refine ih _ (keeps.trans host) ?_ later
      rw [machine, host, ← (step.shows natives).final ⟨s.machine, []⟩]
      exact (step.caused closed faithful first).final_holds _ holds
  exact along steps _ rfl (Machine.start_holds natives) built

/-- A fault of a step comes from an expression that satisfies `p` and that the step has come to. -/
theorem Step.Stops.caused {steps : List Step} {step : Step} {f : Fault}
    (built : ∀ step ∈ steps, step.BuiltOf p) (builtNow : step.BuiltOf p)
    (stops : step.Stops (Session.after natives steps) (.fault f)) :
    ∃ e, .evaluates e ∈ step.events (Session.after natives steps) ∧ p e ∧ e.Raises f := by
  obtain ⟨holds, host⟩ := Session.after_holds closed faithful built
  obtain ⟨m, eq⟩ := stops.action
  let before : Watched := ⟨(Session.after natives steps).machine, []⟩
  have same := step.shows natives before
  have ends := step.caused closed faithful builtNow before holds (List.forall_mem_nil _)
  rw [host] at eq
  rw [eq] at same
  unfold Step.events final
  rw [host]
  generalize step.traced natives before = r at same ends ⊢
  cases ends with
  | ok => cases same
  | error _ caused =>
    cases same
    exact caused f rfl

end Sessions

theorem Program.readFrom {source : String} {s : Stmt}
    (member : s ∈ (Program.ofText source).statements) : s.ReadFrom source :=
  ⟨_, List.suffix_rfl, .inr (.inr member)⟩

/-- What holds of all expressions in trees that are read from the source holds of those that a step
executes. -/
theorem Step.Executes.of_read {p : Expr → Prop} {source : String} {step : Step} {e : Expr}
    (expressions : ∀ e : Expr, e.ReadFrom source → e.Every p)
    (statements : ∀ s : Stmt, s.ReadFrom source → s.Every p) (executes : step.Executes source e) :
    p e := by
  cases executes with
  | evaluate read inside => exact (Expr.every_iff _).mp (expressions _ read) e inside
  | execute read inside => exact (Stmt.every_iff _).mp (statements _ read) e inside
  | interpret _ read inside => exact (Stmt.every_iff _).mp (statements _ read) e inside
  | run _ member inside =>
    exact (Stmt.every_iff _).mp (statements _ (Program.readFrom member)) e inside

theorem Step.Sourced.builtOf {natives : List Native} {step : Step} (sourced : step.Sourced natives) :
    step.BuiltOf fun e => ∃ source, step.Executes source e := by
  cases step with
  | evaluate fuel e =>
    obtain ⟨source, read⟩ := sourced
    exact e.every_iff.mpr fun x inside => ⟨source, .evaluate read inside⟩
  | execute fuel s =>
    obtain ⟨source, read⟩ := sourced
    exact s.every_iff.mpr fun x inside => ⟨source, .execute read inside⟩
  | interpret fuel ss =>
    intro s member
    obtain ⟨source, read⟩ := sourced s member
    exact s.every_iff.mpr fun x inside => ⟨source, .interpret member read inside⟩
  | run fuel source =>
    intro clean s member
    exact s.every_iff.mpr fun x inside => ⟨source, .run clean member inside⟩
  | defineGlobal name value => exact Value.Sound.builtOf sourced

theorem Step.BuiltOf.mono {p q : Expr → Prop} {step : Step} (built : step.BuiltOf p)
    (imp : ∀ e, p e → q e) : step.BuiltOf q := by
  cases step with
  | evaluate fuel e => exact Expr.Every.mono built imp
  | execute fuel s => exact Stmt.Every.mono built imp
  | interpret fuel ss => exact fun s member => (built s member).mono imp
  | run fuel source => exact fun clean s member => (built clean s member).mono imp
  | defineGlobal name value =>
    cases value with
    | function c =>
      have every := (Stmt.everyOf_iff c.body).mp built
      exact (Stmt.everyOf_iff c.body).mpr fun x inside => imp x (every x inside)
    | _ => trivial

theorem Expr.Explains.token {e : Expr} {text : String} {line : Nat} (explains : e.Explains text line) :
    ∃ t ∈ e.token?, line = t.line := by
  cases explains <;> exact ⟨_, rfl, rfl⟩

theorem Step.Executes.onLines {source : String} {step : Step} {e : Expr} {f : Fault}
    (executes : step.Executes source e) (raises : e.Raises f) : OnLines source f.line := by
  obtain ⟨t, member, line⟩ := Expr.Explains.token raises
  rw [line]
  exact executes.of_read (fun _ read => read.onLines) (fun _ read => read.onLines) t member

/-- Faults have their cause in the program. In a session whose steps execute trees that were read from
sources, a fault comes from an expression that the failing step has begun to evaluate. The expression
is a node of a tree that this step or an earlier one executes; it explains the message and the line;
and the line is one of the source that the tree was read from. -/
theorem faults_have_origins (natives : List Native) (faithful : ∀ f ∈ natives, f.Faithful natives)
    (steps : List Step) (step : Step) (sourced : ∀ other ∈ steps ++ [step], other.Sourced natives)
    (f : Fault) (stops : step.Stops (Session.after natives steps) (.fault f)) :
    ∃ e, .evaluates e ∈ step.events (Session.after natives steps) ∧
      e.Explains f.cause.message f.line ∧
      ∃ other ∈ steps ++ [step], (∃ source, other.Executes source e) ∧
        ∀ source, other.Executes source e → 1 ≤ f.line ∧ f.line ≤ lineCount source.toList := by
  let executed (e : Expr) : Prop := ∃ other ∈ steps ++ [step], ∃ source, other.Executes source e
  have closed (e : Expr) (origin : executed e) : e.Closed := by
    obtain ⟨other, -, source, executes⟩ := origin
    exact executes.of_read (fun _ read => read.closed) fun _ read => read.closed
  have built (other : Step) (member : other ∈ steps ++ [step]) : other.BuiltOf executed :=
    (sourced other member).builtOf.mono fun e origin => ⟨other, member, origin⟩
  have earlier (other : Step) (member : other ∈ steps) : other.BuiltOf executed :=
    built other (List.mem_append_left _ member)
  have now : step.BuiltOf executed := built step (List.mem_append_right _ (List.mem_singleton_self _))
  obtain ⟨e, begun, ⟨other, member, origin⟩, raises⟩ := stops.caused closed faithful earlier now
  exact ⟨e, begun, raises, other, member, origin, fun source executes => executes.onLines raises⟩

/-- A call on the only line of its text fails on the second line of an earlier one, where the function
was declared. -/
theorem faults_have_origins_negation :
    let earlier : Step := .run 20 "fun f(n) \x7b\n  return -n;\n\x7d"
    let step : Step := .run 20 "f(true);"
    step.Stops (Session.after Native.standard [earlier]) (.fault ⟨.operandNotNumber, 2⟩) ∧
      ∃ e source, .evaluates e ∈ step.events (Session.after Native.standard [earlier]) ∧
        e.Explains "Operand must be a number." 2 ∧ earlier.Executes source e := by
  intro earlier step
  have stops : step.Stops (Session.after Native.standard [earlier])
      (.fault ⟨.operandNotNumber, 2⟩) := by decide +kernel
  have sourced : ∀ other ∈ [earlier] ++ [step], other.Sourced Native.standard := by
    simp [earlier, step, Step.Sourced]
  obtain ⟨e, begun, explains, other, member, ⟨source, executes⟩, lines⟩ :=
    faults_have_origins Native.standard (Native.builtins_faithful _) [earlier] step sourced _ stops
  refine ⟨stops, e, source, begun, explains, ?_⟩
  rcases List.mem_cons.mp member with rfl | member
  · exact executes
  · cases List.mem_singleton.mp member
    have short : lineCount "f(true);".toList = 1 := by decide
    have inside := (lines source executes).2
    have same : source = "f(true);" := by
      unfold step at executes
      cases executes
      rfl
    rw [same, short] at inside
    exact absurd inside (by decide)

end Lox
