import Lox.Proofs.Depth

/- The depth of scopes along a session. Each step keeps to the bound that its own trees and those
   before it set, and starts in the global frame, from where there is room for all of them. -/
namespace Lox

def Step.depth : Step → Nat
  | .execute _ s => s.depth
  | .interpret _ ss => Stmt.depthOf ss
  | .run _ source =>
    let program := Program.ofText source
    if program.diagnostics.isEmpty then Stmt.depthOf program.statements else 0
  | .evaluate _ _ | .defineGlobal _ _ => 0

def Step.deepest : List Step → Nat
  | [] => 0
  | step :: steps => max step.depth (Step.deepest steps)

def Step.upTo (count : Nat) : Step → Step
  | .interpret fuel ss => .interpret fuel (ss.take count)
  | .run fuel source =>
    let program := Program.ofText source
    if program.diagnostics.isEmpty then .interpret fuel (program.statements.take count)
    else .run fuel source
  | .evaluate fuel e => .evaluate fuel e
  | .execute fuel s => .execute fuel s
  | .defineGlobal name value => .defineGlobal name value

def Step.Gives (s : Session) : Step → Value → Prop
  | .evaluate fuel e, v => (s.evaluate fuel e).1 = .ok v
  | .execute fuel stmt, v => (s.execute fuel stmt).1 = .ok (.returned v)
  | .interpret _ _, _ | .run _ _, _ | .defineGlobal _ _, _ => False

/-- The values that the host can have after some steps: its own, which are no functions of a program,
those that a frame binds, and those that a step gave. -/
inductive Session.Holds (natives : List Native) : List Step → Value → Prop where
  | own {steps : List Step} {v : Value} (none : ¬ v.IsFunction) : Holds natives steps v
  | bound {steps : List Step} {k : Nat} {f : Frame} {binding : String × Value}
      (found : (Session.after natives steps).machine.store.frame? k = some f)
      (member : binding ∈ f.bindings) : Holds natives steps binding.2
  | given {steps : List Step} {step : Step} {v : Value}
      (gives : step.Gives (Session.after natives steps) v) : Holds natives (steps ++ [step]) v
  | later {steps : List Step} {v : Value} (step : Step) (earlier : Holds natives steps v) :
      Holds natives (steps ++ [step]) v

/-- The host defines only what it has. -/
def Session.Closed (natives : List Native) (steps : List Step) : Prop :=
  ∀ done name value rest, steps = done ++ .defineGlobal name value :: rest →
    Session.Holds natives done value

/-- The current frame and those that functions have captured exist, and from no frame is the way
outwards longer than `bound`. -/
structure Machine.Shallow (m : Machine) (bound : Nat) : Prop where
  current : m.current < m.store.size
  captured : ∀ i f, m.store.frame? i = some f → ∀ name c, (name, Value.function c) ∈ f.bindings →
    c.frame < m.store.size
  ways : ∀ i < m.store.size, ∃ path, m.store.Outwards i path ∧ path.length ≤ bound

theorem Machine.Fits.shallow {m : Machine} {bound : Nat} (fits : m.Fits bound) : m.Shallow bound where
  current := fits.current
  captured i f found name c bound :=
    Store.Room.there (fits.store.values i f found (name, .function c) bound)
  ways i there := by
    obtain ⟨f, found⟩ := Store.exists_frame there
    exact fits.store.ways i f found

theorem Store.Room.add {s : Store} {bound i depth : Nat} (room : s.Room bound i depth) (more : Nat) :
    s.Room (bound + more) i (depth + more) := by
  obtain ⟨path, way, le⟩ := room
  refine ⟨path, way, ?_⟩
  omega

section Moments

variable {natives : List Native} {α : Type}

theorem Log.moments_note (l : Log) (next : Moment) : (l.note next).moments = l.moments ++ [next] := by
  unfold moments note
  rw [List.reverse_cons]

def Log.Prolongs (x : Recorded α) : Prop := ∀ l, l.moments <+: (final x l).moments

theorem Log.prolongs_scope (frame : Machine → Frame) {body : Recorded α} (inner : Prolongs body) :
    Prolongs fun l => scope (frame l.now.machine) body l := by
  intro l
  have leaves : final (fun l => scope (frame l.now.machine) body l) l = _ :=
    final_scope (frame l.now.machine) body l
  have inside := inner (l.note { l.now with machine := l.now.machine.inside (frame l.now.machine) })
  rw [leaves, leave, moments_note]
  rw [moments_note] at inside
  exact ((List.prefix_append _ _).trans inside).trans (List.prefix_append _ _)

theorem Log.prolongs_kept (natives : List Native) :
    Runner.Kept (Runner.recording natives) fun _ _ x => Prolongs x where
  pure _ _ := List.prefix_refl _
  bind := by
    intro mode α β x f first second l
    rcases final_bind x f l with eq | ⟨a, ok, eq⟩
    · rw [eq]
      exact first l
    · rw [eq]
      exact (first l).trans (second ok _)
  weaken prolongs := prolongs
  throws _ := rfl
  stop _ _ := List.prefix_refl _
  act x l := by
    have performed : final ((Runner.recording natives).act x) l = _ :=
      final_perform (x.perform natives) l
    rw [performed, moments_note]
    exact List.prefix_append _ _
  block inner := prolongs_scope (fun m => ⟨[], some m.current⟩) inner
  enter f args := prolongs_scope fun _ => f.callFrame args

theorem Runner.interpret_append (natives : List Native) (fuel : Nat) (ss later : List Stmt) :
    (recording natives).interpret fuel (ss ++ later) =
      (recording natives).interpret fuel ss >>= fun _ => (recording natives).interpret fuel later := by
  induction ss with
  | nil => rfl
  | cons s ss ih => rw [List.cons_append, interpret, interpret, ih, bind_assoc]

theorem Log.interpret_prolongs (fuel : Nat) (ss : List Stmt) :
    Prolongs ((Runner.recording natives).interpret fuel ss) :=
  ((prolongs_kept natives).related.interpret fuel ss).1

theorem Step.record_prolongs (l : Log) (step : Step) :
    l.moments <+: (step.record natives l).moments := by
  have runs (fuel : Nat) := (Log.prolongs_kept natives).related.runs fuel
  cases step with
  | evaluate fuel e => exact ((runs fuel).evaluate e).1 l
  | execute fuel s => exact ((runs fuel).execute s).1 l
  | interpret fuel ss => exact Log.interpret_prolongs fuel ss l
  | run fuel source =>
    rw [record]
    split
    · exact Log.interpret_prolongs fuel _ l
    · exact List.prefix_refl _
  | defineGlobal name value =>
    rw [record, Log.moments_note]
    exact List.prefix_append _ _

theorem Step.upTo_prolongs (l : Log) (count : Nat) (step : Step) :
    ((step.upTo count).record natives l).moments <+: (step.record natives l).moments := by
  have cut (fuel : Nat) (ss : List Stmt) :
      (final ((Runner.recording natives).interpret fuel (ss.take count)) l).moments <+:
        (final ((Runner.recording natives).interpret fuel ss) l).moments := by
    have whole := Runner.interpret_append natives fuel (ss.take count) (ss.drop count)
    rw [List.take_append_drop] at whole
    rw [whole]
    rcases final_bind ((Runner.recording natives).interpret fuel (ss.take count))
      (fun _ => (Runner.recording natives).interpret fuel (ss.drop count)) l with eq | ⟨_, _, eq⟩
    · exact eq.symm ▸ List.prefix_refl _
    · rw [eq]
      exact Log.interpret_prolongs fuel _ _
  cases step with
  | interpret fuel ss => exact cut fuel ss
  | run fuel source =>
    rw [upTo, record]
    split
    · exact cut fuel _
    · rename_i unclean
      simp only [record, unclean]
      exact List.prefix_refl _
  | evaluate | execute | defineGlobal => exact List.prefix_refl _

theorem Log.of_prolongs (natives : List Native) (steps later : List Step) :
    (Log.of natives steps).moments <+: (Log.of natives (steps ++ later)).moments := by
  unfold Log.of
  rw [List.foldl_append]
  generalize steps.foldl (Step.record natives) _ = l
  induction later generalizing l with
  | nil => exact List.prefix_refl _
  | cons step later ih => exact (step.record_prolongs l).trans (ih _)

end Moments

section Steps

open Log

variable {natives : List Native} (harmless : ∀ f ∈ natives, f.Harmless) {bound : Nat} {l : Log}

theorem Log.Keeps.final {α : Type} {s : Shape α} {x : Recorded α} (keeps : l.Keeps bound s (x l)) :
    l.Onward bound (final x l) := by
  unfold Lox.final
  generalize x l = r at keeps ⊢
  cases keeps with
  | ok onward => exact onward
  | error onward => exact onward

theorem Log.Keeps.good {α : Type} {s : Shape α} {x : Recorded α} {y : Eval α}
    (keeps : l.Keeps bound s (x l)) (records : Records x y) {a : α} {m : Machine}
    (ok : y l.now.machine = .ok a m) :
    s.Good (Value.Fits (Lox.final x l).now.machine.store bound) a := by
  have same := (records l).trans ok
  unfold Lox.final
  generalize x l = r at keeps same ⊢
  cases keeps with
  | ok onward good =>
    cases same
    exact good
  | error => cases same

theorem Session.perform_eq_ok {α : Type} {x : Eval α} {s : Session} {a : α}
    (eq : (s.perform x).1 = .ok a) : ∃ m, x s.machine = .ok a m := by
  unfold perform at eq
  cases ended : x s.machine with
  | ok b m =>
    rw [ended] at eq
    cases eq
    exact ⟨m, rfl⟩
  | error why m =>
    rw [ended] at eq
    cases eq

include harmless

/-- A step that starts in the global frame keeps to a bound that leaves room for its depth. -/
theorem Step.record_onward (step : Step) (fits : l.Fits bound)
    (rest : l.now.machine.current = Machine.globals)
    (room : l.now.machine.store.Room bound Machine.globals step.depth)
    (own : ∀ name value, step = .defineGlobal name value → value.Fits l.now.machine.store bound) :
    l.Onward bound (step.record natives l) := by
  rw [← rest] at room
  cases step with
  | evaluate fuel e =>
    exact ((deepRuns harmless bound fuel).evaluate _ e l fits (.refl _ _) room).final
  | execute fuel s => exact ((deepRuns harmless bound fuel).execute _ s l fits (.refl _ _) room).final
  | interpret fuel ss => exact (interpret_deep harmless bound fuel _ ss l fits (.refl _ _) room).final
  | run fuel source =>
    rw [depth] at room
    rw [record]
    split
    · rename_i clean
      simp only [clean, if_true] at room
      exact (interpret_deep harmless bound fuel _ _ l fits (.refl _ _) room).final
    · exact .refl fits
  | defineGlobal name value =>
    have good := own name value rfl
    refine ⟨fits.note ⟨fits.now.store.define _ _ good, ?_⟩, rfl, Store.later_define _ _ _ _⟩
    rw [Store.size_define]
    exact fits.now.current

theorem Step.Gives.fits {step : Step} {s : Session} {v : Value} (gives : step.Gives s v)
    (same : l.now.machine = s.machine) (host : s.natives = natives) (fits : l.Fits bound)
    (rest : l.now.machine.current = Machine.globals)
    (room : l.now.machine.store.Room bound Machine.globals step.depth) :
    v.Fits (step.record natives l).now.machine.store bound := by
  subst host
  rw [← rest] at room
  have evaluator (fuel : Nat) := Runner.isEvaluator s.natives fuel
  have records (fuel : Nat) := (Runner.records_related s.natives).runs fuel
  cases step with
  | evaluate fuel e =>
    obtain ⟨m, ok⟩ := Session.perform_eq_ok gives
    rw [← (evaluator fuel).evaluate, ← same] at ok
    exact ((deepRuns harmless bound fuel).evaluate _ e l fits (.refl _ _) room).good
      ((records fuel).evaluate e).1 ok
  | execute fuel stmt =>
    obtain ⟨m, ok⟩ := Session.perform_eq_ok gives
    rw [← (evaluator fuel).execute, ← same] at ok
    exact ((deepRuns harmless bound fuel).execute _ stmt l fits (.refl _ _) room).good
      ((records fuel).execute stmt).1 ok
  | interpret | run | defineGlobal => exact gives.elim

end Steps

section Sessions

variable {natives : List Native} {steps : List Step}

theorem Step.deepest_append (steps later : List Step) :
    deepest (steps ++ later) = max (deepest steps) (deepest later) := by
  induction steps with
  | nil => simp [deepest]
  | cons step steps ih => rw [List.cons_append, deepest, deepest, ih, Nat.max_assoc]

/-- After some steps: all moments and all values of the host keep to the bound that the trees so far
set, and the global frame is the outermost. -/
structure Session.Bounded (natives : List Native) (steps : List Step) : Prop where
  fits : (Log.of natives steps).Fits (1 + Step.deepest steps)
  outermost : (Log.of natives steps).now.machine.store.Room 1 Machine.globals 0
  holds : ∀ v, Session.Holds natives steps v →
    v.Fits (Log.of natives steps).now.machine.store (1 + Step.deepest steps)

/-- What the host holds after one more step is its own, or bound by a frame, or the step gave it, or
it was held before. -/
theorem Session.Holds.cases_append {step : Step} {v : Value}
    (holds : Session.Holds natives (steps ++ [step]) v) :
    ¬ v.IsFunction ∨
      (∃ k f name, (Session.after natives (steps ++ [step])).machine.store.frame? k = some f ∧
        (name, v) ∈ f.bindings) ∨
      step.Gives (Session.after natives steps) v ∨ Session.Holds natives steps v := by
  generalize whole : steps ++ [step] = all at holds
  cases holds with
  | own none => exact .inl none
  | @bound _ k f binding found member => exact .inr (.inl ⟨k, f, binding.1, found, member⟩)
  | given gives =>
    obtain ⟨rfl, last⟩ := List.append_inj' whole rfl
    cases last
    exact .inr (.inr (.inl gives))
  | later _ earlier =>
    obtain ⟨rfl, -⟩ := List.append_inj' whole rfl
    exact .inr (.inr (.inr earlier))

theorem Session.bounded_start (natives : List Native) : Session.Bounded natives [] := by
  have fits := Machine.start_fits natives
  have start : (Log.of natives []).Fits 1 := by
    intro a member
    cases List.mem_singleton.mp member
    exact fits
  have global : Machine.globals < (Machine.start natives).store.size := fits.current
  obtain ⟨f, found⟩ := Store.exists_frame global
  refine ⟨start, fits.store.ways _ f found, ?_⟩
  intro v holds
  generalize none : ([] : List Step) = steps at holds
  cases holds with
  | own none => exact Value.fits_of_not_function none _ _
  | bound found member =>
    subst none
    exact fits.store.values _ _ found _ member
  | given => simp at none
  | later => simp at none

theorem Session.Bounded.append (harmless : ∀ f ∈ natives, f.Harmless)
    (bounded : Session.Bounded natives steps) (step : Step)
    (own : ∀ name value, step = .defineGlobal name value → Session.Holds natives steps value) :
    Session.Bounded natives (steps ++ [step]) := by
  have recorded : Log.of natives (steps ++ [step]) = step.record natives (Log.of natives steps) := by
    rw [Log.of, List.foldl_append]
    rfl
  have deepest : Step.deepest (steps ++ [step]) = max (Step.deepest steps) step.depth := by
    rw [Step.deepest_append, Step.deepest, Step.deepest, Nat.max_zero]
  have wider : 1 + Step.deepest steps ≤ 1 + Step.deepest (steps ++ [step]) := by omega
  have fits := bounded.fits.wider wider
  have rest := (Log.atRest_of natives steps).global
  -- The way outwards from the global frame is that frame alone, so all the rest is room.
  have room : (Log.of natives steps).now.machine.store.Room (1 + Step.deepest (steps ++ [step]))
      Machine.globals step.depth :=
    (bounded.outermost.add (Step.deepest (steps ++ [step]))).less (by omega)
  have onward := step.record_onward harmless fits rest room
    fun name value eq => (bounded.holds value (own name value eq)).wider wider
  obtain ⟨same, host⟩ := Log.of_session natives steps
  have same' := Log.of_machine natives (steps ++ [step])
  rw [recorded] at same'
  constructor
  · rw [recorded]
    exact onward.fits
  · rw [recorded]
    exact bounded.outermost.later onward.later
  · intro v holds
    rw [recorded]
    rcases holds.cases_append with none | ⟨k, f, name, found, member⟩ | gives | earlier
    · exact Value.fits_of_not_function none _ _
    · rw [← same'] at found
      exact onward.fits.now.store.values k f found (name, v) member
    · exact gives.fits harmless same host fits rest room
    · exact ((bounded.holds v earlier).wider wider).later onward.later

theorem Session.bounded (harmless : ∀ f ∈ natives, f.Harmless)
    (closed : Session.Closed natives steps) : Session.Bounded natives steps := by
  have along : ∀ (later done : List Step), done ++ later = steps → Session.Bounded natives done →
      Session.Bounded natives steps := by
    intro later
    induction later with
    | nil =>
      intro done eq bounded
      rw [List.append_nil] at eq
      exact eq ▸ bounded
    | cons step later ih =>
      intro done eq bounded
      refine ih (done ++ [step]) (by rw [List.append_assoc]; exact eq) ?_
      refine bounded.append harmless step fun name value same => ?_
      exact closed done name value later (by rw [← eq, same])
  exact along steps [] rfl (Session.bounded_start natives)

theorem Step.eq_of_upTo {step : Step} {count : Nat} {name : String} {value : Value}
    (eq : step.upTo count = .defineGlobal name value) : step = .defineGlobal name value := by
  cases step with
  | run fuel source =>
    rw [upTo] at eq
    split at eq <;> cases eq
  | _ => cases eq <;> rfl

theorem Session.Closed.upTo {done rest : List Step} {step : Step}
    (closed : Session.Closed natives (done ++ step :: rest)) (count : Nat) :
    Session.Closed natives (done ++ [step.upTo count]) := by
  intro before name value after eq
  rcases List.eq_nil_or_concat after with rfl | ⟨after, last, rfl⟩
  · obtain ⟨rfl, same⟩ := List.append_inj' eq rfl
    obtain ⟨same, -⟩ := List.cons.inj same
    exact closed done name value rest (by rw [Step.eq_of_upTo same])
  · rw [List.concat_eq_append, ← List.cons_append, ← List.append_assoc] at eq
    obtain ⟨rfl, -⟩ := List.append_inj' eq rfl
    exact closed before name value (after ++ step :: rest) (by simp)

end Sessions

/-- Scope depth is static. At every moment of a session, and with only those trees counted that were
executed by then, the way outwards from each frame is at most one longer than blocks and function
bodies are nested in a tree. -/
theorem scope_depth_static {natives : List Native} (harmless : ∀ f ∈ natives, f.Harmless)
    {steps : List Step} (closed : Session.Closed natives steps) :
    (Log.of natives steps).now.machine = (Session.after natives steps).machine ∧
    (∀ a ∈ (Log.of natives steps).moments, a.machine.Shallow (1 + Step.deepest steps)) ∧
    ∀ done step rest, steps = done ++ step :: rest → ∀ count,
      (Log.of natives (done ++ [step.upTo count])).moments <+: (Log.of natives steps).moments ∧
      ∀ a ∈ (Log.of natives (done ++ [step.upTo count])).moments,
        a.machine.Shallow (1 + Step.deepest (done ++ [step.upTo count])) := by
  have shallow {steps : List Step} (closed : Session.Closed natives steps) (a : Moment)
      (member : a ∈ (Log.of natives steps).moments) :
      a.machine.Shallow (1 + Step.deepest steps) := by
    rw [Log.moments, List.mem_reverse] at member
    exact ((Session.bounded harmless closed).fits a member).shallow
  refine ⟨Log.of_machine natives steps, shallow closed, ?_⟩
  rintro done step rest rfl count
  refine ⟨?_, shallow (closed.upTo count)⟩
  have whole := Log.of_prolongs natives (done ++ [step]) rest
  rw [List.append_assoc] at whole
  refine List.IsPrefix.trans ?_ whole
  simp only [Log.of, List.foldl_append]
  exact step.upTo_prolongs _ count

/-- A function that calls itself leaves three frames after two calls, none farther than one from the
outermost. -/
theorem scope_depth_static_recursion :
    let name (text : String) : Token := ⟨.identifier, text, 1⟩
    let call (e : Expr) : Expr := .call (.reference (name "f")) ⟨.symbol .rightParen, ")", 1⟩ [e]
    let steps : List Step :=
      [.execute 9 (.function (name "f") [name "again"]
        [.ifThen (.reference (name "again")) (.expression (call (.literal (.bool false))))]),
        .defineGlobal "go" (.bool true), .evaluate 9 (call (.reference (name "go")))]
    let store := (Session.after Native.standard steps).machine.store
    Session.Closed Native.standard steps ∧ store.size = 3 ∧
      ∀ i < 3, ∃ path, store.Outwards i path ∧ path.length ≤ 2 := by
  intro name call steps store
  have closed : Session.Closed Native.standard steps := by
    intro done key value rest eq
    have member : Step.defineGlobal key value ∈ steps := by simp [eq]
    simp only [steps, List.mem_cons, List.not_mem_nil, or_false, reduceCtorEq, false_or,
      Step.defineGlobal.injEq] at member
    rw [member.2]
    exact .own id
  have size : store.size = 3 := by decide +kernel
  have harmless : ∀ f ∈ Native.standard, f.Harmless := Native.builtins_harmless _
  obtain ⟨same, shallow, -⟩ := scope_depth_static harmless closed
  have last := shallow (Log.of Native.standard steps).now (by simp [Log.moments])
  rw [same] at last
  exact ⟨closed, size, size ▸ last.ways⟩

end Lox
