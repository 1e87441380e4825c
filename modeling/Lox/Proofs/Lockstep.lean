import Lox.Proofs.Frames

/- Two runs in lockstep. The worlds of a simulation often speak of the two states alone; then running
   code one piece after the other is the same for all of them, and only actions and scopes are left
   to show. The first use is fuel: a run that ended ends the same with more of it. -/
namespace Lox

/-- What is known of the states of two runs. In a settled world names can be bound in the present
scope; where the worlds are lenient, nothing is claimed once the first run is out of fuel. -/
structure Worlds (σ τ : Type) where
  World : Type
  later : World → World → Prop
  settled : World → Prop
  rename : World → Nat → Nat
  good : World → Value → Prop
  state : World → σ → τ → Prop
  allowed : Stop → Prop
  lenient : Prop
  refl : ∀ w, later w w
  trans : ∀ {u v w : World}, later u v → later v w → later u w
  settle : ∀ {w w' : World}, later w w' → settled w → settled w'
  keep : ∀ {w w' : World} {v : Value}, later w w' → good w v →
    good w' v ∧ v.rename (rename w') = v.rename (rename w)
  literal : ∀ (w : World) (l : Literal), good w (.ofLiteral l)

namespace Worlds

variable {σ τ α β : Type} (W : Worlds σ τ)

inductive Ends (w : W.World) (s : Shape α) :
    EStateM.Result Stop σ α → EStateM.Result Stop τ α → Prop where
  | ok {w' : W.World} {a : α} {m : σ} {n : τ} (later : W.later w w') (state : W.state w' m n)
      (good : s.Good (W.good w') a) : Ends w s (.ok a m) (.ok (s.rename (W.rename w') a) n)
  | error {w' : W.World} {why : Stop} {m : σ} {n : τ} (later : W.later w w')
      (state : W.state w' m n) (allowed : W.allowed why) : Ends w s (.error why m) (.error why n)
  | spent {m : σ} {r : EStateM.Result Stop τ α} (lenient : W.lenient) :
      Ends w s (.error .outOfFuel m) r

def Runs (w : W.World) (mode : Mode) (s : Shape α) (x : EStateM Stop σ α) (y : EStateM Stop τ α) :
    Prop :=
  (mode = .statement → W.settled w) → ∀ m n, W.state w m n → W.Ends w s (x m) (y n)

variable {W} {w w' : W.World} {s : Shape α} {t : Shape β} {mode : Mode}

theorem Ends.of_later {r : EStateM.Result Stop σ α} {r' : EStateM.Result Stop τ α}
    (earlier : W.later w w') (ends : W.Ends w' s r r') : W.Ends w s r r' := by
  cases ends with
  | ok later state good => exact .ok (W.trans earlier later) state good
  | error later state allowed => exact .error (W.trans earlier later) state allowed
  | spent lenient => exact .spent lenient

namespace Runs

variable {x : EStateM Stop σ α} {y : EStateM Stop τ α}

theorem pure {a : α} (good : s.Good (W.good w) a) :
    W.Runs w mode s (pure a) (pure (s.rename (W.rename w) a)) :=
  fun _ _ _ state => .ok (W.refl w) state good

theorem bind {f : α → EStateM Stop σ β} {g : α → EStateM Stop τ β} (first : W.Runs w mode s x y)
    (second : ∀ w' a, W.later w w' → s.Good (W.good w') a →
      W.Runs w' mode t (f a) (g (s.rename (W.rename w') a))) :
    W.Runs w mode t (x >>= f) (y >>= g) := by
  intro settled m n state
  have ends := first settled m n state
  simp only [Bind.bind, EStateM.bind]
  generalize x m = r at ends ⊢
  generalize y n = r' at ends ⊢
  cases ends with
  | @ok w' a m' n' later state' good =>
    have next := second w' a later good (fun statement => W.settle later (settled statement))
    exact (next m' n' state').of_later later
  | error later state' allowed => exact .error later state' allowed
  | spent lenient => exact .spent lenient

theorem weaken (runs : W.Runs w .expression s x y) : W.Runs w .statement s x y :=
  fun _ => runs nofun

end Runs

end Worlds

namespace Runner

variable {σ τ : Type}

/-- Two runners that do the same in each action and scope, in all worlds. -/
structure Lockstep (W : Worlds σ τ) (A : Runner (EStateM Stop σ)) (B : Runner (EStateM Stop τ))
    (node : Expr → Prop) : Prop where
  throws : ∀ {α : Type} (why : Stop), (A.stop why : EStateM Stop σ α) = throw why
  throws' : ∀ {α : Type} (why : Stop), (B.stop why : EStateM Stop τ α) = throw why
  allows : ∀ {why : Stop}, why.From node → W.allowed why
  body : ∀ {w : W.World} {f : Closure}, W.good w (.function f) → Stmt.EveryOf node f.body
  act : ∀ {w : W.World} {α : Type} (x : Act α), x.Given (W.good w) → x.From node (W.good w) →
    W.Runs w x.mode x.shape (A.act x) (B.act (x.rename (W.rename w)))
  block : ∀ {w : W.World} {x : EStateM Stop σ Completion} {y : EStateM Stop τ Completion},
    (∀ w', W.Runs w' .statement .completion x y) →
    W.Runs w .expression .completion (A.block x) (B.block y)
  enter : ∀ {w : W.World} {f : Closure} {args : List Value} {x : EStateM Stop σ Completion}
    {y : EStateM Stop τ Completion}, W.good w (.function f) → (∀ v ∈ args, W.good w v) →
    (∀ w', W.Runs w' .statement .completion x y) →
    W.Runs w .expression .completion (A.enter f args x)
      (B.enter (f.rename (W.rename w)) (args.map (·.rename (W.rename w))) y)

namespace Lockstep

variable {W : Worlds σ τ} {A : Runner (EStateM Stop σ)} {B : Runner (EStateM Stop τ)}
  {node : Expr → Prop}

def simulation (steps : Lockstep W A B node) : Simulation A B where
  World := W.World
  later := W.later
  rename := W.rename
  good := W.good
  node := node
  rel w mode _ s x y := W.Runs w mode s x y
  keep := W.keep
  literal := W.literal
  body := steps.body
  pure := .pure
  bind := .bind
  weaken := .weaken
  stop fails := by
    rw [steps.throws, steps.throws']
    exact fun _ _ _ state => .error (W.refl _) state (steps.allows fails)
  act := steps.act
  block := steps.block
  enter := steps.enter

theorem runs_of_le (steps : Lockstep W A B node) (lenient : W.lenient) {fuel fuel' : Nat}
    (le : fuel ≤ fuel') : SimulatedRuns steps.simulation fuel fuel' := by
  refine steps.simulation.runs_of_le le fun y => ?_
  intro _ m n _
  rw [steps.throws]
  exact .spent lenient

end Lockstep

end Runner

/-- The run was cut off before its end. -/
def Spent {σ α : Type} : EStateM.Result Stop σ α → Prop
  | .error .outOfFuel _ => True
  | _ => False

instance {σ α : Type} (r : EStateM.Result Stop σ α) : Decidable (Spent r) :=
  match r with
  | .error .outOfFuel _ => .isTrue trivial
  | .error (.fault _) _ | .error (.stuck _) _ | .ok _ _ => .isFalse id

@[simp] theorem spent_error {σ α : Type} {why : Stop} {s : σ} :
    Spent (.error why s : EStateM.Result Stop σ α) ↔ why = .outOfFuel := by
  cases why <;> simp [Spent]

def Worlds.moreFuel : Worlds Machine Machine where
  World := Unit
  later _ _ := True
  settled _ := True
  rename _ k := k
  good _ _ := True
  state _ m n := n = m
  allowed _ := True
  lenient := True
  refl _ := trivial
  trans _ _ := trivial
  settle _ _ := trivial
  keep _ _ := ⟨trivial, rfl⟩
  literal _ _ := trivial

namespace Worlds.moreFuel

variable {α : Type} {s : Shape α} {r r' : EStateM.Result Stop Machine α}

theorem good_all (s : Shape α) (a : α) : s.Good (moreFuel.good ()) a := by
  cases s with
  | unit => trivial
  | value => trivial
  | values => exact fun _ _ => trivial
  | completion => cases a <;> trivial

theorem ends_self (r : EStateM.Result Stop Machine α) : moreFuel.Ends () s r r := by
  have same (m : Machine) : moreFuel.state () m m := rfl
  cases r with
  | ok a m =>
    have ends : moreFuel.Ends () s (.ok a m) (.ok (s.rename (fun k => k) a) m) :=
      .ok trivial (same m) (good_all s a)
    rwa [Shape.rename_self] at ends
  | error why m => exact .error trivial (same m) trivial

/-- Unless the first run was cut off, the two end the same. -/
theorem Ends.eq (ends : moreFuel.Ends () s r r') (ended : ¬ Spent r) : r' = r := by
  cases ends with
  | ok later state good =>
    cases state
    exact congrArg (EStateM.Result.ok · _) (s.rename_self _)
  | error later state allowed =>
    cases state
    rfl
  | spent lenient => exact absurd trivial ended

theorem runs_inFrame (frame : Machine → Frame) {x y : Eval Completion}
    (inner : moreFuel.Runs () .statement .completion x y) :
    moreFuel.Runs () .expression .completion (fun m => Machine.inFrame (frame m) x m)
      fun m => Machine.inFrame (frame m) y m := by
  rintro - m n rfl
  have ends := inner (fun _ => trivial) (n.inside (frame n)) (n.inside (frame n)) rfl
  simp only [Machine.inFrame_eq]
  generalize x (n.inside (frame n)) = r at ends ⊢
  generalize y (n.inside (frame n)) = r' at ends ⊢
  cases ends with
  | ok later state good =>
    cases state
    exact .ok later rfl good
  | error later state allowed =>
    cases state
    exact .error later rfl allowed
  | spent lenient => exact .spent lenient

theorem lockstep (natives : List Native) :
    Runner.Lockstep moreFuel (Runner.machine natives) (Runner.machine natives) fun _ => True where
  throws _ := rfl
  throws' _ := rfl
  allows _ := trivial
  body _ := Stmt.everyOf_of_forall (fun _ => trivial) _
  act := by
    rintro ⟨⟩ α x - - - m n rfl
    rw [show moreFuel.rename () = fun k => k from rfl, Act.rename_self]
    exact ends_self _
  block inner := runs_inFrame (fun m => ⟨[], some m.current⟩) (inner ())
  enter := by
    intro w f args x y _ _ inner
    simp only [moreFuel, Closure.rename_self, Value.rename_self, List.map_id']
    exact runs_inFrame (fun _ => f.callFrame args) (inner ())

end Worlds.moreFuel

section MoreFuel

variable {natives : List Native} {fuel fuel' : Nat} {m : Machine}

theorem evaluate_of_le (le : fuel ≤ fuel') {e : Expr}
    (ended : ¬ Spent (evaluate natives fuel e m)) :
    evaluate natives fuel' e m = evaluate natives fuel e m := by
  have runs := (Worlds.moreFuel.lockstep natives).runs_of_le trivial le
  have ends := runs.evaluate () e (Expr.every_of_forall (fun _ => trivial) e) nofun m m rfl
  rw [(Runner.isEvaluator natives fuel).evaluate, (Runner.isEvaluator natives fuel').evaluate]
    at ends
  exact Worlds.moreFuel.Ends.eq ends ended

theorem execute_of_le (le : fuel ≤ fuel') {s : Stmt}
    (ended : ¬ Spent (execute natives fuel s m)) :
    execute natives fuel' s m = execute natives fuel s m := by
  have runs := (Worlds.moreFuel.lockstep natives).runs_of_le trivial le
  have ends := runs.execute () s (Stmt.every_of_forall (fun _ => trivial) s) (fun _ => trivial)
    m m rfl
  rw [(Runner.isEvaluator natives fuel).execute, (Runner.isEvaluator natives fuel').execute]
    at ends
  exact Worlds.moreFuel.Ends.eq ends ended

theorem interpret_of_le (le : fuel ≤ fuel') {ss : List Stmt}
    (ended : ¬ Spent (interpret natives fuel ss m)) :
    interpret natives fuel' ss m = interpret natives fuel ss m := by
  induction ss generalizing m with
  | nil => rfl
  | cons s ss ih =>
    simp only [interpret, bind, EStateM.bind] at ended ⊢
    cases first : execute natives fuel s m with
    | error why n =>
      have alive : ¬ Spent (execute natives fuel s m) := by simpa [first] using ended
      rw [execute_of_le le alive, first]
    | ok completion n =>
      have alive : ¬ Spent (execute natives fuel s m) := by rw [first]; exact id
      rw [execute_of_le le alive, first]
      exact ih (by simpa [first] using ended)

end MoreFuel

end Lox
