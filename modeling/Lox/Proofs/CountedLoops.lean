import Lox.Proofs.Padding
import Lox.Proofs.Safety

/- Counted loops. They are read as plain loops in blocks; here they have a meaning of their own, with
   one scope for the initializer and none for the rounds, and both do the same. The rounds of the
   plain loop run in empty frames, of which nothing else can tell; how much fuel each way of running
   needs is settled apart. -/
namespace Lox

variable {α β : Type}

def andThen (x y : Eval Completion) : Eval Completion := do
  match ← x with
  | .normal => y
  | .returned v => pure (.returned v)

def inScope (x : Eval Completion) : Eval Completion := fun m =>
  Machine.inFrame ⟨[], some m.current⟩ x m

/-- Tests and rounds in turn, until a test fails or a round returns. -/
def repeatWhile (test : Nat → Eval Value) (round : Nat → Eval Completion) : Nat → Eval Completion
  | 0 => throw .outOfFuel
  | fuel + 1 => do
    let v ← test fuel
    if v.isTruthy then andThen (round fuel) (repeatWhile test round fuel) else pure .normal

namespace Parse.ForClauses

variable (clauses : ForClauses) (natives : List Native) (body : Stmt) (fuel : Nat)

def test : Eval Value :=
  match clauses.condition with
  | some condition => evaluate natives fuel condition
  | none => pure (.bool true)

def advance : Eval Completion :=
  match clauses.increment with
  | some increment => do
    let _ ← evaluate natives fuel increment
    pure .normal
  | none => pure .normal

def round : Eval Completion := andThen (execute natives fuel body) (clauses.advance natives fuel)

/-- The meaning of a counted loop. The initializer has a scope, which all rounds share; a round is
the body, in that same scope, and then the increment. -/
def run : Eval Completion :=
  let rounds := repeatWhile (clauses.test natives) (clauses.round natives body) fuel
  match clauses.initializer with
  | some first => inScope (andThen (execute natives fuel first) rounds)
  | none => rounds

def paddedRound : Eval Completion :=
  match clauses.increment with
  | some _ => inScope (clauses.round natives body fuel)
  | none => clauses.round natives body fuel

def paddedRun : Eval Completion :=
  let rounds := repeatWhile (clauses.test natives) (clauses.paddedRound natives body) fuel
  match clauses.initializer with
  | some first => inScope (andThen (execute natives fuel first) rounds)
  | none => rounds

end Parse.ForClauses

def Completes (x y : Eval α) : Prop := ∀ m, ¬ Spent (x m) → y m = x m

namespace Completes

theorem refl (x : Eval α) : Completes x x := fun _ _ => rfl

theorem trans {x y z : Eval α} (first : Completes x y) (second : Completes y z) :
    Completes x z := by
  intro m ended
  have same := first m ended
  rw [second m (same ▸ ended), same]

theorem bind {x y : Eval α} {f g : α → Eval β} (first : Completes x y)
    (second : ∀ a, Completes (f a) (g a)) : Completes (x >>= f) (y >>= g) := by
  intro m ended
  simp only [Bind.bind, EStateM.bind] at ended ⊢
  cases result : x m with
  | ok a n =>
    rw [first m (by rw [result]; exact id), result]
    rw [result] at ended
    exact second a n ended
  | error why n =>
    have ended' : ¬ Spent (x m) := by
      simpa only [result, spent_error] using ended
    rw [first m ended', result]

theorem andThen {x x' y y' : Eval Completion} (first : Completes x x') (second : Completes y y') :
    Completes (andThen x y) (andThen x' y') := by
  refine first.bind fun completion => ?_
  cases completion with
  | normal => exact second
  | returned v => exact .refl _

theorem inScope {x y : Eval Completion} (inner : Completes x y) :
    Completes (inScope x) (inScope y) := by
  intro m ended
  simp only [Lox.inScope, Machine.inFrame_eq] at ended ⊢
  cases result : x (m.inside ⟨[], some m.current⟩) with
  | ok a n => rw [inner _ (by rw [result]; exact id), result]
  | error why n =>
    have ended' : ¬ Spent (x (m.inside ⟨[], some m.current⟩)) := by
      simpa only [result, spent_error] using ended
    rw [inner _ ended', result]

theorem spent {y : Eval α} : Completes (throw .outOfFuel) y := fun _ ended => absurd trivial ended

theorem repeatWhile {test test' : Nat → Eval Value} {round round' : Nat → Eval Completion}
    (more : Nat) (tests : ∀ fuel, Completes (test fuel) (test' (fuel + more)))
    (rounds : ∀ fuel, Completes (round fuel) (round' (fuel + more))) (fuel : Nat) :
    Completes (repeatWhile test round fuel) (repeatWhile test' round' (fuel + more)) := by
  induction fuel with
  | zero => exact spent
  | succ fuel ih =>
    rw [Nat.succ_add, Lox.repeatWhile, Lox.repeatWhile]
    refine (tests fuel).bind fun v => ?_
    split
    · exact (rounds fuel).andThen ih
    · exact .refl _

end Completes

section Plain

variable {natives : List Native}

theorem evaluate_completes {fuel fuel' : Nat} (le : fuel ≤ fuel') (e : Expr) :
    Completes (evaluate natives fuel e) (evaluate natives fuel' e) :=
  fun _ ended => evaluate_of_le le ended

theorem execute_completes {fuel fuel' : Nat} (le : fuel ≤ fuel') (s : Stmt) :
    Completes (execute natives fuel s) (execute natives fuel' s) :=
  fun _ ended => execute_of_le le ended

theorem andThen_normal (x : Eval Completion) : andThen x (pure .normal) = x := by
  funext m
  simp only [andThen, bind, EStateM.bind]
  cases x m with
  | ok completion n => cases completion <;> rfl
  | error why n => rfl

theorem execute_block (fuel : Nat) (body : List Stmt) :
    execute natives (fuel + 1) (.block body) = inScope (executeAll natives fuel body) := by
  rw [execute]
  rfl

theorem executeAll_cons (fuel : Nat) (s : Stmt) (ss : List Stmt) :
    executeAll natives (fuel + 1) (s :: ss) =
      andThen (execute natives fuel s) (executeAll natives fuel ss) := by
  rw [executeAll]
  rfl

theorem execute_loop (c : Expr) (s : Stmt) (fuel : Nat) :
    execute natives fuel (.loop c s) =
      repeatWhile (fun fuel => evaluate natives fuel c) (fun fuel => execute natives fuel s) fuel := by
  induction fuel with
  | zero =>
    rw [execute]
    rfl
  | succ fuel ih =>
    rw [execute, repeatWhile, ih]
    rfl

theorem executeAll_single (fuel : Nat) (s : Stmt) :
    Completes (executeAll natives fuel [s]) (execute natives fuel s) ∧
      Completes (execute natives fuel s) (executeAll natives (fuel + 1) [s]) := by
  have alone (fuel : Nat) : Completes (executeAll natives (fuel + 1) [s]) (execute natives fuel s) ∧
      Completes (execute natives fuel s) (executeAll natives (fuel + 1) [s]) := by
    rw [executeAll_cons]
    cases fuel with
    | zero =>
      rw [execute]
      exact ⟨.spent, .spent⟩
    | succ fuel =>
      rw [executeAll, andThen_normal]
      exact ⟨.refl _, .refl _⟩
  refine ⟨?_, (alone fuel).2⟩
  cases fuel with
  | zero =>
    rw [executeAll]
    exact .spent
  | succ fuel => exact (alone fuel).1.trans (execute_completes (Nat.le_succ fuel) s)

theorem block_completes (fuel : Nat) (s t : Stmt) :
    Completes (execute natives fuel (.block [s, t]))
      (inScope (andThen (execute natives fuel s) (execute natives fuel t))) := by
  match fuel with
  | 0 =>
    rw [execute]
    exact .spent
  | 1 =>
    rw [execute_block, executeAll]
    exact Completes.spent.inScope
  | fuel + 2 =>
    rw [execute_block, executeAll_cons]
    have first : Completes (execute natives fuel s) (execute natives (fuel + 2) s) :=
      execute_completes (Nat.le_add_right fuel 2) s
    have second : Completes (executeAll natives fuel [t]) (execute natives (fuel + 2) t) :=
      (executeAll_single fuel t).1.trans (execute_completes (Nat.le_add_right fuel 2) t)
    exact (first.andThen second).inScope

theorem completes_block (fuel : Nat) (s t : Stmt) :
    Completes (inScope (andThen (execute natives fuel s) (execute natives fuel t)))
      (execute natives (fuel + 3) (.block [s, t])) := by
  rw [execute_block, executeAll_cons]
  have first : Completes (execute natives fuel s) (execute natives (fuel + 1) s) :=
    execute_completes (Nat.le_succ fuel) s
  exact (first.andThen (executeAll_single fuel t).2).inScope

end Plain

namespace Parse.ForClauses

variable (clauses : ForClauses) (natives : List Native) (body : Stmt)

theorem test_completes (fuel : Nat) :
    Completes (evaluate natives fuel (clauses.condition.getD (.literal (.bool true))))
      (clauses.test natives fuel) ∧
    Completes (clauses.test natives fuel)
      (evaluate natives (fuel + 4) (clauses.condition.getD (.literal (.bool true)))) := by
  unfold test
  cases clauses.condition with
  | some c => exact ⟨.refl _, evaluate_completes (Nat.le_add_right fuel 4) c⟩
  | none =>
    have always : evaluate natives (fuel + 4) (.literal (.bool true)) = pure (.bool true) := by
      rw [evaluate]
      rfl
    have sometimes : Completes (evaluate natives fuel (.literal (.bool true))) _ :=
      evaluate_completes (Nat.le_add_right fuel 4) (.literal (.bool true))
    rw [Option.getD_none, always] at *
    exact ⟨sometimes, .refl _⟩

def plainRound : Stmt :=
  match clauses.increment with
  | some increment => .block [body, .expression increment]
  | none => body

theorem loop_eq :
    clauses.loop body =
      let loop := .loop (clauses.condition.getD (.literal (.bool true))) (clauses.plainRound body)
      match clauses.initializer with
      | some first => .block [first, loop]
      | none => loop := by
  obtain ⟨initializer, condition, increment⟩ := clauses
  cases initializer <;> cases increment <;> rfl

theorem round_completes (fuel : Nat) :
    Completes (execute natives fuel (clauses.plainRound body))
      (clauses.paddedRound natives body fuel) ∧
    Completes (clauses.paddedRound natives body fuel)
      (execute natives (fuel + 4) (clauses.plainRound body)) := by
  unfold plainRound paddedRound round advance
  cases clauses.increment with
  | none =>
    simp only [andThen_normal]
    exact ⟨.refl _, execute_completes (Nat.le_add_right fuel 4) body⟩
  | some increment =>
    simp only
    constructor
    · refine (block_completes fuel body (.expression increment)).trans ?_
      refine ((Completes.refl _).andThen ?_).inScope
      cases fuel with
      | zero =>
        rw [execute]
        exact .spent
      | succ fuel =>
        rw [execute]
        exact (evaluate_completes (Nat.le_succ fuel) increment).bind fun _ => .refl _
    · refine .trans ?_ (completes_block (fuel + 1) body (.expression increment))
      refine ((execute_completes (Nat.le_succ fuel) body).andThen ?_).inScope
      rw [execute]
      exact .refl _

/-- The plain loop and the one with padded rounds differ in fuel only. -/
theorem rounds_complete (fuel : Nat) :
    Completes
      (execute natives fuel
        (.loop (clauses.condition.getD (.literal (.bool true))) (clauses.plainRound body)))
      (repeatWhile (clauses.test natives) (clauses.paddedRound natives body) fuel) ∧
    Completes (repeatWhile (clauses.test natives) (clauses.paddedRound natives body) fuel)
      (execute natives (fuel + 4)
        (.loop (clauses.condition.getD (.literal (.bool true))) (clauses.plainRound body))) := by
  rw [execute_loop, execute_loop]
  constructor
  · exact .repeatWhile 0 (fun fuel => (clauses.test_completes natives fuel).1)
      (fun fuel => (clauses.round_completes natives body fuel).1) fuel
  · exact .repeatWhile 4 (fun fuel => (clauses.test_completes natives fuel).2)
      (fun fuel => (clauses.round_completes natives body fuel).2) fuel

theorem run_completes (fuel : Nat) :
    Completes (execute natives fuel (clauses.loop body)) (clauses.paddedRun natives body fuel) ∧
    Completes (clauses.paddedRun natives body fuel)
      (execute natives (fuel + 7) (clauses.loop body)) := by
  obtain ⟨plain, padded⟩ := clauses.rounds_complete natives body fuel
  rw [loop_eq]
  unfold paddedRun
  cases clauses.initializer with
  | none => exact ⟨plain, padded.trans (execute_completes (by omega) _)⟩
  | some first =>
    constructor
    · exact (block_completes fuel first _).trans ((Completes.refl _).andThen plain).inScope
    · refine .trans ?_ (completes_block (fuel + 4) first _)
      exact ((execute_completes (Nat.le_add_right fuel 4) first).andThen padded).inScope

end Parse.ForClauses

section Sides

variable {natives : List Native} (uniform : ∀ f ∈ natives, f.Uniform)
include uniform

theorem runs_repeatWhile {test test' : Nat → Eval Value} {round round' : Nat → Eval Completion}
    (tests : ∀ fuel w, Worlds.padding.Runs w .expression .value (test fuel) (test' fuel))
    (rounds : ∀ fuel w, Worlds.padding.Runs w .statement .completion (round fuel) (round' fuel))
    (fuel : Nat) (w : Padding) :
    Worlds.padding.Runs w .statement .completion (repeatWhile test round fuel)
      (repeatWhile test' round' fuel) := by
  induction fuel generalizing w with
  | zero => exact fun _ m n state => .error (Worlds.padding.refl w) state trivial
  | succ fuel ih =>
    rw [repeatWhile, repeatWhile]
    refine .bind (tests fuel w).weaken fun w' v _ _ => ?_
    simp only [Shape.rename, Value.isTruthy_rename]
    split
    · exact (Worlds.padding.lockstep uniform).simulation.andThen (rounds fuel w') ih
    · exact .pure (s := .completion) trivial

theorem runs_evaluate (fuel : Nat) (e : Expr) (w : Padding) :
    Worlds.padding.Runs w .expression .value (evaluate natives fuel e) (evaluate natives fuel e) := by
  rw [← (Runner.isEvaluator natives fuel).evaluate]
  exact ((Worlds.padding.lockstep uniform).simulation.runs fuel).evaluate w e
    (Expr.every_of_forall (fun _ => trivial) e)

theorem runs_execute (fuel : Nat) (s : Stmt) (w : Padding) :
    Worlds.padding.Runs w s.mode .completion (execute natives fuel s) (execute natives fuel s) := by
  rw [← (Runner.isEvaluator natives fuel).execute]
  exact ((Worlds.padding.lockstep uniform).simulation.runs fuel).execute w s
    (Stmt.every_of_forall (fun _ => trivial) s)

namespace Parse.ForClauses

variable (clauses : ForClauses) {body : Stmt}

theorem runs_test (fuel : Nat) (w : Padding) :
    Worlds.padding.Runs w .expression .value (clauses.test natives fuel)
      (clauses.test natives fuel) := by
  unfold test
  cases clauses.condition with
  | some c => exact runs_evaluate uniform fuel c w
  | none => exact .pure (s := .value) (a := .bool true) trivial

theorem runs_round (quiet : body.mode = .expression) (fuel : Nat) (w : Padding) :
    Worlds.padding.Runs w .expression .completion (clauses.round natives body fuel)
      (clauses.round natives body fuel) := by
  have first := runs_execute uniform fuel body w
  rw [quiet] at first
  refine (Worlds.padding.lockstep uniform).simulation.andThen first fun w' => ?_
  unfold advance
  cases clauses.increment with
  | some e =>
    exact .bind (runs_evaluate uniform fuel e w') fun _ _ _ _ => .pure (s := .completion) trivial
  | none => exact .pure (s := .completion) trivial

theorem runs_paddedRound (quiet : body.mode = .expression) (fuel : Nat) (w : Padding) :
    Worlds.padding.Runs w .statement .completion (clauses.round natives body fuel)
      (clauses.paddedRound natives body fuel) := by
  have inner := clauses.runs_round uniform quiet fuel
  unfold paddedRound
  cases clauses.increment with
  | some e => exact Worlds.padding.runs_pad inner
  | none => exact (inner w).weaken

theorem runs_run (quiet : body.mode = .expression) (fuel : Nat) (w : Padding) :
    Worlds.padding.Runs w .statement .completion (clauses.run natives body fuel)
      (clauses.paddedRun natives body fuel) := by
  have rounds := runs_repeatWhile uniform (clauses.runs_test uniform)
    (clauses.runs_paddedRound uniform quiet) fuel
  unfold run paddedRun
  cases clauses.initializer with
  | none => exact rounds w
  | some first =>
    have starts (w' : Padding) : Worlds.padding.Runs w' .statement .completion
        (execute natives fuel first) (execute natives fuel first) :=
      (Worlds.padding.lockstep uniform).simulation.inJoin_right .statement
        (runs_execute uniform fuel first w')
    have inner (w' : Padding) :=
      (Worlds.padding.lockstep uniform).simulation.andThen (starts w') rounds
    exact ((Worlds.padding.lockstep uniform).block inner).weaken

end Parse.ForClauses

end Sides

/-- The machine `n` is like `m`: it has printed the same, and has all frames of `m`, with their
bindings, in places of its own. Its other frames bind nothing. -/
structure Machine.Matches (place : Nat → Nat) (m n : Machine) : Prop where
  output : n.output = m.output
  current : n.current = place m.current
  increasing : ∀ i k, i < k → k < m.store.size → place i < place k
  frames : ∀ k f, m.store.frame? k = some f →
    ∃ g, n.store.frame? (place k) = some g ∧ g.bindings = renameAll place f.bindings
  others : ∀ j g, n.store.frame? j = some g → (∀ k < m.store.size, place k ≠ j) → g.bindings = []

/-- The same completion or failure, on machines that match. The first `size` frames are in their
old places. -/
inductive SameEnd (size : Nat) : EStateM.Result Stop Machine Completion →
    EStateM.Result Stop Machine Completion → Prop where
  | ok {place : Nat → Nat} {completion : Completion} {m n : Machine}
      (fixed : ∀ k < size, place k = k) (like : m.Matches place n) :
      SameEnd size (.ok completion m) (.ok (completion.rename place) n)
  | error {place : Nat → Nat} {why : Stop} {m n : Machine} (fixed : ∀ k < size, place k = k)
      (like : m.Matches place n) : SameEnd size (.error why m) (.error why n)

theorem SameEnd.spent_iff {size : Nat} {r r' : EStateM.Result Stop Machine Completion}
    (same : SameEnd size r r') : Spent r ↔ Spent r' := by
  cases same with
  | ok fixed like => exact Iff.rfl
  | error fixed like => rw [spent_error, spent_error]

namespace Padding

def alone (m : Machine) (closed : m.Closed) : Padding where
  place k := k
  empty := []
  size := m.store.size
  first := m.current
  second := m.current
  inside := closed.current

theorem alone_state {m : Machine} (closed : m.Closed) : (alone m closed).State m m where
  stores := {
    size := rfl
    ordered := closed.links
    ordered' := closed.links
    increasing := fun _ _ less _ => less
    frames := by
      intro k f found
      refine ⟨f, found, ?_, closed.values k f found, ?_⟩
      · simp [alone, renameAll]
      · cases out : f.enclosing with
        | none => exact .inl ⟨rfl, rfl⟩
        | some outer =>
          have earlier := closed.links k f outer found out
          exact .inr ⟨outer, outer, rfl, rfl,
            Nat.lt_trans earlier (Store.lt_size_of_frame found), .inl rfl⟩
    empty := nofun
    covered := fun j there => .inl ⟨j, there, rfl⟩ }
  first := rfl
  second := rfl
  paired := ⟨closed.current, .inl rfl⟩
  functions := rfl
  calls := rfl
  output := rfl

theorem State.matches {w : Padding} {m n : Machine} (state : w.State m n) (settled : w.Settled) :
    m.Matches w.place n where
  output := state.output
  current := by rw [state.first, state.second, settled]
  increasing i k less there := state.stores.increasing i k less (state.stores.size ▸ there)
  frames k f found := by
    obtain ⟨g, found', fits⟩ := state.stores.frames k f found
    exact ⟨g, found', fits.bindings⟩
  others j g found none := by
    rcases state.stores.covered j (Store.lt_size_of_frame found) with ⟨k, there, stands⟩ | ⟨i, pads⟩
    · exact absurd stands (none k (state.stores.size ▸ there))
    · rw [(state.stores.empty j i pads).frame] at found
      cases found
      rfl

end Padding

theorem sameEnd_of_runs {x y : Eval Completion}
    (runs : ∀ w, Worlds.padding.Runs w .statement .completion x y) {m : Machine}
    (closed : m.Closed) : SameEnd m.store.size (x m) (y m) := by
  have ends := runs (.alone m closed) (fun _ => rfl) m m (Padding.alone_state closed)
  have settled {w : Padding} (later : (Padding.alone m closed).Later w) : w.Settled :=
    Worlds.padding.settle later rfl
  generalize x m = r at ends ⊢
  generalize y m = r' at ends ⊢
  cases ends with
  | ok later state good => exact .ok later.grows.place (state.matches (settled later))
  | error later state allowed => exact .error later.grows.place (state.matches (settled later))
  | spent lenient => exact lenient.elim

theorem block_frame_empty (natives : List Native) (fuel : Nat) {body : List Stmt}
    (quiet : Stmt.modeOf body = .expression) (m : Machine) :
    (final (execute natives (fuel + 1) (.block body)) m).store.frame? m.store.size =
      some ⟨[], some m.current⟩ := by
  have confined := ((Machine.confined_kept natives).related.executeAll fuel body).1
  rw [quiet, (Runner.isEvaluator natives fuel).executeAll] at confined
  have entered : (m.inside ⟨[], some m.current⟩).store.frame? m.store.size =
      some ⟨[], some m.current⟩ := by
    rw [Machine.inside, Store.frame_push, if_pos rfl]
  obtain ⟨⟨bindings, enclosing⟩, found, link, -, names⟩ :=
    (confined (m.inside ⟨[], some m.current⟩)).2 _ _ entered
  have nothing : bindings = [] := List.map_eq_nil_iff.mp (names (by rintro ⟨⟨⟩, -⟩))
  have leaves : final (inScope (executeAll natives fuel body)) m = _ :=
    Machine.final_inFrame ⟨[], some m.current⟩ (executeAll natives fuel body) m
  rw [execute_block, leaves, found, nothing]
  exact congrArg (fun enclosing => some (Frame.mk [] enclosing)) link

/-- A statement that is no declaration binds nothing in the scope that it is in. -/
theorem Parse.statement_quiet_mode {inFunction : Bool} {ts rest : List Token} {s : Stmt}
    (read : (Parse.statement inFunction ts).outcome = .parsed s rest) : s.mode = .expression := by
  have all (ts : List Token) : (Parse.expression ts).answer.Only (·.Every fun _ => True) :=
    fun e _ _ => Expr.every_of_forall (fun _ => trivial) e
  exact ((Parse.statement_and_block_every all trivial ts inFunction).1 s rest read).2

/-- Reading a counted loop as a plain one keeps its meaning. From every machine the two end the same
whenever one of them ends: with the same completion or failure, lines printed and bindings in all
frames that both have. The frame of the block around body and increment never gets a binding. -/
theorem counted_loop_meaning {natives : List Native} (uniform : ∀ f ∈ natives, f.Uniform)
    {inFunction : Bool} {ts rest : List Token} {s : Stmt}
    (read : (Parse.forStatement inFunction ts).outcome = .parsed s rest) :
    ∃ clauses body left, (Parse.forClauses ts).outcome = .parsed clauses left ∧
      (Parse.statement inFunction left).outcome = .parsed body rest ∧ s = clauses.loop body ∧
      (∀ m : Machine, m.Closed →
        (∀ fuel, ¬ Spent (execute natives fuel s m) →
          SameEnd m.store.size (clauses.run natives body fuel m) (execute natives fuel s m)) ∧
        ∀ fuel, ¬ Spent (clauses.run natives body fuel m) →
          SameEnd m.store.size (clauses.run natives body fuel m)
            (execute natives (fuel + 7) s m)) ∧
      ∀ increment ∈ clauses.increment, ∀ fuel (m : Machine),
        (final (execute natives (fuel + 1) (.block [body, .expression increment])) m).store.frame?
          m.store.size = some ⟨[], some m.current⟩ := by
  have answers : (Parse.forStatement inFunction ts).answer.outcome = .parsed s rest := read
  rw [Parse.answer_forStatement] at answers
  obtain ⟨clauses, left, first, second⟩ := Answer.parsed_of_bind answers
  obtain ⟨body, rest', parsed, made⟩ := Answer.parsed_of_bind second
  cases made
  have quiet := Parse.statement_quiet_mode parsed
  refine ⟨clauses, body, left, first, parsed, rfl, ?_, ?_⟩
  · intro m closed
    have same (fuel : Nat) := sameEnd_of_runs (clauses.runs_run uniform quiet fuel) closed
    constructor
    · intro fuel ended
      rw [← (clauses.run_completes natives body fuel).1 m ended]
      exact same fuel
    · intro fuel ended
      rw [(clauses.run_completes natives body fuel).2 m]
      · exact same fuel
      · exact fun spent => ended ((same fuel).spent_iff.mpr spent)
  · intro increment _ fuel m
    refine block_frame_empty natives fuel ?_ m
    rw [Stmt.modeOf, quiet]
    rfl

theorem Machine.Sound.closed {natives : List Native} {m : Machine} (sound : m.Sound natives) :
    m.Closed where
  links k f outer found out := by
    rcases (sound.store k f found).link with ⟨-, none⟩ | ⟨outer', earlier, out'⟩
    · rw [none] at out
      cases out
    · rw [out'] at out
      cases out
      exact earlier
  values k f found binding member := by
    have good := (sound.store k f found).values binding member
    cases value : binding.2 with
    | function c =>
      rw [value] at good
      exact good.1
    | _ => trivial
  current := sound.current

theorem Native.builtins_uniform (seconds : Nat → Float) : ∀ f ∈ builtins seconds, f.Uniform := by
  intro f member
  cases List.mem_singleton.mp member
  exact fun _ _ _ => rfl

/-- A loop of one round, which prints its own variable. -/
theorem counted_loop_meaning_once :
    let go : Token := ⟨.identifier, "go", 1⟩
    let ts : List Token := [⟨.symbol .leftParen, "(", 1⟩, ⟨.keyword .var, "var", 1⟩, go,
      ⟨.symbol .equal, "=", 1⟩, ⟨.keyword .true_, "true", 1⟩, ⟨.symbol .semicolon, ";", 1⟩, go,
      ⟨.symbol .semicolon, ";", 1⟩, go, ⟨.symbol .equal, "=", 1⟩, ⟨.keyword .false_, "false", 1⟩,
      ⟨.symbol .rightParen, ")", 1⟩, ⟨.keyword .print, "print", 1⟩, go,
      ⟨.symbol .semicolon, ";", 1⟩]
    let round : Stmt :=
      .block [.print (.reference go), .expression (.assign go (.literal (.bool false)))]
    let s : Stmt := .block [.declare go (some (.literal (.bool true))), .loop (.reference go) round]
    let m := Machine.start Native.standard
    (Parse.forStatement false ts).outcome = .parsed s [] ∧
      (final (execute Native.standard 20 s) m).output = #["true"] ∧
      ∃ (clauses : Parse.ForClauses) (body : Stmt), s = clauses.loop body ∧
        SameEnd 1 (clauses.run Native.standard body 20 m) (execute Native.standard 20 s m) := by
  intro go ts round s m
  have read : (Parse.forStatement false ts).outcome = .parsed s [] := by
    with_unfolding_all rfl
  have closed : m.Closed := (Machine.start_sound Native.standard).closed
  have ended : ¬ Spent (execute Native.standard 20 s m) := by decide +kernel
  obtain ⟨clauses, body, -, -, -, made, same, -⟩ :=
    counted_loop_meaning (Native.builtins_uniform _) read
  exact ⟨read, by decide +kernel, clauses, body, made, (same m closed).1 20 ended⟩

end Lox
