import Lox.Proofs.Lockstep
import Lox.Proofs.Scopes
import Lox.Proofs.Trees

/- What cannot go wrong in a session. At every moment links lead to earlier frames, functions have
   captured frames that are there, and their bodies are made of operators that can be evaluated; so
   no walk outwards comes to a frame twice, and no operator is met that has no meaning. -/
namespace Lox

def Value.Plain : Value → Prop
  | .function _ | .native _ => False
  | _ => True

/-- Functions of the program captured one of the first `size` frames and have operated bodies;
functions of the host are in its list. -/
def Value.Sound (natives : List Native) (size : Nat) : Value → Prop
  | .function c => c.frame < size ∧ Stmt.EveryOf Expr.Operated c.body
  | .native ref => ref.slot < natives.length
  | _ => True

/-- Only the global frame has no link, and all others have one to an earlier frame. -/
structure Frame.Sound (natives : List Native) (size k : Nat) (f : Frame) : Prop where
  link : k = Machine.globals ∧ f.enclosing = none ∨ ∃ outer, outer < k ∧ f.enclosing = some outer
  values : ∀ binding ∈ f.bindings, binding.2.Sound natives size

def Store.Sound (natives : List Native) (s : Store) : Prop :=
  ∀ k f, s.frame? k = some f → f.Sound natives s.size k

structure Machine.Sound (natives : List Native) (m : Machine) : Prop where
  store : m.store.Sound natives
  current : m.current < m.store.size

/-- A host function gives no functions but those of the host and those it was given. -/
def Native.Faithful (natives : List Native) (f : Native) : Prop :=
  ∀ calls args, (f.apply calls args).Sound natives 0 ∨ f.apply calls args ∈ args

section Stores

variable {natives : List Native} {size size' : Nat}

theorem Value.Plain.sound {v : Value} (plain : v.Plain) : v.Sound natives size := by
  cases v with
  | function c => exact plain.elim
  | native ref => exact plain.elim
  | _ => trivial

theorem Value.Sound.mono {v : Value} (sound : v.Sound natives size) (le : size ≤ size') :
    v.Sound natives size' := by
  cases v with
  | function c => exact ⟨Nat.lt_of_lt_of_le sound.1 le, sound.2⟩
  | native ref => exact sound
  | _ => trivial

theorem Frame.Sound.mono {k : Nat} {f : Frame} (sound : f.Sound natives size k) (le : size ≤ size') :
    f.Sound natives size' k :=
  ⟨sound.link, fun binding member => (sound.values binding member).mono le⟩

namespace Store.Sound

variable {s : Store} (sound : s.Sound natives)
include sound

theorem define (i : Nat) (name : String) {value : Value} (good : value.Sound natives s.size) :
    (s.define i name value).Sound natives := by
  intro k f found
  rw [frame_define] at found
  rw [size_define]
  split at found
  · obtain ⟨g, frame, rfl⟩ := Option.map_eq_some_iff.mp found
    refine ⟨(sound k g frame).link, fun binding member => ?_⟩
    rcases mem_bindName member with rfl | member
    · exact good
    · exact (sound k g frame).values binding member
  · exact sound k f found

theorem push {frame : Frame} (good : frame.Sound natives (s.size + 1) s.size) :
    (s.push frame).Sound natives := by
  intro k f found
  rw [frame_push] at found
  rw [size_push]
  split at found
  · rename_i last
    cases found
    exact last ▸ good
  · exact (sound k f found).mono (Nat.le_succ _)

theorem lookup {name : String} {i : Nat} {value : Value} (found : s.lookup? name i = some value) :
    value.Sound natives s.size := by
  obtain ⟨k, -, found⟩ := Option.bind_eq_some_iff.mp found
  obtain ⟨f, frame, bound⟩ := Option.bind_eq_some_iff.mp found
  exact (sound k f frame).values (name, value) (mem_of_lookup bound)

end Store.Sound

theorem Machine.Sound.inside {m : Machine} (sound : m.Sound natives) {frame : Frame}
    (good : frame.Sound natives (m.store.size + 1) m.store.size) :
    (m.inside frame).Sound natives where
  store := sound.store.push good
  current := by simp [Machine.inside]

theorem Machine.start_sound (natives : List Native) : (Machine.start natives).Sound natives := by
  have along : ∀ (fs : List (Native × Nat)) (s : Store), s.Sound natives →
      (∀ f ∈ fs, f.2 < natives.length) →
      (fs.foldl (fun s f => s.define globals f.1.name (.native (f.1.ref f.2))) s).Sound natives := by
    intro fs
    induction fs with
    | nil => exact fun _ sound _ => sound
    | cons f fs ih =>
      intro s sound listed
      have there : (Value.native (f.1.ref f.2)).Sound natives s.size := listed f List.mem_cons_self
      exact ih _ (sound.define globals f.1.name there)
        fun f member => listed f (List.mem_cons_of_mem _ member)
  have empty : (Store.empty.push ⟨[], none⟩).Sound natives := by
    intro k f found
    rw [Store.frame_push] at found
    split at found
    · rename_i first
      cases found
      exact ⟨.inl ⟨first, rfl⟩, by simp⟩
    · simp [Store.empty, Store.frame?] at found
  refine ⟨along natives.zipIdx _ empty ?_, ?_⟩
  · rintro ⟨f, slot⟩ member
    exact (List.mem_zipIdx' member).1
  · have rest := (Log.atRest_start natives).ordered.sound _ List.mem_cons_self
    exact rest.exists_

end Stores

inductive SafeEnd (natives : List Native) (size : Nat) {α : Type} (s : Shape α) :
    EStateM.Result Stop Machine α → Prop where
  | ok {a : α} {n : Machine} (sound : n.Sound natives) (same : n.store.size = size)
      (good : s.Good (Value.Sound natives size) a) : SafeEnd natives size s (.ok a n)
  | fault {why : Fault} {n : Machine} (sound : n.Sound natives) (same : n.store.size = size) :
      SafeEnd natives size s (.error (.fault why) n)

def Settles (x : Eval Value) : Prop :=
  (∃ v, v.Plain ∧ x = pure v) ∨ ∃ why, x = throw (.fault why)

theorem Settles.value {v : Value} (plain : v.Plain) : Settles (pure v) := .inl ⟨v, plain, rfl⟩

theorem Settles.raise (t : Token) (cause : Cause) : Settles (Machine.raise t cause) :=
  .inr ⟨_, rfl⟩

theorem unaryValue_settles {op : Token} {e : Expr} (operated : (Expr.unary op e).Operated)
    (v : Value) : Settles (unaryValue op v) := by
  unfold unaryValue
  split
  · split
    · exact .value trivial
    · exact .raise _ _
  · exact .value trivial
  · rename_i notMinus notBang
    exact absurd operated (not_or.mpr ⟨notBang, notMinus⟩)

theorem arithmetic_plain {s : Symbol} {f : Float → Float → Value} (eq : arithmetic? s = some f)
    (a b : Float) : (f a b).Plain := by
  unfold arithmetic? at eq
  split at eq <;> cases eq <;> trivial

theorem arithmetic_of_layer {s : Symbol} {l : Layer} (belongs : (Kind.symbol s).layer? = some l) :
    s = .equalEqual ∨ s = .bangEqual ∨ s = .plus ∨ (arithmetic? s).isSome := by
  cases s <;> simp [Kind.layer?, arithmetic?] at belongs ⊢

theorem binaryValue_settles {op : Token} {a b : Expr} (operated : (Expr.binary a op b).Operated)
    (left right : Value) : Settles (binaryValue op left right) := by
  obtain ⟨l, belongs, notOr, notAnd⟩ := operated
  obtain ⟨kind, lexeme, line⟩ := op
  cases kind with
  | symbol s =>
    unfold binaryValue
    split
    · exact .value trivial
    · exact .value trivial
    · split
      · exact .value trivial
      · exact .value trivial
      · exact .raise _ _
    · rename_i s' notEqual notUnequal notPlus same
      cases same
      split
      · rename_i f arithmetic
        split
        · exact .value (arithmetic_plain arithmetic _ _)
        · exact .raise _ _
      · rename_i none
        rcases arithmetic_of_layer belongs with equal | unequal | plus | arithmetic
        · exact absurd equal notEqual
        · exact absurd unequal notUnequal
        · exact absurd plus notPlus
        · rw [none] at arithmetic
          cases arithmetic
    · rename_i other
      exact absurd rfl (other s)
  | keyword w =>
    cases w with
    | or => exact absurd (Option.some.inj belongs).symm notOr
    | and => exact absurd (Option.some.inj belongs).symm notAnd
    | _ => cases belongs
  | _ => cases belongs

section Acts

variable {natives : List Native} {m : Machine}

theorem Settles.safe {x : Eval Value} (settles : Settles x) (sound : m.Sound natives) :
    SafeEnd natives m.store.size .value (x m) := by
  rcases settles with ⟨v, plain, rfl⟩ | ⟨why, rfl⟩
  · exact .ok sound rfl plain.sound
  · exact .fault sound rfl

theorem Act.safe (faithful : ∀ f ∈ natives, f.Faithful natives) {α : Type} (x : Act α)
    (sound : m.Sound natives) (given : x.Given (Value.Sound natives m.store.size))
    (from_ : x.From Expr.Operated (Value.Sound natives m.store.size)) :
    SafeEnd natives m.store.size x.shape (x.perform natives m) := by
  have bind (k : Nat) (name : String) {v : Value} (good : v.Sound natives m.store.size) :
      Machine.Sound natives { m with store := m.store.define k name v } :=
    ⟨sound.store.define k name good, by simpa using sound.current⟩
  cases x with
  | unary op v =>
    obtain ⟨e, operated⟩ := from_
    exact (unaryValue_settles operated v).safe sound
  | binary op v w =>
    obtain ⟨a, b, operated⟩ := from_
    exact (binaryValue_settles operated v w).safe sound
  | checkCount paren expected count =>
    rw [Act.perform, Lox.checkCount]
    split
    · exact .ok sound rfl trivial
    · exact .fault sound rfl
  | lookup name =>
    rw [Act.perform, Machine.lookup_eq]
    cases found : m.store.lookup? name.lexeme m.current with
    | none => exact .fault sound rfl
    | some value => exact .ok sound rfl (sound.store.lookup found)
  | assign name value =>
    rw [Act.perform, Machine.assign_eq]
    cases m.store.resolve? name.lexeme m.current with
    | none => exact .fault sound rfl
    | some k => exact .ok (bind k name.lexeme given) (Store.size_define ..) given
  | define name value => exact .ok (bind m.current name given) (Store.size_define ..) trivial
  | print value => exact .ok ⟨sound.store, sound.current⟩ rfl trivial
  | declare name params body =>
    have good : (Value.function ⟨m.functionCount, name, params, body, m.current⟩).Sound natives
        m.store.size := ⟨sound.current, from_⟩
    have bound := bind m.current name.lexeme good
    exact .ok ⟨bound.store, bound.current⟩ (Store.size_define ..) trivial
  | native ref args =>
    rw [Act.perform, Machine.callNative_eq, List.getElem?_eq_getElem from_]
    refine .ok ⟨sound.store, sound.current⟩ rfl ?_
    rcases faithful _ (List.getElem_mem from_) m.hostCalls args with own | member
    · exact own.mono (Nat.zero_le _)
    · exact given _ member

end Acts

namespace Log

def Sound (natives : List Native) (l : Log) : Prop :=
  ∀ a ∈ l.now :: l.past, a.machine.Sound natives

variable {natives : List Native} {l : Log}

theorem Sound.now (sound : l.Sound natives) : l.now.machine.Sound natives :=
  sound l.now List.mem_cons_self

theorem Sound.note (sound : l.Sound natives) {next : Moment} (good : next.machine.Sound natives) :
    (l.note next).Sound natives := by
  intro a member
  rcases List.mem_cons.mp member with rfl | member
  · exact good
  · exact sound a member

end Log

def Worlds.sound (natives : List Native) : Worlds Log Log where
  World := Nat
  later := (· ≤ ·)
  settled _ := True
  rename _ k := k
  good := Value.Sound natives
  state size l l' := l' = l ∧ l.Sound natives ∧ l.now.machine.store.size = size
  allowed why := ∀ what, why ≠ .stuck what
  lenient := False
  refl := Nat.le_refl
  trans := Nat.le_trans
  settle _ _ := trivial
  keep le good := ⟨good.mono le, rfl⟩
  literal _ l := by cases l <;> trivial

namespace Worlds.sound

variable {natives : List Native} {size : Nat} {l : Log}

theorem ends_ok {α : Type} {s : Shape α} {a : α} (le : size ≤ l.now.machine.store.size)
    (sound : l.Sound natives) (good : s.Good (Value.Sound natives l.now.machine.store.size) a) :
    (Worlds.sound natives).Ends size s (.ok a l) (.ok a l) := by
  have ends : (Worlds.sound natives).Ends size s (.ok a l) (.ok (s.rename (fun k => k) a) l) :=
    .ok le ⟨rfl, sound, rfl⟩ good
  rwa [Shape.rename_self] at ends

theorem ends_error {α : Type} {s : Shape α} {why : Stop} (le : size ≤ l.now.machine.store.size)
    (sound : l.Sound natives) (allowed : ∀ what, why ≠ .stuck what) :
    (Worlds.sound natives).Ends size s (.error why l : EStateM.Result Stop Log α) (.error why l) :=
  .error le ⟨rfl, sound, rfl⟩ allowed

theorem ends_perform {α : Type} {s : Shape α} {x : Eval α} (sound : l.Sound natives)
    (safe : SafeEnd natives l.now.machine.store.size s (x l.now.machine)) :
    (Worlds.sound natives).Ends l.now.machine.store.size s (Log.perform x l) (Log.perform x l) := by
  unfold Log.perform
  generalize x l.now.machine = r at safe ⊢
  cases safe with
  | ok sound' same good =>
    exact ends_ok (Nat.le_of_eq same.symm) (sound.note sound') (same ▸ good)
  | fault sound' same => exact ends_error (Nat.le_of_eq same.symm) (sound.note sound') nofun

/-- A scope with a sound frame runs safely when what is inside it does. -/
theorem runs_scope (frame : Machine → Frame) {x y : Recorded Completion}
    (good : ∀ m : Machine, m.Sound natives → m.store.size = size →
      (frame m).Sound natives (m.store.size + 1) m.store.size)
    (inner : ∀ size, (Worlds.sound natives).Runs size .statement .completion x y) :
    (Worlds.sound natives).Runs size .expression .completion
      (fun l => Log.scope (frame l.now.machine) x l)
      fun l => Log.scope (frame l.now.machine) y l := by
  rintro - l l' ⟨same, sound, count⟩
  subst same
  have entered := sound.now.inside (good _ sound.now count)
  have inside : (l'.note { l'.now with machine := l'.now.machine.inside (frame l'.now.machine) }).Sound
      natives := sound.note entered
  have ends := inner (l'.now.machine.store.size + 1) (fun _ => trivial) _ _
    ⟨rfl, inside, by simp [Log.note, Machine.inside]⟩
  unfold Log.scope
  simp only
  generalize x _ = r at ends ⊢
  generalize y _ = r' at ends ⊢
  -- The frame gone back to is among those that were there on the way in.
  have back {l : Log} (sound' : l.Sound natives)
      (more : l'.now.machine.store.size + 1 ≤ l.now.machine.store.size) :
      (l.leave l'.now.machine.current l'.now.machine.store.size).Sound natives :=
    sound'.note ⟨sound'.now.store, Nat.lt_trans sound.now.current more⟩
  cases ends with
  | ok later state gives =>
    obtain ⟨rfl, sound', rfl⟩ := state
    simp only [Worlds.sound, Shape.rename_self]
    exact ends_ok (count ▸ Nat.le_of_succ_le later) (back sound' later) gives
  | error later state allowed =>
    obtain ⟨rfl, sound', rfl⟩ := state
    exact ends_error (count ▸ Nat.le_of_succ_le later) (back sound' later) allowed
  | spent lenient => exact lenient.elim

theorem lockstep (faithful : ∀ f ∈ natives, f.Faithful natives) :
    Runner.Lockstep (Worlds.sound natives) (Runner.recording natives) (Runner.recording natives)
      Expr.Operated where
  throws _ := rfl
  throws' _ := rfl
  allows fails := by
    rintro what rfl
    cases fails
  body good := good.2
  act := by
    rintro size α x given from_ - l l' ⟨same, sound, rfl⟩
    subst same
    simp only [Worlds.sound, Act.rename_self]
    exact ends_perform sound (x.safe faithful sound.now given from_)
  block inner := by
    refine runs_scope (fun m => ⟨[], some m.current⟩) (fun m sound _ => ?_) inner
    exact ⟨.inr ⟨m.current, sound.current, rfl⟩, by simp⟩
  enter := by
    intro size f args x y callee given inner
    simp only [Worlds.sound, Closure.rename_self, Value.rename_self, List.map_id']
    refine runs_scope (fun _ => f.callFrame args) (fun m sound count => ?_) inner
    subst count
    refine ⟨.inr ⟨f.frame, callee.1, rfl⟩, ?_⟩
    exact f.callFrame_values fun v member => (given v member).mono (Nat.le_succ _)

end Worlds.sound

namespace Log

variable {α : Type} {natives : List Native} {x : Recorded α} {y : Eval α} {l : Log}

/-- Code that keeps all moments sound and is never stuck. -/
def Safe (natives : List Native) (x : Recorded α) : Prop :=
  ∀ l : Log, l.Sound natives →
    (final x l).Sound natives ∧ ∀ what l', x l ≠ .error (.stuck what) l'

theorem safe_of_runs {mode : Mode} {s : Shape α}
    (runs : ∀ size, (Worlds.sound natives).Runs size mode s x x) : Safe natives x := by
  intro l sound
  obtain ⟨r', ends⟩ : ∃ r', (Worlds.sound natives).Ends l.now.machine.store.size s (x l) r' :=
    ⟨_, runs l.now.machine.store.size (fun _ => trivial) l l ⟨rfl, sound, rfl⟩⟩
  unfold final
  generalize x l = r at ends ⊢
  cases ends with
  | ok later state good => exact ⟨state.2.1, nofun⟩
  | error later state allowed =>
    refine ⟨state.2.1, ?_⟩
    rintro what l' ⟨⟩
    exact allowed what rfl
  | spent lenient => exact lenient.elim

theorem Safe.notStuck (safe : Safe natives x) (records : Records x y) (sound : l.Sound natives)
    (what : Stuck) (m : Machine) : y l.now.machine ≠ .error (.stuck what) m := by
  rw [← records l]
  have never := (safe l sound).2 what
  generalize x l = r at never ⊢
  cases r with
  | ok a l' => nofun
  | error why l' =>
    rintro ⟨⟩
    exact never l' rfl

end Log

/-- Trees of the step can be read from tokens, and a value that it defines is no function of a
program. -/
def Step.Read (natives : List Native) : Step → Prop
  | .evaluate _ e => e.Read
  | .execute _ s => s.Read
  | .interpret _ ss => ∀ s ∈ ss, s.Read
  | .run _ _ => True
  | .defineGlobal _ value => value.Sound natives 0

def Step.Stops (s : Session) : Step → Stop → Prop
  | .evaluate fuel e, why => (s.evaluate fuel e).1 = .error why
  | .execute fuel stmt, why => (s.execute fuel stmt).1 = .error why
  | .interpret fuel stmts, why => (s.interpret fuel stmts).1 = .error why
  | .run fuel source, why => (s.run fuel source).1 = .error (.stopped why)
  | .defineGlobal _ _, _ => False

deriving instance DecidableEq for Stuck, Stop, Failure

instance decidableEqError {ε α : Type} [DecidableEq ε] (r : Except ε α) (why : ε) :
    Decidable (r = .error why) :=
  match r with
  | .ok _ => isFalse (by simp)
  | .error other => decidable_of_iff (other = why) (by simp)

instance decidableStops (s : Session) (step : Step) (why : Stop) :
    Decidable (step.Stops s why) :=
  match step with
  | .evaluate .. | .execute .. | .interpret .. | .run .. => inferInstanceAs (Decidable (_ = _))
  | .defineGlobal .. => isFalse id

theorem Session.perform_eq_error {α : Type} {x : Eval α} {s : Session} {why : Stop}
    (eq : (s.perform x).1 = .error why) : ∃ m, x s.machine = .error why m := by
  unfold perform at eq
  cases ended : x s.machine with
  | ok a m =>
    rw [ended] at eq
    cases eq
  | error why' m =>
    rw [ended] at eq
    cases eq
    exact ⟨m, rfl⟩

theorem Session.run_eq_stopped {fuel : Nat} {source : String} {s : Session} {why : Stop}
    (eq : (s.run fuel source).1 = .error (.stopped why)) :
    (Program.ofText source).diagnostics = [] ∧
      (s.interpret fuel (Program.ofText source).statements).1 = .error why := by
  have answers := s.run_answers fuel source
  generalize s.run fuel source = r at answers eq
  cases answers with
  | rejected found => cases eq
  | done accepted ran => cases eq
  | stopped accepted ran =>
    cases eq
    refine ⟨accepted, ?_⟩
    rw [interpret, perform, ran]

theorem Program.ofText_read (source : String) : ∀ s ∈ (Program.ofText source).statements, s.Read :=
  fun _ member => ⟨_, .inr (.inr member)⟩

theorem Stmt.everyOf_of_read {ss : List Stmt} (read : ∀ s ∈ ss, s.Read) :
    Stmt.EveryOf Expr.Operated ss := by
  induction ss with
  | nil => trivial
  | cons s ss ih =>
    obtain ⟨first, later⟩ := List.forall_mem_cons.mp read
    exact ⟨first.operated, ih later⟩

section Sessions

variable {natives : List Native} (faithful : ∀ f ∈ natives, f.Faithful natives)
include faithful

theorem evaluate_safe (fuel : Nat) {e : Expr} (read : e.Read) :
    Log.Safe natives ((Runner.recording natives).evaluate fuel e) :=
  Log.safe_of_runs fun size =>
    ((Worlds.sound.lockstep faithful).simulation.runs fuel).evaluate size e read.operated

theorem execute_safe (fuel : Nat) {s : Stmt} (read : s.Read) :
    Log.Safe natives ((Runner.recording natives).execute fuel s) :=
  Log.safe_of_runs fun size =>
    ((Worlds.sound.lockstep faithful).simulation.runs fuel).execute size s read.operated

theorem interpret_safe (fuel : Nat) {ss : List Stmt} (read : ∀ s ∈ ss, s.Read) :
    Log.Safe natives ((Runner.recording natives).interpret fuel ss) :=
  Log.safe_of_runs fun size =>
    (Worlds.sound.lockstep faithful).simulation.interpret fuel size ss (Stmt.everyOf_of_read read)

theorem Step.record_sound {l : Log} (sound : l.Sound natives) {step : Step}
    (read : step.Read natives) : (step.record natives l).Sound natives := by
  cases step with
  | evaluate fuel e => exact (evaluate_safe faithful fuel read l sound).1
  | execute fuel s => exact (execute_safe faithful fuel read l sound).1
  | interpret fuel ss => exact (interpret_safe faithful fuel read l sound).1
  | run fuel source =>
    rw [Step.record]
    by_cases clean : (Program.ofText source).diagnostics.isEmpty
    · simp only [clean, if_true]
      exact (interpret_safe faithful fuel (Program.ofText_read source) l sound).1
    · simp only [clean]
      exact sound
  | defineGlobal name value =>
    have good : value.Sound natives l.now.machine.store.size :=
      Value.Sound.mono read (Nat.zero_le _)
    refine sound.note ⟨sound.now.store.define Machine.globals name good, ?_⟩
    rw [Store.size_define]
    exact sound.now.current

theorem Log.of_sound {steps : List Step} (read : ∀ step ∈ steps, step.Read natives) :
    (Log.of natives steps).Sound natives := by
  have along : ∀ (steps : List Step) (l : Log), l.Sound natives →
      (∀ step ∈ steps, step.Read natives) → (steps.foldl (Step.record natives) l).Sound natives := by
    intro steps
    induction steps with
    | nil => exact fun _ sound _ => sound
    | cons step steps ih =>
      intro l sound read
      obtain ⟨first, later⟩ := List.forall_mem_cons.mp read
      exact ih _ (step.record_sound faithful sound first) later
  refine along steps _ ?_ read
  intro a member
  cases List.mem_singleton.mp member
  exact Machine.start_sound natives

/-- A step of a session whose record is sound is never stuck. -/
theorem Step.not_stuck {l : Log} (sound : l.Sound natives) {s : Session}
    (same : l.now.machine = s.machine) (host : s.natives = natives) {step : Step}
    (read : step.Read natives) (what : Stuck) : ¬ step.Stops s (.stuck what) := by
  subst host
  have records := Runner.records_related s.natives
  have never (fuel : Nat) {ss : List Stmt} (read : ∀ s ∈ ss, s.Read) :
      (s.interpret fuel ss).1 ≠ .error (.stuck what) := by
    intro stops
    obtain ⟨m, eq⟩ := Session.perform_eq_error stops
    rw [← same, ← Runner.machine_interpret] at eq
    exact (interpret_safe faithful fuel read).notStuck (records.interpret fuel ss).1 sound what m eq
  cases step with
  | evaluate fuel e =>
    intro stops
    obtain ⟨m, eq⟩ := Session.perform_eq_error stops
    rw [← same, ← (Runner.isEvaluator s.natives fuel).evaluate] at eq
    exact (evaluate_safe faithful fuel read).notStuck ((records.runs fuel).evaluate e).1 sound what
      m eq
  | execute fuel stmt =>
    intro stops
    obtain ⟨m, eq⟩ := Session.perform_eq_error stops
    rw [← same, ← (Runner.isEvaluator s.natives fuel).execute] at eq
    exact (execute_safe faithful fuel read).notStuck ((records.runs fuel).execute stmt).1 sound what
      m eq
  | interpret fuel ss => exact never fuel read
  | run fuel source =>
    intro stops
    obtain ⟨-, stopped⟩ := Session.run_eq_stopped stops
    exact never fuel (Program.ofText_read source) stopped
  | defineGlobal name value => exact id

end Sessions

/-- The walk outwards of an assignment, which holds every frame on its way. It fails when its steps
run out, when a link leads to no frame, and when it comes to a frame that it holds already. -/
def Store.seek? (s : Store) (name : String) : (steps : Nat) → (held : List Nat) → Nat →
    Option (Option Nat)
  | 0, _, _ => none
  | steps + 1, held, i =>
    if i ∈ held then none
    else
      match s.frame? i with
      | none => none
      | some f =>
        if (f.get? name).isSome then some (some i)
        else
          match f.enclosing with
          | none => some none
          | some outer => s.seek? name steps (i :: held) outer

namespace Store.Sound

variable {natives : List Native} {s : Store} (sound : s.Sound natives)
include sound

/-- In a sound store no walk fails. -/
theorem seek_eq (name : String) {steps : Nat} {held : List Nat} {i : Nat} (there : i < s.size)
    (free : ∀ k ∈ held, i < k) (enough : i < steps) :
    s.seek? name steps held i = some (s.resolve? name i) := by
  induction steps generalizing held i with
  | zero => exact absurd enough (Nat.not_lt_zero _)
  | succ steps ih =>
    obtain ⟨f, found⟩ := Option.isSome_iff_exists.mp ((s.frame_isSome_iff i).mpr there)
    have notHeld : i ∉ held := fun held => Nat.lt_irrefl _ (free i held)
    rw [seek?, resolve?, if_neg notHeld, found]
    simp only
    split
    · rfl
    · rcases (sound i f found).link with ⟨-, out⟩ | ⟨outer, earlier, out⟩
      · simp only [out]
      · simp only [out, earlier, if_true]
        refine ih (Nat.lt_trans earlier there) ?_ (by omega)
        intro k member
        rcases List.mem_cons.mp member with rfl | member
        · exact earlier
        · exact Nat.lt_trans earlier (free k member)

/-- Going outwards, frames get earlier and the last is the global one. -/
theorem chain_descends {i : Nat} (there : i < s.size) :
    (s.chain i).Pairwise (· > ·) ∧ (∀ k ∈ s.chain i, k ≤ i) ∧
      (s.chain i).getLast? = some Machine.globals := by
  induction i using Nat.strongRecOn with
  | ind i ih =>
    obtain ⟨f, found⟩ := Option.isSome_iff_exists.mp ((s.frame_isSome_iff i).mpr there)
    rw [chain, found, Option.bind_some]
    rcases (sound i f found).link with ⟨rfl, out⟩ | ⟨outer, earlier, out⟩
    · simp [out]
    · simp only [out, earlier, if_true]
      obtain ⟨descends, bounded, last⟩ := ih outer earlier (Nat.lt_trans earlier there)
      refine ⟨List.pairwise_cons.mpr ⟨?_, descends⟩, ?_, ?_⟩
      · exact fun k member => Nat.lt_of_le_of_lt (bounded k member) earlier
      · intro k member
        rcases List.mem_cons.mp member with rfl | member
        · exact Nat.le_refl _
        · exact Nat.le_trans (bounded k member) (Nat.le_of_lt earlier)
      · rw [List.getLast?_cons, last, Option.getD_some]

end Store.Sound

/-- Nothing goes wrong in sessions with trees that were read from tokens. No step meets an operator
without a meaning, whatever functions earlier steps have left; at every moment functions have
captured frames that are there, links lead to earlier frames, and all ways out end at the global
frame, so that a walk out ends with its result and never needs a frame that it holds. -/
theorem session_never_stuck (natives : List Native) (faithful : ∀ f ∈ natives, f.Faithful natives)
    (steps : List Step) (read : ∀ step ∈ steps, step.Read natives) :
    (∀ step : Step, step.Read natives →
      ∀ what, ¬ step.Stops (Session.after natives steps) (.stuck what)) ∧
    (Log.of natives steps).now.machine = (Session.after natives steps).machine ∧
    ∀ moment ∈ (Log.of natives steps).moments, moment.machine.Sound natives ∧
      ∀ i < moment.machine.store.size,
        (moment.machine.store.chain i).Pairwise (· > ·) ∧
        (moment.machine.store.chain i).getLast? = some Machine.globals ∧
        ∀ name, moment.machine.store.seek? name moment.machine.store.size [] i =
          some (moment.machine.store.resolve? name i) := by
  have sound := Log.of_sound faithful read
  obtain ⟨same, host⟩ := Log.of_session natives steps
  refine ⟨?_, same, ?_⟩
  · intro step read' what
    exact step.not_stuck faithful sound same host read' what
  · intro moment member
    rw [Log.moments, List.mem_reverse] at member
    have good := sound moment member
    refine ⟨good, fun i there => ?_⟩
    obtain ⟨descends, -, last⟩ := good.store.chain_descends there
    exact ⟨descends, last, fun name => good.store.seek_eq name there (List.forall_mem_nil _) there⟩

theorem Native.builtins_faithful (seconds : Nat → Float) :
    ∀ f ∈ builtins seconds, f.Faithful (builtins seconds) := by
  intro f member
  cases List.mem_singleton.mp member
  exact fun _ _ => .inl trivial

/-- A function that an earlier text has left negates what is no number: a fault, and no more. -/
theorem session_never_stuck_negation :
    let f : Token := ⟨.identifier, "f", 1⟩
    let paren : Token := ⟨.symbol .rightParen, ")", 1⟩
    let steps : List Step := [.run 20 "fun f(n) \x7b return -n; \x7d"]
    let step : Step := .evaluate 20 (.call (.reference f) paren [.reference f])
    step.Read Native.standard ∧
      step.Stops (Session.after Native.standard steps) (.fault ⟨.operandNotNumber, 1⟩) ∧
      ∀ what, ¬ step.Stops (Session.after Native.standard steps) (.stuck what) := by
  intro f paren steps step
  have read : step.Read Native.standard :=
    ⟨⟨[f, ⟨.symbol .leftParen, "(", 1⟩, f, paren], ⟨.eof, "", 1⟩⟩, by with_unfolding_all rfl⟩
  have before : ∀ step ∈ steps, step.Read Native.standard := by simp [steps, Step.Read]
  have safe := session_never_stuck Native.standard (Native.builtins_faithful _) steps before
  exact ⟨read, by decide +kernel, safe.1 step read⟩

end Lox
