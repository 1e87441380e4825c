import Lox.Proofs.Counters

/- Which frames code can see. From the current frame code comes to others by links and by the frames
   that functions captured; those that it cannot come to it neither changes nor depends on. The
   proof runs the same code twice, on machines that agree on a set of frames closed under both ways,
   all frames yet to come included. -/
namespace Lox

/-- Frame `i` leads to frame `j`, by its link or by a function that it binds. -/
inductive Store.Edge (s : Store) (i j : Nat) : Prop where
  | link {f : Frame} (found : s.frame? i = some f) (out : f.enclosing = some j)
  | capture {f : Frame} {name : String} {c : Closure} (found : s.frame? i = some f)
      (bound : (name, .function c) ∈ f.bindings) (captures : c.frame = j)

inductive Store.Reaches (s : Store) (start : Nat) : Nat → Prop where
  | start : Reaches s start start
  | step {i j : Nat} (earlier : Reaches s start i) (edge : s.Edge i j) : Reaches s start j

def Value.Within (seen : Nat → Prop) : Value → Prop
  | .function c => seen c.frame
  | _ => True

structure Frame.Within (seen : Nat → Prop) (f : Frame) : Prop where
  link : ∀ outer, f.enclosing = some outer → seen outer
  values : ∀ binding ∈ f.bindings, binding.2.Within seen

namespace Frame.Within

variable {seen : Nat → Prop} {f : Frame}

theorem define (within : f.Within seen) (name : String) {value : Value}
    (good : value.Within seen) : (f.define name value).Within seen where
  link := within.link
  values := by
    intro binding member
    rcases mem_bindName member with rfl | member
    · exact good
    · exact within.values binding member

theorem get (within : f.Within seen) {name : String} {value : Value}
    (found : f.get? name = some value) : value.Within seen :=
  within.values (name, value) (mem_of_lookup found)

end Frame.Within

theorem Closure.callFrame_within {seen : Nat → Prop} {f : Closure} {args : List Value}
    (captured : (Value.function f).Within seen) (given : ∀ v ∈ args, v.Within seen) :
    (f.callFrame args).Within seen := by
  constructor
  · intro outer out
    cases out
    exact captured
  · exact f.callFrame_values given

/-- Two machines that agree on the frames in `seen`, which nothing leads out of. -/
structure Twin (seen : Nat → Prop) (m m' : Machine) : Prop where
  current : m'.current = m.current
  size : m'.store.size = m.store.size
  functions : m'.functionCount = m.functionCount
  calls : m'.hostCalls = m.hostCalls
  inside : seen m.current
  fresh : ∀ k, m.store.size ≤ k → seen k
  frames : ∀ k, seen k → m'.store.frame? k = m.store.frame? k
  closed : ∀ k f, seen k → m.store.frame? k = some f → f.Within seen

namespace Twin

variable {seen : Nat → Prop} {m m' : Machine}

theorem resolve (twin : Twin seen m m') (name : String) {i : Nat} (from_ : seen i) :
    m'.store.resolve? name i = m.store.resolve? name i ∧
      ∀ k, m.store.resolve? name i = some k → seen k := by
  induction i using Nat.strongRecOn with
  | ind i ih =>
    rw [Store.resolve?, Store.resolve?, twin.frames i from_]
    cases found : m.store.frame? i with
    | none => exact ⟨rfl, by simp⟩
    | some f =>
      simp only
      by_cases bound : (f.get? name).isSome
      · simp only [bound, if_true]
        refine ⟨trivial, ?_⟩
        rintro k ⟨⟩
        exact from_
      · simp only [bound]
        cases out : f.enclosing with
        | none => exact ⟨rfl, by simp⟩
        | some outer =>
          by_cases earlier : outer < i
          · simp only [earlier, if_true]
            exact ih outer earlier ((twin.closed i f from_ found).link outer out)
          · simp only [earlier, if_false]
            exact ⟨trivial, by simp⟩

theorem lookup (twin : Twin seen m m') (name : String) :
    m'.store.lookup? name m'.current = m.store.lookup? name m.current ∧
      ∀ value, m.store.lookup? name m.current = some value → value.Within seen := by
  obtain ⟨same, inside⟩ := twin.resolve name twin.inside
  unfold Store.lookup?
  rw [twin.current, same]
  cases means : m.store.resolve? name m.current with
  | none => exact ⟨rfl, nofun⟩
  | some k =>
    have seenK := inside k means
    simp only [Option.bind_some]
    rw [twin.frames k seenK]
    refine ⟨rfl, ?_⟩
    intro value found
    obtain ⟨f, frame, bound⟩ := Option.bind_eq_some_iff.mp found
    exact (twin.closed k f seenK frame).get bound

theorem define (twin : Twin seen m m') {k : Nat} (name : String) {value : Value}
    (good : value.Within seen) :
    Twin seen { m with store := m.store.define k name value }
      { m' with store := m'.store.define k name value } where
  current := twin.current
  size := by simp [twin.size]
  functions := twin.functions
  calls := twin.calls
  inside := twin.inside
  fresh j le := twin.fresh j (by simpa using le)
  frames := by
    intro j seenJ
    rw [Store.frame_define, Store.frame_define, twin.frames j seenJ]
  closed := by
    intro j f seenJ found
    rw [Store.frame_define] at found
    split at found
    · obtain ⟨g, frame, rfl⟩ := Option.map_eq_some_iff.mp found
      exact (twin.closed j g seenJ frame).define name good
    · exact twin.closed j f seenJ found

theorem push (twin : Twin seen m m') {frame : Frame} (within : frame.Within seen) :
    Twin seen (m.inside frame) (m'.inside frame) where
  current := twin.size
  size := by simp [Machine.inside, twin.size]
  functions := twin.functions
  calls := twin.calls
  inside := twin.fresh _ (Nat.le_refl _)
  fresh j le := by
    simp only [Machine.inside, Store.size_push] at le
    exact twin.fresh j (Nat.le_of_succ_le le)
  frames := by
    intro j seenJ
    simp only [Machine.inside, Store.frame_push, twin.size, twin.frames j seenJ]
  closed := by
    intro j f seenJ found
    simp only [Machine.inside, Store.frame_push] at found
    split at found
    · cases found
      exact within
    · exact twin.closed j f seenJ found

end Twin

/-- From `m` to `n` beside `m'` to `n'`: still twins, with the same lines printed, and nothing done to
frames that are not in `seen`. -/
structure Moves (seen : Nat → Prop) (m m' n n' : Machine) : Prop where
  twin : Twin seen n n'
  back : n.current = m.current
  printed : ∃ lines, n.output = m.output ++ lines ∧ n'.output = m'.output ++ lines
  apart : ∀ k, ¬ seen k → n.store.frame? k = m.store.frame? k ∧ n'.store.frame? k = m'.store.frame? k

namespace Moves

variable {seen : Nat → Prop} {m m' n n' o o' : Machine}

theorem refl (twin : Twin seen m m') : Moves seen m m' m m' where
  twin := twin
  back := rfl
  printed := ⟨#[], by simp⟩
  apart _ _ := ⟨rfl, rfl⟩

theorem trans (first : Moves seen m m' n n') (second : Moves seen n n' o o') :
    Moves seen m m' o o' where
  twin := second.twin
  back := second.back.trans first.back
  printed := by
    obtain ⟨lines, out, out'⟩ := first.printed
    obtain ⟨more, next, next'⟩ := second.printed
    refine ⟨lines ++ more, ?_, ?_⟩
    · rw [next, out, Array.append_assoc]
    · rw [next', out', Array.append_assoc]
  apart k unseen :=
    ⟨(second.apart k unseen).1.trans (first.apart k unseen).1,
      (second.apart k unseen).2.trans (first.apart k unseen).2⟩

theorem define (twin : Twin seen m m') {k : Nat} (inside : seen k) (name : String) {value : Value}
    (good : value.Within seen) :
    Moves seen m m' { m with store := m.store.define k name value }
      { m' with store := m'.store.define k name value } where
  twin := twin.define name good
  back := rfl
  printed := ⟨#[], by simp⟩
  apart := by
    intro j unseen
    have differs : k ≠ j := fun same => unseen (same ▸ inside)
    rw [Store.frame_define, Store.frame_define, if_neg differs, if_neg differs]
    exact ⟨rfl, rfl⟩

theorem scope (twin : Twin seen m m') {frame : Frame}
    (inner : Moves seen (m.inside frame) (m'.inside frame) n n') :
    Moves seen m m' { n with current := m.current } { n' with current := m'.current } where
  twin :=
    { inner.twin with
      current := twin.current
      inside := twin.inside }
  back := rfl
  printed := inner.printed
  apart := by
    intro k unseen
    have less : k < m.store.size := Nat.lt_of_not_le fun le => unseen (twin.fresh k le)
    have less' : k < m'.store.size := twin.size ▸ less
    obtain ⟨same, same'⟩ := inner.apart k unseen
    simp only [Machine.inside, Store.frame_push, if_neg (Nat.ne_of_lt less),
      if_neg (Nat.ne_of_lt less')] at same same'
    exact ⟨same, same'⟩

end Moves

inductive Alike {α : Type} (seen : Nat → Prop) (p : α → Prop) (m m' : Machine) :
    EStateM.Result Stop Machine α → EStateM.Result Stop Machine α → Prop where
  | ok {a : α} {n n' : Machine} (given : p a) (moves : Moves seen m m' n n') :
      Alike seen p m m' (.ok a n) (.ok a n')
  | error {why : Stop} {n n' : Machine} (moves : Moves seen m m' n n') :
      Alike seen p m m' (.error why n) (.error why n')

def RunsAlike {α : Type} (seen : Nat → Prop) (p : α → Prop) (x y : Eval α) : Prop :=
  ∀ m m', Twin seen m m' → Alike seen p m m' (x m) (y m')

namespace RunsAlike

variable {α β : Type} {seen : Nat → Prop} {p : α → Prop}

theorem bind {q : β → Prop} {x y : Eval α} {f g : α → Eval β} (first : RunsAlike seen p x y)
    (second : ∀ a, p a → RunsAlike seen q (f a) (g a)) :
    RunsAlike seen q (x >>= f) (y >>= g) := by
  intro m m' twin
  have alike := first m m' twin
  simp only [Bind.bind, EStateM.bind]
  generalize x m = r at alike ⊢
  generalize y m' = r' at alike ⊢
  cases alike with
  | error moves => exact .error moves
  | @ok a n n' given moves =>
    have alike' := second a given n n' moves.twin
    simp only
    generalize f a n = r at alike' ⊢
    generalize g a n' = r' at alike' ⊢
    cases alike' with
    | error moves' => exact .error (moves.trans moves')
    | ok given' moves' => exact .ok given' (moves.trans moves')

theorem of_stateless {x : Eval α} (stateless : Stateless p x) : RunsAlike seen p x x := by
  intro m m' twin
  rcases stateless with ⟨a, given, rfl⟩ | ⟨why, rfl⟩
  · exact .ok given (.refl twin)
  · exact .error (.refl twin)

theorem scope (frame : Machine → Frame) {x y : Eval α}
    (same : ∀ m m', Twin seen m m' → frame m' = frame m ∧ (frame m).Within seen)
    (inner : RunsAlike seen p x y) :
    RunsAlike seen p (fun m => Machine.inFrame (frame m) x m)
      fun m => Machine.inFrame (frame m) y m := by
  intro m m' twin
  obtain ⟨eq, within⟩ := same m m' twin
  have alike := inner (m.inside (frame m)) (m'.inside (frame m)) (twin.push within)
  simp only [Machine.inFrame_eq, eq]
  generalize x (m.inside (frame m)) = r at alike ⊢
  generalize y (m'.inside (frame m)) = r' at alike ⊢
  cases alike with
  | ok given moves => exact .ok given (moves.scope twin)
  | error moves => exact .error (moves.scope twin)

end RunsAlike

/-- A host function gives no function of the program but those it was given. -/
def Native.Harmless (f : Native) : Prop :=
  ∀ calls args c, f.apply calls args = .function c → .function c ∈ args

theorem Native.builtins_harmless (seconds : Nat → Float) : ∀ f ∈ builtins seconds, f.Harmless := by
  intro f member calls args c eq
  cases List.mem_singleton.mp member
  cases eq

theorem Value.within_of_not_function {v : Value} (none : ¬ v.IsFunction) (seen : Nat → Prop) :
    v.Within seen := by
  cases v with
  | function c => exact absurd trivial none
  | _ => trivial

section Acts

variable {seen : Nat → Prop}

theorem Stateless.within {x : Eval Value} (stateless : Stateless (¬ ·.IsFunction) x) :
    Stateless (Value.Within seen) x := by
  rcases stateless with ⟨a, given, rfl⟩ | throws
  · exact .inl ⟨a, Value.within_of_not_function given seen, rfl⟩
  · exact .inr throws

theorem lookup_alike (name : Token) :
    RunsAlike seen (Value.Within seen) (Machine.lookup name) (Machine.lookup name) := by
  intro m m' twin
  obtain ⟨same, good⟩ := twin.lookup name.lexeme
  rw [Machine.lookup_eq, Machine.lookup_eq, same]
  cases found : m.store.lookup? name.lexeme m.current with
  | none => exact .error (.refl twin)
  | some value => exact .ok (good value found) (.refl twin)

theorem assign_alike (name : Token) {value : Value} (given : value.Within seen) :
    RunsAlike seen (Value.Within seen) (Machine.assign name value) (Machine.assign name value) := by
  intro m m' twin
  obtain ⟨store', current', functionCount', hostCalls', output'⟩ := m'
  obtain rfl : current' = m.current := twin.current
  obtain ⟨same, inside⟩ := twin.resolve name.lexeme twin.inside
  rw [Machine.assign_eq, Machine.assign_eq, same]
  cases means : m.store.resolve? name.lexeme m.current with
  | none => exact .error (.refl twin)
  | some k => exact .ok given (.define twin (inside k means) name.lexeme given)

theorem define_alike (name : String) {value : Value} (given : value.Within seen) :
    RunsAlike seen (fun _ => True) (Machine.define name value) (Machine.define name value) := by
  intro m m' twin
  obtain ⟨store', current', functionCount', hostCalls', output'⟩ := m'
  obtain rfl : current' = m.current := twin.current
  exact .ok trivial (.define twin twin.inside name given)

theorem print_alike (value : Value) :
    RunsAlike seen (fun _ => True) (Machine.print value) (Machine.print value) := by
  intro m m' twin
  refine .ok trivial ⟨{ twin with }, rfl, ⟨#[value.render], ?_, ?_⟩, fun _ _ => ⟨rfl, rfl⟩⟩
  · simp
  · simp

theorem declare_alike (name : Token) (params : List Token) (body : List Stmt) :
    RunsAlike seen (fun _ => True) (Machine.declare name params body)
      (Machine.declare name params body) := by
  intro m m' twin
  obtain ⟨store', current', functionCount', hostCalls', output'⟩ := m'
  obtain rfl : current' = m.current := twin.current
  obtain rfl : functionCount' = m.functionCount := twin.functions
  have good : (Value.function ⟨m.functionCount, name, params, body, m.current⟩).Within seen :=
    twin.inside
  have moves := Moves.define twin twin.inside name.lexeme good
  exact .ok trivial ⟨{ moves.twin with functions := rfl }, rfl, moves.printed, moves.apart⟩

theorem callNative_alike {natives : List Native} (harmless : ∀ f ∈ natives, f.Harmless)
    (ref : NativeRef) {args : List Value} (given : ∀ v ∈ args, v.Within seen) :
    RunsAlike seen (Value.Within seen) (Machine.callNative natives ref args)
      (Machine.callNative natives ref args) := by
  intro m m' twin
  rw [Machine.callNative_eq, Machine.callNative_eq, twin.calls]
  cases host : natives[ref.slot]? with
  | none => exact .error (.refl twin)
  | some f =>
    have good : (f.apply m.hostCalls args).Within seen := by
      cases eq : f.apply m.hostCalls args with
      | function c =>
        exact given _ (harmless f (List.mem_of_getElem? host) m.hostCalls args c eq)
      | _ => trivial
    exact .ok good ⟨{ twin with calls := rfl }, rfl, ⟨#[], by simp⟩, fun _ _ => ⟨rfl, rfl⟩⟩

end Acts

/-- Whatever is run, it runs alike on twins. -/
theorem runsAlike_related {natives : List Native} (harmless : ∀ f ∈ natives, f.Harmless)
    (seen : Nat → Prop) :
    Runner.Related (Runner.machine natives) (Runner.machine natives) (Value.Within seen)
      fun _ _ p x y => RunsAlike seen p x y where
  pure given _ _ twin := .ok given (.refl twin)
  bind first second := first.bind second
  weaken alike := alike
  literal l := by cases l <;> trivial
  stop _ _ _ twin := .error (.refl twin)
  act x given := by
    cases x with
    | unary op v => exact .of_stateless (unaryValue_stateless op v).within
    | binary op v w => exact .of_stateless (binaryValue_stateless op v w).within
    | checkCount paren expected count =>
      exact .of_stateless (checkCount_stateless paren expected count)
    | lookup name => exact lookup_alike name
    | assign name value => exact assign_alike name given
    | define name value => exact define_alike name given
    | print value => exact print_alike value
    | declare name params body => exact declare_alike name params body
    | native ref args => exact callNative_alike harmless ref given
  block inner := by
    refine .scope (fun m => ⟨[], some m.current⟩) ?_ inner
    intro m m' twin
    rw [twin.current]
    refine ⟨rfl, ?_, nofun⟩
    rintro outer ⟨⟩
    exact twin.inside
  enter := by
    intro f args x y captured given inner
    exact .scope (fun _ => f.callFrame args)
      (fun _ _ _ => ⟨rfl, f.callFrame_within captured given⟩) inner

def outcome {α : Type} : EStateM.Result Stop Machine α → Except Stop α
  | .ok a _ => .ok a
  | .error why _ => .error why

/-- The frames that code run on a machine can come to, the present ones. -/
def Machine.Sees (m : Machine) (k : Nat) : Prop := m.store.Reaches m.current k

/-- The same machine but for its lines and for frames that cannot be come to. -/
structure Machine.SameView (m m' : Machine) : Prop where
  current : m'.current = m.current
  size : m'.store.size = m.store.size
  functions : m'.functionCount = m.functionCount
  calls : m'.hostCalls = m.hostCalls
  frames : ∀ k, m.Sees k → m'.store.frame? k = m.store.frame? k

/-- Code that leaves alone what it cannot come to, and does not depend on it. -/
structure Noninterfering {α : Type} (x : Eval α) : Prop where
  untouched : ∀ m k, k < m.store.size → ¬ m.Sees k →
    (final x m).store.frame? k = m.store.frame? k
  independent : ∀ m m' : Machine, m.SameView m' →
    outcome (x m') = outcome (x m) ∧
    (∃ lines, (final x m).output = m.output ++ lines ∧ (final x m').output = m'.output ++ lines) ∧
    ∀ k, m.Sees k ∨ m.store.size ≤ k →
      (final x m').store.frame? k = (final x m).store.frame? k

theorem Store.Reaches.within {s : Store} {start k : Nat} {f : Frame} (reaches : s.Reaches start k)
    (found : s.frame? k = some f) {seen : Nat → Prop} (all : ∀ j, s.Reaches start j → seen j) :
    f.Within seen where
  link outer out := all outer (reaches.step (.link found out))
  values := by
    rintro ⟨name, value⟩ bound
    cases value with
    | function c => exact all c.frame (reaches.step (.capture found bound rfl))
    | _ => trivial

theorem Machine.SameView.twin {m m' : Machine} (same : m.SameView m') :
    Twin (fun k => m.Sees k ∨ m.store.size ≤ k) m m' where
  current := same.current
  size := same.size
  functions := same.functions
  calls := same.calls
  inside := .inl .start
  fresh _ le := .inr le
  frames := by
    rintro k (sees | le)
    · exact same.frames k sees
    · have none : m.store.frame? k = none := by
        rw [← Option.not_isSome_iff_eq_none, Store.frame_isSome_iff]
        exact Nat.not_lt_of_le le
      rw [none, ← Option.not_isSome_iff_eq_none, Store.frame_isSome_iff, same.size]
      exact Nat.not_lt_of_le le
  closed := by
    rintro k f (sees | le) found
    · exact sees.within found fun _ => .inl
    · exact absurd (Store.lt_size_of_frame found) (Nat.not_lt_of_le le)

theorem Alike.outcome {α : Type} {seen : Nat → Prop} {p : α → Prop} {m m' : Machine} {x : Eval α}
    (alike : Alike seen p m m' (x m) (x m')) :
    outcome (x m') = outcome (x m) ∧ Moves seen m m' (final x m) (final x m') := by
  unfold final
  generalize x m = r at alike ⊢
  generalize x m' = r' at alike ⊢
  cases alike with
  | ok given moves => exact ⟨rfl, moves⟩
  | error moves => exact ⟨rfl, moves⟩

theorem noninterfering_of_runsAlike {α : Type} {x : Eval α}
    (alike : ∀ seen, ∃ p, RunsAlike seen p x x) : Noninterfering x where
  untouched := by
    intro m k less unseen
    obtain ⟨p, runs⟩ := alike fun k => m.Sees k ∨ m.store.size ≤ k
    have same : m.SameView m := ⟨rfl, rfl, rfl, rfl, fun _ _ => rfl⟩
    obtain ⟨-, moves⟩ := (runs m m same.twin).outcome
    refine (moves.apart k ?_).1
    rintro (sees | le)
    · exact unseen sees
    · exact Nat.not_le_of_lt less le
  independent := by
    intro m m' same
    obtain ⟨p, runs⟩ := alike fun k => m.Sees k ∨ m.store.size ≤ k
    obtain ⟨ends, moves⟩ := (runs m m' same.twin).outcome
    exact ⟨ends, moves.printed, moves.twin.frames⟩

/-- With host functions that bring in no functions, neither expressions nor statements touch frames
that cannot be come to from the current one, or depend on them. And two counters of one generator
count as two numbers do, though each can come to the other's frame through the global one. -/
theorem closures_do_not_interfere {natives : List Native} (harmless : ∀ f ∈ natives, f.Harmless) :
    (∀ fuel e, Noninterfering (evaluate natives fuel e)) ∧
    (∀ fuel s, Noninterfering (execute natives fuel s)) ∧
    ∀ fuel paren line (g : Closure) (m : Machine) (calls : List Bool), g.params = [] →
      g.body = Counter.generator line →
      ∃ n, (do
        let a ← call natives (fuel + 6) paren (.function g) []
        let b ← call natives (fuel + 6) paren (.function g) []
        Counter.callEach natives (fuel + 6) paren a b calls : Eval (List Value)) m =
          .ok ((Counter.tally calls 0 0).map .number) n := by
  refine ⟨?_, ?_, ?_⟩
  · intro fuel e
    apply noninterfering_of_runsAlike
    intro seen
    rw [← (Runner.isEvaluator natives fuel).evaluate]
    exact ⟨_, ((runsAlike_related harmless seen).runs fuel).evaluate e⟩
  · intro fuel s
    apply noninterfering_of_runsAlike
    intro seen
    rw [← (Runner.isEvaluator natives fuel).execute]
    exact ⟨_, ((runsAlike_related harmless seen).runs fuel).execute s⟩
  · intro fuel paren line g m calls params code
    exact Counter.counters_apart natives fuel paren params code m calls

/-- Assigning to a global does nothing to a frame that no function captured, nor depends on it. -/
theorem closures_do_not_interfere_assign :
    let code := execute Native.standard 3
      (.expression (.assign ⟨.identifier, "x", 1⟩ (.literal (.bool true))))
    let machine (hidden : Value) : Machine :=
      ⟨⟨#[⟨[("x", .nil)], none⟩, ⟨[("x", hidden)], some 0⟩]⟩, 0, 0, 0, #[]⟩
    (∀ f ∈ Native.standard, f.Harmless) ∧
      (final code (machine .nil)).store.frame? 1 = (machine .nil).store.frame? 1 ∧
      outcome (code (machine (.bool false))) = outcome (code (machine .nil)) := by
  intro code machine
  have harmless : ∀ f ∈ Native.standard, f.Harmless := Native.builtins_harmless _
  have sees : ∀ k, (machine .nil).Sees k → k = 0 := by
    intro k reaches
    induction reaches with
    | start => rfl
    | step earlier edge ih =>
      subst ih
      cases edge with
      | link found out => cases found; cases out
      | capture found bound =>
        cases found
        cases List.mem_singleton.mp bound
  have view : (machine .nil).SameView (machine (.bool false)) := by
    refine ⟨rfl, rfl, rfl, rfl, ?_⟩
    intro k seen
    cases sees k seen
    rfl
  have apart := (closures_do_not_interfere harmless).2.1 3
    (.expression (.assign ⟨.identifier, "x", 1⟩ (.literal (.bool true))))
  refine ⟨harmless, ?_, (apart.independent _ _ view).1⟩
  exact apart.untouched _ 1 (by decide) fun seen => absurd (sees 1 seen) (by decide)

end Lox
