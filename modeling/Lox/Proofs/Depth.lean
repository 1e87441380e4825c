import Lox.Proofs.Environments
import Lox.Proofs.Noninterference
import Lox.Proofs.Scopes

/- How far frames lie from the outermost one. A call opens its frame inside the one that its function
   captured and not inside that of its caller, so ways outwards are no longer than blocks and function
   bodies are nested in the text, however many calls are active. -/
namespace Lox

mutual
/-- How deep blocks and function bodies are nested in the statement. -/
def Stmt.depth : Stmt → Nat
  | .block body => Stmt.depthOf body + 1
  | .ifThen _ s => s.depth
  | .ifElse _ s t => max s.depth t.depth
  | .loop _ s => s.depth
  | .function _ _ body => Stmt.depthOf body + 1
  | .expression _ | .print _ | .declare _ _ | .return_ _ _ => 0
def Stmt.depthOf : List Stmt → Nat
  | [] => 0
  | s :: ss => max s.depth (Stmt.depthOf ss)
end

/-- Inside frame `i` there is room for `depth` frames more, one inside the other, when no way outwards
may be longer than `bound`. -/
def Store.Room (s : Store) (bound i depth : Nat) : Prop :=
  ∃ path, s.Outwards i path ∧ path.length + depth ≤ bound

def Value.Fits (s : Store) (bound : Nat) : Value → Prop
  | .function f => s.Room bound f.frame (Stmt.depthOf f.body + 1)
  | _ => True

structure Store.Fits (s : Store) (bound : Nat) : Prop where
  ways : ∀ i f, s.frame? i = some f → s.Room bound i 0
  values : ∀ i f, s.frame? i = some f → ∀ binding ∈ f.bindings, binding.2.Fits s bound

structure Machine.Fits (m : Machine) (bound : Nat) : Prop where
  store : m.store.Fits bound
  current : m.current < m.store.size

abbrev Store.Later (s t : Store) : Prop := s.Grows t fun _ => True

section Stores

variable {s t : Store} {bound i depth : Nat}

theorem Store.Outwards.later {path : List Nat} (way : s.Outwards i path) (later : s.Later t) :
    t.Outwards i path := by
  refine way.of_links fun j f found => ?_
  obtain ⟨g, found', link, -⟩ := later j f found
  exact ⟨g, found', link⟩

theorem Store.Later.trans {u : Store} (first : s.Later t) (second : t.Later u) : s.Later u :=
  Store.Grows.trans first second fun _ _ _ => trivial

theorem Store.later_define (s : Store) (k : Nat) (name : String) (value : Value) :
    s.Later (s.define k name value) :=
  (Store.Grows.define s k name value).mono fun _ _ _ => trivial

namespace Store.Room

theorem later (room : s.Room bound i depth) (later : s.Later t) : t.Room bound i depth := by
  obtain ⟨path, way, le⟩ := room
  exact ⟨path, way.later later, le⟩

theorem less {depth' : Nat} (room : s.Room bound i depth) (le : depth' ≤ depth) :
    s.Room bound i depth' := by
  obtain ⟨path, way, within⟩ := room
  exact ⟨path, way, Nat.le_trans (Nat.add_le_add_left le _) within⟩

theorem wider {bound' : Nat} (room : s.Room bound i depth) (le : bound ≤ bound') :
    s.Room bound' i depth := by
  obtain ⟨path, way, within⟩ := room
  exact ⟨path, way, Nat.le_trans within le⟩

theorem there (room : s.Room bound i depth) : i < s.size := by
  obtain ⟨path, way, -⟩ := room
  obtain ⟨f, found⟩ := way.frame
  exact lt_size_of_frame found

theorem open_ {frame : Frame} {outer : Nat} (room : s.Room bound outer (depth + 1))
    (out : frame.enclosing = some outer) : (s.push frame).Room bound s.size depth := by
  obtain ⟨path, way, le⟩ := room
  have found : (s.push frame).frame? s.size = some frame := by rw [frame_push, if_pos rfl]
  refine ⟨s.size :: path, .inside found out (way.later (.push s frame _)), ?_⟩
  rw [List.length_cons]
  omega

end Store.Room

theorem Value.fits_of_not_function {v : Value} (none : ¬ v.IsFunction) (s : Store) (bound : Nat) :
    v.Fits s bound := by
  cases v with
  | function f => exact absurd trivial none
  | _ => trivial

theorem Value.Fits.later {v : Value} (fits : v.Fits s bound) (later : s.Later t) :
    v.Fits t bound := by
  cases v with
  | function f => exact Store.Room.later fits later
  | _ => trivial

theorem Value.Fits.wider {bound' : Nat} {v : Value} (fits : v.Fits s bound) (le : bound ≤ bound') :
    v.Fits s bound' := by
  cases v with
  | function f => exact Store.Room.wider fits le
  | _ => trivial

namespace Store.Fits

variable (fits : s.Fits bound)
include fits

theorem wider {bound' : Nat} (le : bound ≤ bound') : s.Fits bound' where
  ways i f found := (fits.ways i f found).wider le
  values i f found binding member := (fits.values i f found binding member).wider le

theorem define (k : Nat) (name : String) {value : Value} (good : value.Fits s bound) :
    (s.define k name value).Fits bound := by
  have later := s.later_define k name value
  constructor
  · intro i f found
    have there : i < s.size := by
      rw [← size_define s k name value]
      exact lt_size_of_frame found
    obtain ⟨g, found'⟩ := exists_frame there
    exact (fits.ways i g found').later later
  · intro i f found binding member
    rw [frame_define] at found
    split at found
    · obtain ⟨g, found', rfl⟩ := Option.map_eq_some_iff.mp found
      rcases mem_bindName member with rfl | member
      · exact good.later later
      · exact (fits.values i g found' binding member).later later
    · exact (fits.values i f found binding member).later later

theorem push {frame : Frame} (room : (s.push frame).Room bound s.size 0)
    (good : ∀ binding ∈ frame.bindings, binding.2.Fits s bound) : (s.push frame).Fits bound := by
  have later : s.Later (s.push frame) := .push s frame _
  constructor
  · intro i f found
    rw [frame_push] at found
    split at found
    · rename_i last
      exact last ▸ room
    · exact (fits.ways i f found).later later
  · intro i f found binding member
    rw [frame_push] at found
    split at found
    · cases found
      exact (good binding member).later later
    · exact (fits.values i f found binding member).later later

theorem lookup {name : String} {value : Value} (found : s.lookup? name i = some value) :
    value.Fits s bound := by
  obtain ⟨k, -, found⟩ := Option.bind_eq_some_iff.mp found
  obtain ⟨f, frame, bound⟩ := Option.bind_eq_some_iff.mp found
  exact fits.values k f frame (name, value) (mem_of_lookup bound)

end Store.Fits

theorem Machine.Fits.wider {m : Machine} {bound' : Nat} (fits : m.Fits bound) (le : bound ≤ bound') :
    m.Fits bound' :=
  ⟨fits.store.wider le, fits.current⟩

theorem Machine.start_fits (natives : List Native) : (Machine.start natives).Fits 1 := by
  have along : ∀ (fs : List (Native × Nat)) (s : Store), s.Fits 1 →
      (fs.foldl (fun s f => s.define globals f.1.name (.native (f.1.ref f.2))) s).Fits 1 := by
    intro fs
    induction fs with
    | nil => exact fun _ fits => fits
    | cons f fs ih => exact fun s fits => ih _ (fits.define globals f.1.name trivial)
  have first : (Store.empty.push ⟨[], none⟩).Fits 1 := by
    have only {i : Nat} {f : Frame} (found : (Store.empty.push ⟨[], none⟩).frame? i = some f) :
        i = 0 ∧ f = ⟨[], none⟩ := by
      rw [Store.frame_push] at found
      split at found
      · rename_i first
        exact ⟨first, (Option.some.inj found).symm⟩
      · simp [Store.empty, Store.frame?] at found
    constructor
    · intro i f found
      obtain ⟨rfl, rfl⟩ := only found
      exact ⟨[0], .root found rfl, Nat.le_refl 1⟩
    · intro i f found
      obtain ⟨rfl, rfl⟩ := only found
      exact List.forall_mem_nil _
  have rest := (Log.atRest_start natives).ordered.sound _ List.mem_cons_self
  exact ⟨along natives.zipIdx _ first, rest.exists_⟩

end Stores

def Act.depth {α : Type} : Act α → Nat
  | .declare _ _ body => Stmt.depthOf body + 1
  | _ => 0

section Acts

variable {α : Type} {natives : List Native} {m : Machine} {bound : Nat}

inductive FitEnd (bound : Nat) (s : Shape α) : EStateM.Result Stop Machine α → Prop where
  | ok {a : α} {n : Machine} (fits : n.Fits bound) (good : s.Good (Value.Fits n.store bound) a) :
      FitEnd bound s (.ok a n)
  | error {why : Stop} {n : Machine} (fits : n.Fits bound) : FitEnd bound s (.error why n)

theorem FitEnd.of_stateless {x : Eval Value} (stateless : Stateless (¬ ·.IsFunction) x)
    (fits : m.Fits bound) : FitEnd bound .value (x m) := by
  rcases stateless with ⟨v, none, rfl⟩ | ⟨why, rfl⟩
  · exact .ok fits (Value.fits_of_not_function none m.store bound)
  · exact .error fits

theorem Act.fits (harmless : ∀ f ∈ natives, f.Harmless) (x : Act α) (fits : m.Fits bound)
    (room : m.store.Room bound m.current x.depth)
    (given : x.Given (Value.Fits m.store bound)) :
    FitEnd bound x.shape (x.perform natives m) := by
  have bind (k : Nat) (name : String) {v : Value} (good : v.Fits m.store bound) :
      (m.store.define k name v).Fits bound ∧ m.current < (m.store.define k name v).size :=
    ⟨fits.store.define k name good, by simpa using fits.current⟩
  cases x with
  | unary op v => exact .of_stateless (unaryValue_stateless op v) fits
  | binary op v w => exact .of_stateless (binaryValue_stateless op v w) fits
  | checkCount paren expected count =>
    rw [Act.perform, Lox.checkCount]
    split
    · exact .ok fits trivial
    · exact .error fits
  | lookup name =>
    rw [Act.perform, Machine.lookup_eq]
    cases found : m.store.lookup? name.lexeme m.current with
    | none => exact .error fits
    | some value => exact .ok fits (fits.store.lookup found)
  | assign name value =>
    rw [Act.perform, Machine.assign_eq]
    cases m.store.resolve? name.lexeme m.current with
    | none => exact .error fits
    | some k =>
      obtain ⟨store, current⟩ := bind k name.lexeme given
      exact .ok ⟨store, current⟩ (Value.Fits.later given (m.store.later_define _ _ _))
  | define name value =>
    obtain ⟨store, current⟩ := bind m.current name given
    exact .ok ⟨store, current⟩ trivial
  | print value => exact .ok ⟨fits.store, fits.current⟩ trivial
  | declare name params body =>
    -- The function captures the current frame, where there is room for its body.
    have good : (Value.function ⟨m.functionCount, name, params, body, m.current⟩).Fits m.store
        bound := room
    obtain ⟨store, current⟩ := bind m.current name.lexeme good
    exact .ok ⟨store, current⟩ trivial
  | native ref args =>
    rw [Act.perform, Machine.callNative_eq]
    cases host : natives[ref.slot]? with
    | none => exact .error fits
    | some f =>
      refine .ok ⟨fits.store, fits.current⟩ ?_
      cases gives : f.apply m.hostCalls args with
      | function c => exact given _ (harmless f (List.mem_of_getElem? host) _ _ c gives)
      | _ => trivial

end Acts

namespace Log

def Fits (l : Log) (bound : Nat) : Prop := ∀ a ∈ l.now :: l.past, a.machine.Fits bound

structure Onward (bound : Nat) (l l' : Log) : Prop where
  fits : l'.Fits bound
  back : l'.now.machine.current = l.now.machine.current
  later : l.now.machine.store.Later l'.now.machine.store

inductive Keeps {α : Type} (bound : Nat) (l : Log) (s : Shape α) :
    EStateM.Result Stop Log α → Prop where
  | ok {a : α} {l' : Log} (onward : l.Onward bound l')
      (good : s.Good (Value.Fits l'.now.machine.store bound) a) : Keeps bound l s (.ok a l')
  | error {why : Stop} {l' : Log} (onward : l.Onward bound l') : Keeps bound l s (.error why l')

/-- Code that keeps to the bound from wherever there is room for its depth, once the store has come as
far as `t`. -/
def Deep {α : Type} (bound : Nat) (t : Store) (depth : Nat) (s : Shape α) (x : Recorded α) : Prop :=
  ∀ l : Log, l.Fits bound → t.Later l.now.machine.store →
    l.now.machine.store.Room bound l.now.machine.current depth → l.Keeps bound s (x l)

variable {α β : Type} {bound depth : Nat} {t : Store} {l l' l'' : Log}

theorem Fits.now (fits : l.Fits bound) : l.now.machine.Fits bound := fits l.now List.mem_cons_self

theorem Fits.note (fits : l.Fits bound) {next : Moment} (good : next.machine.Fits bound) :
    (l.note next).Fits bound := by
  intro a member
  rcases List.mem_cons.mp member with rfl | member
  · exact good
  · exact fits a member

theorem Fits.wider {bound' : Nat} (fits : l.Fits bound) (le : bound ≤ bound') : l.Fits bound' :=
  fun a member => (fits a member).wider le

theorem Onward.refl (fits : l.Fits bound) : l.Onward bound l := ⟨fits, rfl, .refl _ _⟩

theorem Onward.trans (first : l.Onward bound l') (second : l'.Onward bound l'') :
    l.Onward bound l'' :=
  ⟨second.fits, second.back.trans first.back, first.later.trans second.later⟩

theorem Onward.room (onward : l.Onward bound l')
    (room : l.now.machine.store.Room bound l.now.machine.current depth) :
    l'.now.machine.store.Room bound l'.now.machine.current depth := by
  rw [onward.back]
  exact room.later onward.later

theorem Keeps.of_onward {s : Shape α} {r : EStateM.Result Stop Log α} (onward : l.Onward bound l')
    (keeps : l'.Keeps bound s r) : l.Keeps bound s r := by
  cases keeps with
  | ok onward' good => exact .ok (onward.trans onward') good
  | error onward' => exact .error (onward.trans onward')

namespace Deep

variable {s : Shape α} {s' : Shape β} {x : Recorded α}

theorem pure {a : α} (good : s.Good (Value.Fits t bound) a) :
    Deep bound t depth s (Pure.pure a) := by
  intro l fits later _
  refine .ok (.refl fits) ?_
  cases s with
  | unit => trivial
  | value => exact Value.Fits.later good later
  | values => exact fun v member => Value.Fits.later (good v member) later
  | completion =>
    cases a with
    | normal => trivial
    | returned v => exact Value.Fits.later good later

theorem throw (why : Stop) : Deep bound t depth s (throw why) :=
  fun _ fits _ _ => .error (.refl fits)

theorem bind {f : α → Recorded β} (first : Deep bound t depth s x)
    (second : ∀ u a, t.Later u → s.Good (Value.Fits u bound) a → Deep bound u depth s' (f a)) :
    Deep bound t depth s' (x >>= f) := by
  intro l fits later room
  have keeps := first l fits later room
  simp only [Bind.bind, EStateM.bind]
  generalize x l = r at keeps ⊢
  cases keeps with
  | ok onward good =>
    have next := second _ _ (later.trans onward.later) good
    exact .of_onward onward (next _ onward.fits (.refl _ _) (onward.room room))
  | error onward => exact .error onward

theorem less {depth' : Nat} (deep : Deep bound t depth s x) (le : depth ≤ depth') :
    Deep bound t depth' s x :=
  fun l fits later room => deep l fits later (room.less le)

theorem act {natives : List Native} (harmless : ∀ f ∈ natives, f.Harmless) (x : Act α)
    (given : x.Given (Value.Fits t bound)) :
    Deep bound t x.depth x.shape ((Runner.recording natives).act x) := by
  intro l fits later room
  have given' : x.Given (Value.Fits l.now.machine.store bound) := by
    cases x with
    | unary | assign | define | print => exact Value.Fits.later given later
    | binary => exact ⟨Value.Fits.later given.1 later, Value.Fits.later given.2 later⟩
    | native => exact fun v member => Value.Fits.later (given v member) later
    | _ => trivial
  have ends := x.fits harmless fits.now room given'
  obtain ⟨back, grows⟩ := (x.effect natives l.now.machine).grows
  have later' := grows.mono fun _ _ _ => trivial
  simp only [Runner.recording, perform]
  unfold final at back later'
  generalize x.perform natives l.now.machine = r at ends back later' ⊢
  cases ends with
  | ok fits' good => exact .ok ⟨fits.note fits', back, later'⟩ good
  | error fits' => exact .error ⟨fits.note fits', back, later'⟩

theorem scope {inner : Nat} (frame : Machine → Frame)
    (opens : ∀ m : Machine, t.Later m.store → m.store.Room bound m.current depth →
      (∃ outer, (frame m).enclosing = some outer ∧ m.store.Room bound outer (inner + 1)) ∧
        ∀ binding ∈ (frame m).bindings, binding.2.Fits m.store bound)
    (body : Deep bound t inner s x) :
    Deep bound t depth s fun l => Log.scope (frame l.now.machine) x l := by
  intro l fits later room
  obtain ⟨⟨outer, out, roomy⟩, given⟩ := opens l.now.machine later room
  have opened := roomy.open_ out
  have entered : (l.now.machine.inside (frame l.now.machine)).Fits bound :=
    ⟨fits.now.store.push (opened.less (Nat.zero_le _)) given, opened.there⟩
  have keeps := body (l.note { l.now with machine := l.now.machine.inside (frame l.now.machine) })
    (fits.note entered) (later.trans (.push _ _ _)) opened
  unfold Log.scope
  simp only
  generalize x _ = r at keeps ⊢
  have leaves {l' : Log} (onward : Onward bound
      (l.note { l.now with machine := l.now.machine.inside (frame l.now.machine) }) l') :
      l.Onward bound (l'.leave l.now.machine.current l.now.machine.store.size) := by
    have later' : l.now.machine.store.Later l'.now.machine.store :=
      Store.Later.trans (.push _ _ _) onward.later
    -- The frame gone back to was there on the way in, and no frame is lost.
    refine ⟨onward.fits.note ⟨onward.fits.now.store, ?_⟩, rfl, later'⟩
    exact Nat.lt_of_lt_of_le room.there later'.size_le
  cases keeps with
  | ok onward good => exact .ok (leaves onward) good
  | error onward => exact .error (leaves onward)

end Deep

end Log

section Runs

open Log

structure DeepRuns (natives : List Native) (bound fuel : Nat) : Prop where
  evaluate : ∀ t e, Deep bound t 0 .value ((Runner.recording natives).evaluate fuel e)
  evaluateAll : ∀ t es, Deep bound t 0 .values ((Runner.recording natives).evaluateAll fuel es)
  call : ∀ t paren f args, f.Fits t bound → (∀ v ∈ args, v.Fits t bound) →
    Deep bound t 0 .value ((Runner.recording natives).call fuel paren f args)
  execute : ∀ t s, Deep bound t s.depth .completion ((Runner.recording natives).execute fuel s)
  executeAll : ∀ t ss, Deep bound t (Stmt.depthOf ss) .completion
    ((Runner.recording natives).executeAll fuel ss)

namespace DeepRuns

variable {natives : List Native} {bound fuel : Nat} (ih : DeepRuns natives bound fuel) (t : Store)
include ih

theorem evaluateAll_succ (es : List Expr) :
    Deep bound t 0 .values ((Runner.recording natives).evaluateAll (fuel + 1) es) := by
  cases es with
  | nil =>
    rw [Runner.evaluateAll]
    exact .pure (List.forall_mem_nil _)
  | cons e es =>
    rw [Runner.evaluateAll]
    refine (ih.evaluate t e).bind fun u v _ given => ?_
    refine (ih.evaluateAll u es).bind fun u' vs later given' => ?_
    exact .pure (List.forall_mem_cons.mpr ⟨Value.Fits.later given later, given'⟩)

theorem executeAll_succ (ss : List Stmt) :
    Deep bound t (Stmt.depthOf ss) .completion
      ((Runner.recording natives).executeAll (fuel + 1) ss) := by
  cases ss with
  | nil =>
    rw [Runner.executeAll]
    exact .pure trivial
  | cons s ss =>
    rw [Runner.executeAll]
    refine ((ih.execute t s).less (Nat.le_max_left _ _)).bind fun u completion _ given => ?_
    cases completion with
    | normal => exact (ih.executeAll u ss).less (Nat.le_max_right _ _)
    | returned v => exact .pure given

variable (harmless : ∀ f ∈ natives, f.Harmless)
include harmless

theorem evaluate_succ (e : Expr) :
    Deep bound t 0 .value ((Runner.recording natives).evaluate (fuel + 1) e) := by
  cases e with
  | literal l =>
    rw [Runner.evaluate]
    exact .pure (by cases l <;> trivial)
  | grouping e =>
    rw [Runner.evaluate]
    exact ih.evaluate t e
  | unary op e =>
    rw [Runner.evaluate]
    exact (ih.evaluate t e).bind fun u v _ given => .act harmless (.unary op v) given
  | binary a op b =>
    rw [Runner.evaluate]
    refine (ih.evaluate t a).bind fun u left _ given => ?_
    refine (ih.evaluate u b).bind fun u' right later given' => ?_
    exact .act harmless (.binary op left right) ⟨Value.Fits.later given later, given'⟩
  | logical a op b =>
    rw [Runner.evaluate]
    refine (ih.evaluate t a).bind fun u left _ given => ?_
    split
    · exact .pure given
    · exact ih.evaluate u b
  | reference name =>
    rw [Runner.evaluate]
    exact .act harmless (.lookup name) trivial
  | assign name e =>
    rw [Runner.evaluate]
    exact (ih.evaluate t e).bind fun u v _ given => .act harmless (.assign name v) given
  | call f paren args =>
    rw [Runner.evaluate]
    refine (ih.evaluate t f).bind fun u callee _ given => ?_
    refine (ih.evaluateAll u args).bind fun u' values later given' => ?_
    exact ih.call u' paren callee values (Value.Fits.later given later) given'

/-- The frame of a call lies in the captured frame, where there is room for it and for the body. -/
theorem call_succ (paren : Token) (f : Value) (args : List Value) (callee : f.Fits t bound)
    (given : ∀ v ∈ args, v.Fits t bound) :
    Deep bound t 0 .value ((Runner.recording natives).call (fuel + 1) paren f args) := by
  cases f with
  | native ref =>
    rw [Runner.call]
    refine .bind (.act harmless (.checkCount paren ref.arity args.length) trivial)
      fun u _ later _ => ?_
    exact .act harmless (.native ref args) fun v member => (given v member).later later
  | function f =>
    rw [Runner.call]
    refine .bind (.act harmless (.checkCount paren f.params.length args.length) trivial)
      fun u _ later _ => ?_
    have opens (m : Machine) (later' : u.Later m.store) :
        (∃ outer, (f.callFrame args).enclosing = some outer ∧
            m.store.Room bound outer (Stmt.depthOf f.body + 1)) ∧
          ∀ binding ∈ (f.callFrame args).bindings, binding.2.Fits m.store bound := by
      have whole := later.trans later'
      refine ⟨⟨f.frame, rfl, Store.Room.later callee whole⟩, ?_⟩
      exact f.callFrame_values fun v member => (given v member).later whole
    have body : Deep bound u 0 .completion fun l =>
        Log.scope (f.callFrame args) ((Runner.recording natives).executeAll fuel f.body) l :=
      .scope (fun _ => f.callFrame args) (fun m later' _ => opens m later') (ih.executeAll u f.body)
    refine Deep.bind body fun u' completion _ given' => .pure ?_
    cases completion with
    | normal => exact trivial
    | returned v => exact given'
  | _ =>
    simp only [Runner.call]
    exact .throw _

theorem execute_succ (s : Stmt) :
    Deep bound t s.depth .completion ((Runner.recording natives).execute (fuel + 1) s) := by
  have normal (u : Store) (depth : Nat) :
      Deep bound u depth .completion (Pure.pure .normal : Recorded Completion) := .pure trivial
  cases s with
  | expression e =>
    rw [Runner.execute]
    exact (ih.evaluate t e).bind fun u _ _ _ => normal u 0
  | print e =>
    rw [Runner.execute]
    refine (ih.evaluate t e).bind fun u v _ given => ?_
    exact (Deep.act harmless (.print v) given).bind fun u' _ _ _ => normal u' 0
  | declare name value =>
    cases value with
    | none =>
      rw [Runner.execute]
      exact (Deep.act harmless (.define name.lexeme .nil) trivial).bind fun u _ _ _ => normal u 0
    | some e =>
      rw [Runner.execute]
      refine (ih.evaluate t e).bind fun u v _ given => ?_
      exact (Deep.act harmless (.define name.lexeme v) given).bind fun u' _ _ _ => normal u' 0
  | block body =>
    rw [Runner.execute]
    refine Deep.scope (fun m => ⟨[], some m.current⟩) (fun m _ room => ?_) (ih.executeAll t body)
    exact ⟨⟨m.current, rfl, room⟩, List.forall_mem_nil _⟩
  | ifThen c s =>
    rw [Runner.execute]
    refine ((ih.evaluate t c).less (Nat.zero_le _)).bind fun u v _ _ => ?_
    split
    · exact ih.execute u s
    · exact normal u _
  | ifElse c s s' =>
    rw [Runner.execute]
    refine ((ih.evaluate t c).less (Nat.zero_le _)).bind fun u v _ _ => ?_
    split
    · exact (ih.execute u s).less (Nat.le_max_left _ _)
    · exact (ih.execute u s').less (Nat.le_max_right _ _)
  | loop c s =>
    rw [Runner.execute]
    refine ((ih.evaluate t c).less (Nat.zero_le _)).bind fun u v _ _ => ?_
    split
    · refine Deep.bind (ih.execute u s) fun u' completion _ given => ?_
      cases completion with
      | normal => exact ih.execute u' (.loop c s)
      | returned v => exact .pure given
    · exact normal u _
  | function name params body =>
    rw [Runner.execute]
    exact (Deep.act harmless (.declare name params body) trivial).bind fun u _ _ _ => normal u _
  | return_ keyword value =>
    cases value with
    | none =>
      rw [Runner.execute]
      exact .pure trivial
    | some e =>
      rw [Runner.execute]
      exact (ih.evaluate t e).bind fun u v _ given => .pure given

end DeepRuns

theorem deepRuns {natives : List Native} (harmless : ∀ f ∈ natives, f.Harmless) (bound fuel : Nat) :
    DeepRuns natives bound fuel := by
  induction fuel with
  | zero =>
    constructor
    · intro t e; rw [Runner.evaluate]; exact .throw _
    · intro t es; rw [Runner.evaluateAll]; exact .throw _
    · intro t paren f args _ _; rw [Runner.call]; exact .throw _
    · intro t s; rw [Runner.execute]; exact .throw _
    · intro t ss; rw [Runner.executeAll]; exact .throw _
  | succ fuel ih =>
    exact ⟨fun t => ih.evaluate_succ t harmless, ih.evaluateAll_succ,
      fun t => ih.call_succ t harmless, fun t => ih.execute_succ t harmless, ih.executeAll_succ⟩

theorem interpret_deep {natives : List Native} (harmless : ∀ f ∈ natives, f.Harmless)
    (bound fuel : Nat) (t : Store) (ss : List Stmt) :
    Deep bound t (Stmt.depthOf ss) .unit ((Runner.recording natives).interpret fuel ss) := by
  induction ss generalizing t with
  | nil => exact .pure trivial
  | cons s ss ih =>
    rw [Runner.interpret]
    have first := ((deepRuns harmless bound fuel).execute t s).less
      (Nat.le_max_left s.depth (Stmt.depthOf ss))
    exact first.bind fun u _ _ _ => (ih u).less (Nat.le_max_right _ _)

end Runs
end Lox
