import Lox.Proofs.Frames

/- Counters made by one generator. Each call of the generator has a frame of its own for the count,
   and a counter changes that frame only; so two of them count as two numbers do, in whatever order
   they are called. -/
namespace Lox.Counter

def name (text : String) (line : Nat) : Token := ⟨.identifier, text, line⟩

def next (line : Nat) : Expr :=
  .binary (.reference (name "i" line)) ⟨.symbol .plus, "+", line⟩ (.literal (.number 1))

/-- Of a counter: `i = i + 1; return i;`. -/
def body (line : Nat) : List Stmt :=
  [.expression (.assign (name "i" line) (next line)),
    .return_ ⟨.keyword .return_, "return", line + 1⟩ (some (.reference (name "i" (line + 1))))]

/-- Of the generator: a count that starts at zero, a counter, and the counter returned. -/
def generator (line : Nat) : List Stmt :=
  [.declare (name "i" line) (some (.literal (.number 0))),
    .function (name "count" (line + 1)) [] (body (line + 2)),
    .return_ ⟨.keyword .return_, "return", line + 5⟩ (some (.reference (name "count" (line + 5))))]

structure Stands (m : Machine) (c : Closure) (x : Float) : Prop where
  params : c.params = []
  body : ∃ line, c.body = body line
  count : ∃ f, m.store.frame? c.frame = some f ∧ f.get? "i" = some (.number x)

theorem resolve_own {s : Store} {k : Nat} {f : Frame} {name : String} {value : Value}
    (frame : s.frame? k = some f) (bound : f.get? name = some value) :
    s.resolve? name k = some k := by
  rw [Store.resolve?]
  simp [frame, bound]

theorem lookup_own {s : Store} {k : Nat} {f : Frame} {name : String} {value : Value}
    (frame : s.frame? k = some f) (bound : f.get? name = some value) :
    s.lookup? name k = some value := by
  unfold Store.lookup?
  simp [resolve_own frame bound, frame, bound]

theorem resolve_outer {s : Store} {k outer : Nat} {name : String}
    (frame : s.frame? k = some ⟨[], some outer⟩) (earlier : outer < k) :
    s.resolve? name k = s.resolve? name outer := by
  rw [Store.resolve?]
  simp [frame, Frame.get?, earlier]

theorem lookup_outer {s : Store} {k outer : Nat} {f : Frame} {name : String} {value : Value}
    (inner : s.frame? k = some ⟨[], some outer⟩) (earlier : outer < k)
    (frame : s.frame? outer = some f) (bound : f.get? name = some value) :
    s.lookup? name k = some value := by
  unfold Store.lookup?
  simp [resolve_outer inner earlier, resolve_own frame bound, frame, bound]

theorem executeAll_normal {natives : List Native} {fuel : Nat} {s : Stmt} {m n : Machine}
    (first : execute natives fuel s m = .ok .normal n) (ss : List Stmt) :
    executeAll natives (fuel + 1) (s :: ss) m = executeAll natives fuel ss n := by
  rw [executeAll, bind_of_ok first]

theorem executeAll_return (natives : List Native) {fuel : Nat} (keyword : Token) {e : Expr}
    {v : Value} {m n : Machine} (eq : evaluate natives fuel e m = .ok v n) :
    executeAll natives (fuel + 2) [.return_ keyword (some e)] m = .ok (.returned v) n := by
  have last : execute natives (fuel + 1) (.return_ keyword (some e)) m = .ok (.returned v) n := by
    rw [execute, bind_of_ok eq]
    rfl
  rw [executeAll, bind_of_ok last]
  rfl

theorem execute_body (natives : List Native) (fuel line : Nat) {m n : Machine} {outer : Nat}
    {f : Frame} {x : Float} (inner : m.store.frame? m.current = some ⟨[], some outer⟩)
    (earlier : outer < m.current) (frame : m.store.frame? outer = some f)
    (bound : f.get? "i" = some (.number x))
    (after : n = { m with store := m.store.define outer "i" (.number (x + 1)) }) :
    executeAll natives (fuel + 5) (body line) m = .ok (.returned (.number (x + 1))) n := by
  have means : m.store.resolve? "i" m.current = some outer := by
    rw [resolve_outer inner earlier]
    exact resolve_own frame bound
  have read : evaluate natives (fuel + 1) (.reference (name "i" line)) m = .ok (.number x) m := by
    rw [evaluate, Machine.lookup_eq]
    simp only [name, lookup_outer inner earlier frame bound]
  have sum : evaluate natives (fuel + 2) (next line) m = .ok (.number (x + 1)) m := by
    rw [next, evaluate, bind_of_ok read]
    rfl
  have assigned : evaluate natives (fuel + 3) (.assign (name "i" line) (next line)) m =
      .ok (.number (x + 1)) n := by
    rw [evaluate, bind_of_ok sum, Machine.assign_eq, after]
    simp only [name, means]
  have inner' : n.store.frame? n.current = some ⟨[], some outer⟩ := by
    rw [after, Store.frame_define, if_neg (Nat.ne_of_lt earlier)]
    exact inner
  have frame' : n.store.frame? outer = some (f.define "i" (.number (x + 1))) := by
    rw [after, Store.frame_define, if_pos rfl, frame]
    rfl
  have bound' : (f.define "i" (.number (x + 1))).get? "i" = some (.number (x + 1)) := by
    rw [Frame.get_define, if_pos rfl]
  have current : n.current = m.current := by rw [after]
  have reread : evaluate natives (fuel + 2) (.reference (name "i" (line + 1))) n =
      .ok (.number (x + 1)) n := by
    rw [evaluate, Machine.lookup_eq]
    simp only [name, lookup_outer inner' (current ▸ earlier) frame' bound']
  have first : execute natives (fuel + 4) (.expression (.assign (name "i" line) (next line))) m =
      .ok .normal n := by
    rw [execute, bind_of_ok assigned]
    rfl
  rw [body, executeAll_normal first]
  exact executeAll_return natives _ reread

theorem call_of_returned (natives : List Native) {fuel : Nat} (paren : Token) {c : Closure}
    (params : c.params = []) {v : Value} {m n : Machine}
    (eq : executeAll natives fuel c.body (m.inside ⟨[], some c.frame⟩) = .ok (.returned v) n) :
    call natives (fuel + 1) paren (.function c) [] m = .ok v { n with current := m.current } := by
  have frame : c.callFrame [] = ⟨[], some c.frame⟩ := by simp [Closure.callFrame]
  have count : checkCount paren c.params.length 0 m = .ok () m := by
    rw [params]
    rfl
  have inside : Machine.inFrame (c.callFrame []) (executeAll natives fuel c.body) m =
      .ok (.returned v) { n with current := m.current } := by
    rw [frame, Machine.inFrame_eq, eq]
  rw [call, List.length_nil, bind_of_ok count, bind_of_ok inside]
  rfl

/-- A counter goes on by one, and no frame but its own changes. -/
theorem call_counter (natives : List Native) (fuel : Nat) (paren : Token) {m : Machine} {c : Closure}
    {x : Float} (stands : Stands m c x) :
    ∃ n, call natives (fuel + 6) paren (.function c) [] m = .ok (.number (x + 1)) n ∧
      Stands n c (x + 1) ∧
      ∀ k, k < m.store.size → k ≠ c.frame → n.store.frame? k = m.store.frame? k := by
  obtain ⟨params, ⟨line, code⟩, f, frame, bound⟩ := stands
  have earlier := Store.lt_size_of_frame frame
  have inner : (m.inside ⟨[], some c.frame⟩).store.frame? (m.inside ⟨[], some c.frame⟩).current =
      some ⟨[], some c.frame⟩ := by
    simp [Machine.inside, Store.frame_push]
  have frame' : (m.inside ⟨[], some c.frame⟩).store.frame? c.frame = some f := by
    simp only [Machine.inside, Store.frame_push, if_neg (Nat.ne_of_lt earlier)]
    exact frame
  have runs := execute_body natives fuel line inner earlier frame' bound rfl
  rw [← code] at runs
  refine ⟨_, call_of_returned natives paren params runs, ⟨params, ⟨line, code⟩, ?_⟩, ?_⟩
  · refine ⟨f.define "i" (.number (x + 1)), ?_, ?_⟩
    · rw [Store.frame_define, if_pos rfl, frame']
      rfl
    · rw [Frame.get_define, if_pos rfl]
  · intro k less other
    rw [Store.frame_define, if_neg (Ne.symm other)]
    simp only [Machine.inside, Store.frame_push, if_neg (Nat.ne_of_lt less)]

def ownFrame (outer : Nat) (c : Closure) : Frame :=
  (Frame.define ⟨[], some outer⟩ "i" (.number 0)).define "count" (.function c)

theorem ownFrame_counts (outer : Nat) (c : Closure) :
    (ownFrame outer c).get? "i" = some (.number 0) := by
  rw [ownFrame, Frame.get_define, Frame.get_define]
  rfl

theorem call_generator (natives : List Native) (fuel : Nat) (paren : Token) {g : Closure}
    {line : Nat} (params : g.params = []) (code : g.body = generator line) (m : Machine) :
    ∃ c n, call natives (fuel + 6) paren (.function g) [] m = .ok (.function c) n ∧
      Stands n c 0 ∧ c.frame = m.store.size ∧ m.store.size < n.store.size ∧
      ∀ k, k < m.store.size → n.store.frame? k = m.store.frame? k := by
  let c : Closure := ⟨m.functionCount, name "count" (line + 1), [], body (line + 2), m.store.size⟩
  let started : Machine :=
    { m with
      store := (m.store.push ⟨[], some g.frame⟩).define m.store.size "i" (.number 0)
      current := m.store.size }
  let store := started.store.define m.store.size "count" (.function c)
  let n : Machine := { started with store := store, functionCount := m.functionCount + 1 }
  have frame : store.frame? m.store.size = some (ownFrame g.frame c) := by
    simp [store, started, Store.frame_define, Store.frame_push, ownFrame]
  have others : ∀ k, k < m.store.size → store.frame? k = m.store.frame? k := by
    intro k less
    have differs := Nat.ne_of_lt less
    simp [store, started, Store.frame_define, Store.frame_push, differs, Ne.symm differs]
  have bound : (ownFrame g.frame c).get? "count" = some (.function c) := by
    rw [ownFrame, Frame.get_define, if_pos rfl]
  have returned : evaluate natives (fuel + 1) (.reference (name "count" (line + 5))) n =
      .ok (.function c) n := by
    rw [evaluate, Machine.lookup_eq]
    have found : n.store.lookup? "count" n.current = some (.function c) := lookup_own frame bound
    simp only [name, found]
  have runs : executeAll natives (fuel + 5) g.body (m.inside ⟨[], some g.frame⟩) =
      .ok (.returned (.function c)) n := by
    have first : execute natives (fuel + 4) (.declare (name "i" line) (some (.literal (.number 0))))
        (m.inside ⟨[], some g.frame⟩) = .ok .normal started := by
      rw [execute, evaluate]
      rfl
    have second : execute natives (fuel + 3) (.function (name "count" (line + 1)) []
        (body (line + 2))) started = .ok .normal n := by
      rw [execute]
      rfl
    rw [code, generator, executeAll_normal first, executeAll_normal second]
    exact executeAll_return natives _ returned
  refine ⟨c, _, call_of_returned natives paren params runs, ⟨rfl, ⟨_, rfl⟩, ?_⟩, rfl, ?_, others⟩
  · exact ⟨ownFrame g.frame c, frame, ownFrame_counts g.frame c⟩
  · simp [n, store, started]

/-- What two numbers count to when either goes on by one, the first at `true`. -/
def tally : List Bool → Float → Float → List Float
  | [], _, _ => []
  | true :: later, x, y => (x + 1) :: tally later (x + 1) y
  | false :: later, x, y => (y + 1) :: tally later x (y + 1)

/-- Calls of two functions, the first at `true`. -/
def callEach (natives : List Native) (fuel : Nat) (paren : Token) (a b : Value) (calls : List Bool) :
    Eval (List Value) :=
  calls.mapM fun first => call natives fuel paren (if first then a else b) []

theorem Stands.of_frame {m n : Machine} {c : Closure} {x : Float} (stands : Stands m c x)
    (same : n.store.frame? c.frame = m.store.frame? c.frame) : Stands n c x := by
  obtain ⟨params, code, f, frame, bound⟩ := stands
  exact ⟨params, code, f, same.trans frame, bound⟩

theorem Stands.exists_ {m : Machine} {c : Closure} {x : Float} (stands : Stands m c x) :
    c.frame < m.store.size := by
  obtain ⟨-, -, f, frame, -⟩ := stands
  exact Store.lt_size_of_frame frame

/-- Counters with frames of their own count apart. -/
theorem callEach_tally (natives : List Native) (fuel : Nat) (paren : Token) {a b : Closure}
    (apart : a.frame ≠ b.frame) (calls : List Bool) {m : Machine} {x y : Float}
    (first : Stands m a x) (second : Stands m b y) :
    ∃ n, callEach natives (fuel + 6) paren (.function a) (.function b) calls m =
      .ok ((tally calls x y).map .number) n := by
  induction calls generalizing m x y with
  | nil => exact ⟨m, rfl⟩
  | cons call later ih =>
    unfold callEach at ih ⊢
    rw [List.mapM_cons]
    cases call with
    | true =>
      obtain ⟨n, ends, stands, others⟩ := call_counter natives fuel paren first
      have kept : Stands n b y := second.of_frame (others _ second.exists_ (Ne.symm apart))
      obtain ⟨o, rest⟩ := ih stands kept
      refine ⟨o, ?_⟩
      rw [if_pos rfl, bind_of_ok ends, bind_of_ok rest]
      rfl
    | false =>
      obtain ⟨n, ends, stands, others⟩ := call_counter natives fuel paren second
      have kept : Stands n a x := first.of_frame (others _ first.exists_ apart)
      obtain ⟨o, rest⟩ := ih kept stands
      refine ⟨o, ?_⟩
      rw [if_neg Bool.false_ne_true, bind_of_ok ends, bind_of_ok rest]
      rfl

/-- Two counters made by separate calls of the generator count as two numbers do, in whatever order
they are called. -/
theorem counters_apart (natives : List Native) (fuel : Nat) (paren : Token) {g : Closure}
    {line : Nat} (params : g.params = []) (code : g.body = generator line) (m : Machine)
    (calls : List Bool) :
    ∃ n, (do
      let a ← call natives (fuel + 6) paren (.function g) []
      let b ← call natives (fuel + 6) paren (.function g) []
      callEach natives (fuel + 6) paren a b calls : Eval (List Value)) m =
        .ok ((tally calls 0 0).map .number) n := by
  obtain ⟨a, m₁, made, first, frame, larger, -⟩ := call_generator natives fuel paren params code m
  obtain ⟨b, m₂, made', second, frame', -, others⟩ :=
    call_generator natives fuel paren params code m₁
  have apart : a.frame ≠ b.frame := by omega
  have kept : Stands m₂ a 0 := first.of_frame (others _ first.exists_)
  obtain ⟨n, counts⟩ := callEach_tally natives fuel paren apart calls kept second
  refine ⟨n, ?_⟩
  rw [bind_of_ok made, bind_of_ok made']
  exact counts

end Lox.Counter
