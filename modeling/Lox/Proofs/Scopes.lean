import Lox.Proofs.Counters
import Lox.Proofs.History

/- The names and links of frames while programs run. Evaluating an expression binds no new name in
   any frame, executing a statement only in the current one, and a frame whose scope was left binds
   no new name ever again, whatever calls and closures come back to it. -/
namespace Lox

/-- All frames are still there with their links and names, and only those in `growing` have gained
names. -/
def Store.Grows (s t : Store) (growing : Nat → Prop) : Prop :=
  ∀ k f, s.frame? k = some f → ∃ g, t.frame? k = some g ∧ g.enclosing = f.enclosing ∧
    f.names ⊆ g.names ∧ (¬ growing k → g.names = f.names)

namespace Store.Grows

variable {s t u : Store} {growing : Nat → Prop}

theorem refl (s : Store) (growing : Nat → Prop) : s.Grows s growing :=
  fun _ f found => ⟨f, found, rfl, List.Subset.refl _, fun _ => rfl⟩

theorem trans {growing' : Nat → Prop} (first : s.Grows t growing) (second : t.Grows u growing')
    (less : ∀ k, growing' k → k < s.size → growing k) : s.Grows u growing := by
  intro k f found
  obtain ⟨g, found', link, names, same⟩ := first k f found
  obtain ⟨h, found'', link', names', same'⟩ := second k g found'
  refine ⟨h, found'', link'.trans link, List.Subset.trans names names', ?_⟩
  intro settled
  rw [← same settled]
  exact same' fun grows => settled (less k grows (lt_size_of_frame found))

theorem mono {growing' : Nat → Prop} (grows : s.Grows t growing)
    (less : ∀ k, growing k → k < s.size → growing' k) : s.Grows t growing' := by
  intro k f found
  obtain ⟨g, found', link, names, same⟩ := grows k f found
  exact ⟨g, found', link, names, fun settled =>
    same fun inside => settled (less k inside (lt_size_of_frame found))⟩

theorem size_le (grows : s.Grows t growing) : s.size ≤ t.size := by
  apply Nat.le_of_not_lt
  intro less
  obtain ⟨f, found⟩ := Option.isSome_iff_exists.mp ((s.frame_isSome_iff t.size).mpr less)
  obtain ⟨g, found', -⟩ := grows t.size f found
  exact Nat.lt_irrefl _ (lt_size_of_frame found')

theorem push (s : Store) (f : Frame) (growing : Nat → Prop) : s.Grows (s.push f) growing := by
  intro k g found
  have less := lt_size_of_frame found
  refine ⟨g, ?_, rfl, List.Subset.refl _, fun _ => rfl⟩
  rw [frame_push, if_neg (Nat.ne_of_lt less)]
  exact found

theorem define (s : Store) (i : Nat) (name : String) (value : Value) :
    s.Grows (s.define i name value) (· = i) := by
  intro k f found
  rw [frame_define]
  by_cases same : i = k
  · rw [if_pos same, found]
    exact ⟨f.define name value, rfl, rfl, f.names_subset_define name value,
      fun settled => absurd same.symm settled⟩
  · rw [if_neg same]
    exact ⟨f, found, rfl, List.Subset.refl _, fun _ => rfl⟩

theorem define_bound {i k : Nat} {name : String} (means : s.resolve? name i = some k)
    (value : Value) (growing : Nat → Prop) : s.Grows (s.define k name value) growing := by
  obtain ⟨f, found, bound⟩ := mem_names_of_resolve means
  intro j g found'
  rw [frame_define]
  by_cases same : k = j
  · subst same
    rw [found] at found'
    cases found'
    rw [if_pos rfl, found]
    refine ⟨f.define name value, rfl, rfl, f.names_subset_define name value, fun _ => ?_⟩
    rw [Frame.define_names, if_pos bound]
  · rw [if_neg same]
    exact ⟨g, found', rfl, List.Subset.refl _, fun _ => rfl⟩

end Store.Grows

def Mode.Growing (mode : Mode) (current k : Nat) : Prop := mode = .statement ∧ k = current

theorem Effect.grows {m m' : Machine} {mode : Mode} (effect : Effect m mode m') :
    m'.current = m.current ∧ m.store.Grows m'.store (mode.Growing m.current) := by
  cases effect with
  | nothing => exact ⟨rfl, .refl _ _⟩
  | printed line => exact ⟨rfl, .refl _ _⟩
  | counted => exact ⟨rfl, .refl _ _⟩
  | assigned value means => exact ⟨rfl, .define_bound means value _⟩
  | defined name value count =>
    exact ⟨rfl, (Store.Grows.define _ _ name value).mono fun k same _ => ⟨rfl, same⟩⟩

namespace Machine

variable {α : Type}

/-- Code of a mode goes back to the frame it started in, and binds new names at most where its mode
allows. -/
def Confined (mode : Mode) (x : Eval α) : Prop :=
  ∀ m : Machine, (final x m).current = m.current ∧
    m.store.Grows (final x m).store (mode.Growing m.current)

theorem confined_inFrame (frame : Machine → Frame) {body : Eval α}
    (inner : Confined .statement body) :
    Confined .expression fun m => inFrame (frame m) body m := by
  intro m
  have leaves : final (fun m => inFrame (frame m) body m) m =
      { final body (m.inside (frame m)) with current := m.current } := final_inFrame (frame m) body m
  rw [leaves]
  refine ⟨rfl, ?_⟩
  obtain ⟨-, grows⟩ := inner (m.inside (frame m))
  refine (Store.Grows.push m.store (frame m) _).trans grows ?_
  rintro k ⟨-, own⟩ less
  exact absurd own (Nat.ne_of_lt less)

theorem confined_kept (natives : List Native) :
    Runner.Kept (Runner.machine natives) fun mode _ x => Confined mode x where
  pure _ m := ⟨rfl, .refl _ _⟩
  bind := by
    intro mode α β x f first second m
    rcases final_bind x f m with eq | ⟨a, ok, eq⟩
    · rw [eq]
      exact first m
    · obtain ⟨back, grows⟩ := first m
      obtain ⟨back', grows'⟩ := second ok (final x m)
      rw [back] at grows' back'
      rw [eq]
      exact ⟨back', grows.trans grows' fun k allowed _ => allowed⟩
  weaken := by
    intro α x confined m
    obtain ⟨back, grows⟩ := confined m
    exact ⟨back, grows.mono fun k allowed _ => nomatch allowed.1⟩
  throws _ := rfl
  stop _ m := ⟨rfl, .refl _ _⟩
  act x m := (x.effect natives m).grows
  block inner := confined_inFrame (fun m => ⟨[], some m.current⟩) inner
  enter := by
    intro f args x inner
    exact confined_inFrame (fun _ => f.callFrame args) inner

end Machine

structure Moment.Sound (a : Moment) : Prop where
  exists_ : a.machine.current < a.machine.store.size
  active : a.machine.current ∉ a.finished
  ended : ∀ k ∈ a.finished, k < a.machine.store.size

theorem Moment.Sound.grow {a : Moment} (sound : a.Sound) {m : Machine} {growing : Nat → Prop}
    (back : m.current = a.machine.current) (grows : a.machine.store.Grows m.store growing) :
    Moment.Sound { a with machine := m } where
  exists_ := back ▸ Nat.lt_of_lt_of_le sound.exists_ grows.size_le
  active := back ▸ sound.active
  ended k ended := Nat.lt_of_lt_of_le (sound.ended k ended) grows.size_le

/-- From one moment to a later one, a frame whose scope has ended gains no name. -/
structure Moment.Before (a b : Moment) : Prop where
  grows : a.machine.store.Grows b.machine.store (· ∉ a.finished)
  finished : a.finished ⊆ b.finished

theorem Moment.Before.trans {a b c : Moment} (first : a.Before b) (second : b.Before c) :
    a.Before c where
  grows := first.grows.trans second.grows fun _ open_ _ ended => open_ (first.finished ended)
  finished := List.Subset.trans first.finished second.finished

namespace Log

variable {α : Type}

structure Ordered (l : Log) : Prop where
  sound : ∀ a ∈ l.now :: l.past, a.Sound
  before : (l.now :: l.past).Pairwise fun later earlier => earlier.Before later

theorem Ordered.note {l : Log} (ordered : l.Ordered) {next : Moment} (sound : next.Sound)
    (before : l.now.Before next) : (l.note next).Ordered := by
  constructor
  · intro a member
    rcases List.mem_cons.mp member with rfl | member
    · exact sound
    · exact ordered.sound a member
  · refine List.Pairwise.cons ?_ ordered.before
    intro a member
    rcases List.mem_cons.mp member with rfl | past
    · exact before
    · exact ((List.pairwise_cons.mp ordered.before).1 a past).trans before

def Orderly (x : Recorded α) : Prop :=
  ∀ l : Log, l.Ordered →
    (final x l).Ordered ∧ l.now.Before (final x l).now ∧
      (final x l).now.machine.current = l.now.machine.current ∧
      ∀ k ∈ (final x l).now.finished, k ∈ l.now.finished ∨ l.now.machine.store.size ≤ k

theorem before_refl (a : Moment) : a.Before a := ⟨.refl _ _, List.Subset.refl _⟩

theorem orderly_of_final_eq {x : Recorded α} (same : ∀ l, final x l = l) : Orderly x := by
  intro l ordered
  rw [same]
  exact ⟨ordered, before_refl _, rfl, fun _ => .inl⟩

theorem orderly_perform {natives : List Native} (x : Act α) :
    Orderly (perform (x.perform natives)) := by
  intro l ordered
  have sound := ordered.sound l.now List.mem_cons_self
  obtain ⟨back, grows⟩ := (x.effect natives l.now.machine).grows
  rw [final_perform]
  have before : l.now.Before { l.now with machine := final (x.perform natives) l.now.machine } := by
    refine ⟨grows.mono ?_, List.Subset.refl _⟩
    rintro k ⟨-, rfl⟩ -
    exact sound.active
  exact ⟨ordered.note (sound.grow back grows) before, before, back, fun _ => .inl⟩

theorem orderly_scope (frame : Machine → Frame) {body : Recorded α} (inner : Orderly body) :
    Orderly fun l => scope (frame l.now.machine) body l := by
  intro l ordered
  have sound := ordered.sound l.now List.mem_cons_self
  have leaves : final (fun l => scope (frame l.now.machine) body l) l = _ :=
    final_scope (frame l.now.machine) body l
  rw [leaves]
  -- On the way in, the new frame is one past all others, so its scope has not ended.
  have entering : l.now.Before
      { l.now with machine := l.now.machine.inside (frame l.now.machine) } :=
    ⟨.push _ _ _, List.Subset.refl _⟩
  have entered : Moment.Sound
      { l.now with machine := l.now.machine.inside (frame l.now.machine) } := by
    refine ⟨?_, ?_, ?_⟩
    · simp [Machine.inside]
    · exact fun ended => Nat.lt_irrefl _ (sound.ended _ ended)
    · intro k ended
      simp only [Machine.inside, Store.size_push]
      exact Nat.lt_succ_of_lt (sound.ended k ended)
  obtain ⟨ordered', before, -, own⟩ := inner _ (ordered.note entered entering)
  generalize final body _ = l' at ordered' before own
  have larger : l.now.machine.store.size < l'.now.machine.store.size := by
    have le := before.grows.size_le
    simp only [note, Machine.inside, Store.size_push] at le
    exact le
  have sound' := ordered'.sound l'.now List.mem_cons_self
  have leaving : l'.now.Before (l'.leave l.now.machine.current l.now.machine.store.size).now :=
    ⟨.refl _ _, List.subset_cons_self _ _⟩
  refine ⟨ordered'.note ⟨?_, ?_, ?_⟩ leaving, (entering.trans before).trans leaving, rfl, ?_⟩
  · exact Nat.lt_trans sound.exists_ larger
  · -- The frame gone back to is older than all whose scopes ended on the way.
    intro ended
    rcases List.mem_cons.mp ended with same | ended
    · exact Nat.ne_of_lt sound.exists_ same
    · rcases own _ ended with ended | le
      · exact sound.active ended
      · exact Nat.not_le_of_lt sound.exists_ (Nat.le_of_succ_le (by
          simpa [note, Machine.inside] using le))
  · intro k ended
    rcases List.mem_cons.mp ended with rfl | ended
    · exact larger
    · exact sound'.ended k ended
  · intro k ended
    rcases List.mem_cons.mp ended with rfl | ended
    · exact .inr (Nat.le_refl _)
    · rcases own k ended with ended | le
      · exact .inl ended
      · exact .inr (Nat.le_of_succ_le (by simpa [note, Machine.inside] using le))

theorem orderly_kept (natives : List Native) :
    Runner.Kept (Runner.recording natives) fun _ _ x => Orderly x where
  pure _ := orderly_of_final_eq fun _ => rfl
  bind := by
    intro mode α β x f first second l ordered
    obtain ⟨ordered', before, back, own⟩ := first l ordered
    rcases final_bind x f l with eq | ⟨a, ok, eq⟩
    · rw [eq]
      exact ⟨ordered', before, back, own⟩
    · obtain ⟨ordered'', before', back', own'⟩ := second ok _ ordered'
      rw [eq]
      refine ⟨ordered'', before.trans before', back'.trans back, ?_⟩
      intro k ended
      rcases own' k ended with ended | le
      · exact own k ended
      · exact .inr (Nat.le_trans before.grows.size_le le)
  weaken orderly := orderly
  throws _ := rfl
  stop _ := orderly_of_final_eq fun _ => rfl
  act x := orderly_perform x
  block inner := orderly_scope (fun m => ⟨[], some m.current⟩) inner
  enter := by
    intro f args x inner
    exact orderly_scope (fun _ => f.callFrame args) inner

structure AtRest (l : Log) : Prop where
  ordered : l.Ordered
  global : l.now.machine.current = Machine.globals

theorem Orderly.atRest {x : Recorded α} (orderly : Orderly x) {l : Log} (rest : l.AtRest) :
    (final x l).AtRest := by
  obtain ⟨ordered, -, back, -⟩ := orderly l rest.ordered
  exact ⟨ordered, back.trans rest.global⟩

theorem atRest_record {natives : List Native} {l : Log} (rest : l.AtRest) (step : Step) :
    (step.record natives l).AtRest := by
  have related := (orderly_kept natives).related
  cases step with
  | evaluate fuel e => exact ((related.runs fuel).evaluate e).1.atRest rest
  | execute fuel stmt => exact ((related.runs fuel).execute stmt).1.atRest rest
  | interpret fuel stmts => exact (related.interpret fuel stmts).1.atRest rest
  | run fuel source =>
    rw [Step.record]
    by_cases clean : (Program.ofText source).diagnostics.isEmpty
    · simp only [clean, if_true]
      exact (related.interpret fuel _).1.atRest rest
    · simp only [clean]
      exact rest
  | defineGlobal name value =>
    have sound := rest.ordered.sound l.now List.mem_cons_self
    have grows := Store.Grows.define l.now.machine.store Machine.globals name value
    refine ⟨rest.ordered.note (sound.grow rfl grows) ⟨grows.mono ?_, List.Subset.refl _⟩, rest.global⟩
    rintro k rfl -
    exact rest.global ▸ sound.active

theorem atRest_start (natives : List Native) : AtRest ⟨⟨Machine.start natives, []⟩, []⟩ := by
  have size : (Machine.start natives).store.size = 1 := by
    have along : ∀ (fs : List (Native × Nat)) (s : Store),
        (fs.foldl (fun s f => s.define Machine.globals f.1.name (.native (f.1.ref f.2))) s).size =
          s.size := by
      intro fs
      induction fs with
      | nil => exact fun _ => rfl
      | cons f fs ih =>
        intro s
        rw [List.foldl_cons, ih, Store.size_define]
    exact along natives.zipIdx _
  have sound : Moment.Sound ⟨Machine.start natives, []⟩ := by
    refine ⟨?_, List.not_mem_nil, by simp⟩
    rw [size]
    exact Nat.zero_lt_one
  refine ⟨⟨?_, List.pairwise_singleton _ _⟩, rfl⟩
  intro a member
  cases List.mem_singleton.mp member
  exact sound

theorem atRest_of (natives : List Native) (steps : List Step) : (Log.of natives steps).AtRest := by
  have along : ∀ (steps : List Step) (l : Log), l.AtRest →
      (steps.foldl (Step.record natives) l).AtRest := by
    intro steps
    induction steps with
    | nil => exact fun _ rest => rest
    | cons step steps ih => exact fun l rest => ih _ (atRest_record rest step)
  exact along steps _ (atRest_start natives)

end Log

/-- Code goes back to the frame in which it started, whether it gives a result, returns or fails, so
every step of a session starts in the global frame. -/
theorem current_frame_restored (natives : List Native) :
    (∀ fuel e (m : Machine), (final (evaluate natives fuel e) m).current = m.current) ∧
    (∀ fuel s (m : Machine), (final (execute natives fuel s) m).current = m.current) ∧
    ∀ steps, (Session.after natives steps).machine.current = Machine.globals := by
  have related := (Machine.confined_kept natives).related
  refine ⟨?_, ?_, ?_⟩
  · intro fuel e m
    rw [← (Runner.isEvaluator natives fuel).evaluate]
    exact (((related.runs fuel).evaluate e).1 m).1
  · intro fuel s m
    rw [← (Runner.isEvaluator natives fuel).execute]
    exact (((related.runs fuel).execute s).1 m).1
  · intro steps
    rw [← Log.of_machine]
    exact (Log.atRest_of natives steps).global

def Store.chain (s : Store) (i : Nat) : List Nat :=
  i :: match (s.frame? i).bind Frame.enclosing with
    | none => []
    | some outer => if outer < i then s.chain outer else []
termination_by i

theorem Store.resolve_globals {s : Store} {name : String} {k : Nat}
    (means : s.resolve? name Machine.globals = some k) : k = Machine.globals := by
  rw [Store.resolve?] at means
  cases found : s.frame? Machine.globals with
  | none => simp [found] at means
  | some f =>
    simp only [found] at means
    split at means
    · exact (Option.some.inj means).symm
    · split at means
      · cases means
      · split at means
        · rename_i less
          exact absurd less (Nat.not_lt_zero _)
        · cases means

/-- Where the scopes of all frames on the way out have ended, the global one apart, the names that
they bind keep their meaning. -/
theorem Moment.Before.resolve_iff {a b : Moment} (before : a.Before b) (sound : a.Sound) {i : Nat}
    (settled : ∀ k ∈ a.machine.store.chain i, k ≠ Machine.globals → k ∈ a.finished)
    (name : String) {k : Nat} (inner : k ≠ Machine.globals) :
    a.machine.store.resolve? name i = some k ↔ b.machine.store.resolve? name i = some k := by
  induction i using Nat.strongRecOn with
  | ind i ih =>
    by_cases global : i = Machine.globals
    · subst global
      constructor
      · exact fun means => absurd (Store.resolve_globals means) inner
      · exact fun means => absurd (Store.resolve_globals means) inner
    · rw [Store.chain] at settled
      have ended := settled i List.mem_cons_self global
      have less := sound.ended i ended
      obtain ⟨f, found⟩ := Option.isSome_iff_exists.mp ((Store.frame_isSome_iff _ i).mpr less)
      obtain ⟨g, found', link, -, same⟩ := before.grows i f found
      have bound : (g.get? name).isSome ↔ (f.get? name).isSome := by
        rw [Frame.get_isSome_iff, Frame.get_isSome_iff, same (not_not_intro ended)]
      rw [Store.resolve?, Store.resolve?, found, found']
      simp only [bound, link]
      split
      · exact Iff.rfl
      · cases out : f.enclosing with
        | none => exact Iff.rfl
        | some outer =>
          by_cases earlier : outer < i
          · simp only [earlier, if_true]
            refine ih outer earlier fun j member => settled j ?_
            simp only [found, Option.bind_some, out, earlier, if_true]
            exact List.mem_cons_of_mem _ member
          · simp only [earlier, if_false]

/-- Scopes are stable. An expression binds no new name in a frame that was there, a statement only in
the current one and a block not even there; along every session frames keep their links and names,
and one whose block or call has ended gains none, so the names that a closure finds in such frames
keep their meaning. -/
theorem scopes_stable (natives : List Native) :
    (∀ fuel e (m : Machine),
      m.store.Grows (final (evaluate natives fuel e) m).store fun _ => False) ∧
    (∀ fuel s (m : Machine),
      m.store.Grows (final (execute natives fuel s) m).store (· = m.current)) ∧
    (∀ fuel body (m : Machine),
      m.store.Grows (final (execute natives fuel (.block body)) m).store fun _ => False) ∧
    ∀ steps, (Log.of natives steps).now.machine = (Session.after natives steps).machine ∧
      (Log.of natives steps).moments.Pairwise fun earlier later =>
        earlier.machine.store.Grows later.machine.store (· ∉ earlier.finished) ∧
        earlier.finished ⊆ later.finished ∧
        ∀ i, (∀ k ∈ earlier.machine.store.chain i, k ≠ Machine.globals → k ∈ earlier.finished) →
          ∀ name k, k ≠ Machine.globals →
            (earlier.machine.store.resolve? name i = some k ↔
              later.machine.store.resolve? name i = some k) := by
  have related := (Machine.confined_kept natives).related
  refine ⟨?_, ?_, ?_, ?_⟩
  · intro fuel e m
    rw [← (Runner.isEvaluator natives fuel).evaluate]
    exact (((related.runs fuel).evaluate e).1 m).2.mono fun k allowed _ => nomatch allowed.1
  · intro fuel s m
    rw [← (Runner.isEvaluator natives fuel).execute]
    exact (((related.runs fuel).execute s).1 m).2.mono fun k allowed _ => allowed.2
  · intro fuel body m
    rw [← (Runner.isEvaluator natives fuel).execute]
    exact ((related.executeBlock fuel body).1 m).2.mono fun k allowed _ => nomatch allowed.1
  · intro steps
    refine ⟨Log.of_machine natives steps, ?_⟩
    have ordered := (Log.atRest_of natives steps).ordered
    rw [Log.moments, List.pairwise_reverse]
    refine ordered.before.imp_of_mem ?_
    intro later earlier _ member before
    refine ⟨before.grows, before.finished, ?_⟩
    intro i settled name k inner
    exact before.resolve_iff (ordered.sound earlier member) settled name inner

/-- Once the generator has returned, the count that its counter captured is found in the same frame,
also inside a call of the counter. -/
theorem scopes_stable_counter :
    let paren : Token := ⟨.symbol .rightParen, ")", 7⟩
    let steps : List Step :=
      [.execute 9 (.function (Counter.name "make" 1) [] (Counter.generator 2)),
        .execute 9 (.declare (Counter.name "count" 7)
          (some (.call (.reference (Counter.name "make" 7)) paren []))),
        .evaluate 9 (.call (.reference (Counter.name "count" 8)) paren [])]
    ∃ earlier ∈ (Log.of [] steps).moments, ∃ later ∈ (Log.of [] steps).moments,
      earlier.finished = [1] ∧ later.finished = [2, 1] ∧
      earlier.machine.store.resolve? "i" 1 = some 1 ∧
      later.machine.store.resolve? "i" 1 = some 1 := by
  intro paren steps
  have ordered := ((scopes_stable []).2.2.2 steps).2
  have first : (Log.of [] steps).moments[8]?.map (fun a =>
      (a.finished, a.machine.store.chain 1, a.machine.store.resolve? "i" 1)) =
        some ([1], [1, 0], some 1) := by decide +kernel
  have last : (Log.of [] steps).moments[17]?.map Moment.finished = some [2, 1] := by
    decide +kernel
  obtain ⟨earlier, at_, view⟩ := Option.map_eq_some_iff.mp first
  obtain ⟨later, at', ended'⟩ := Option.map_eq_some_iff.mp last
  simp only [Prod.mk.injEq] at view
  obtain ⟨ended, chain, means⟩ := view
  obtain ⟨less, rfl⟩ := List.getElem?_eq_some_iff.mp at_
  obtain ⟨less', rfl⟩ := List.getElem?_eq_some_iff.mp at'
  obtain ⟨-, -, stable⟩ := List.pairwise_iff_getElem.mp ordered 8 17 less less' (by decide)
  refine ⟨_, List.getElem_mem less, _, List.getElem_mem less', ended, ended', means, ?_⟩
  refine (stable 1 ?_ "i" 1 (by decide)).mp means
  rw [chain, ended]
  decide

end Lox
