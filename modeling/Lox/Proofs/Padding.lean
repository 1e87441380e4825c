import Lox.Proofs.Lockstep
import Lox.Proofs.Noninterference

/- Two runs of the same code, the second with empty frames between those of the first. An empty frame
   leads on outwards, so names mean the same inside it; code that binds nothing in its own scope can
   therefore run in one and do to all other frames what it does without. -/
namespace Lox

def Store.Ordered (s : Store) : Prop :=
  ∀ k f outer, s.frame? k = some f → f.enclosing = some outer → outer < k

/-- All frames that the machine refers to are there, and links lead to earlier ones. -/
structure Machine.Closed (m : Machine) : Prop where
  links : m.store.Ordered
  values : ∀ k f, m.store.frame? k = some f → ∀ binding ∈ f.bindings,
    binding.2.Within (· < m.store.size)
  current : m.current < m.store.size

/-- A host function cannot tell one frame from another. -/
def Native.Uniform (f : Native) : Prop :=
  ∀ calls (ρ : Nat → Nat) args,
    f.apply calls (args.map (·.rename ρ)) = (f.apply calls args).rename ρ

namespace Store.Ordered

variable {s : Store} (ordered : s.Ordered)
include ordered

theorem define (i : Nat) (name : String) (value : Value) : (s.define i name value).Ordered := by
  intro k f outer found out
  rw [frame_define] at found
  split at found
  · obtain ⟨g, frame, rfl⟩ := Option.map_eq_some_iff.mp found
    exact ordered k g outer frame out
  · exact ordered k f outer found out

theorem push {frame : Frame} (earlier : ∀ outer, frame.enclosing = some outer → outer < s.size) :
    (s.push frame).Ordered := by
  intro k f outer found out
  rw [frame_push] at found
  split at found
  · rename_i last
    cases found
    exact last ▸ earlier outer out
  · exact ordered k f outer found out

end Store.Ordered

def renameAll (ρ : Nat → Nat) (bindings : List (String × Value)) : List (String × Value) :=
  bindings.map fun binding => (binding.1, binding.2.rename ρ)

section Renaming

variable {ρ ρ' : Nat → Nat} {size : Nat}

theorem Value.rename_congr {v : Value} (within : v.Within (· < size))
    (same : ∀ k < size, ρ' k = ρ k) : v.rename ρ' = v.rename ρ := by
  cases v with
  | function c =>
    have captured : ρ' c.frame = ρ c.frame := same c.frame within
    simp only [Value.rename, Closure.rename, captured]
  | _ => rfl

theorem Value.rename_of_not_function {v : Value} (none : ¬ v.IsFunction) : v.rename ρ = v := by
  cases v with
  | function c => exact absurd trivial none
  | _ => rfl

theorem Value.Within.mono {v : Value} {size' : Nat} (within : v.Within (· < size))
    (le : size ≤ size') : v.Within (· < size') := by
  cases v with
  | function c => exact Nat.lt_of_lt_of_le within le
  | _ => trivial

theorem renameAll_congr {bindings : List (String × Value)}
    (within : ∀ binding ∈ bindings, binding.2.Within (· < size)) (same : ∀ k < size, ρ' k = ρ k) :
    renameAll ρ' bindings = renameAll ρ bindings := by
  refine List.map_congr_left fun binding member => ?_
  rw [Value.rename_congr (within binding member) same]

theorem lookup_renameAll (ρ : Nat → Nat) (bindings : List (String × Value)) (name : String) :
    (renameAll ρ bindings).lookup name = (bindings.lookup name).map (·.rename ρ) := by
  induction bindings with
  | nil => rfl
  | cons binding rest ih =>
    obtain ⟨key, old⟩ := binding
    simp only [renameAll, List.map_cons, List.lookup_cons] at ih ⊢
    split
    · rfl
    · exact ih

theorem bindName_renameAll (ρ : Nat → Nat) (name : String) (value : Value)
    (bindings : List (String × Value)) :
    bindName name (value.rename ρ) (renameAll ρ bindings) =
      renameAll ρ (bindName name value bindings) := by
  induction bindings with
  | nil => rfl
  | cons binding rest ih =>
    simp only [renameAll, List.map_cons, bindName] at ih ⊢
    split
    · rfl
    · rw [List.map_cons, ih]

theorem Closure.callFrame_rename (ρ : Nat → Nat) (f : Closure) (args : List Value) :
    ((f.rename ρ).callFrame (args.map (·.rename ρ))).bindings =
      renameAll ρ (f.callFrame args).bindings := by
  have along : ∀ (params : List Token) (args : List Value) (bindings : List (String × Value)),
      (params.zip (args.map (·.rename ρ))).foldl
          (fun bs pair => bindName pair.1.lexeme pair.2 bs) (renameAll ρ bindings) =
        renameAll ρ ((params.zip args).foldl (fun bs pair => bindName pair.1.lexeme pair.2 bs)
          bindings) := by
    intro params
    induction params with
    | nil => exact fun _ _ => rfl
    | cons param params ih =>
      intro args bindings
      cases args with
      | nil => rfl
      | cons arg args =>
        simp only [List.map_cons, List.zip_cons_cons, List.foldl_cons, bindName_renameAll]
        exact ih args _
  exact along f.params args []

theorem Value.beq_rename (ρ : Nat → Nat) (v w : Value) :
    (v.rename ρ == w.rename ρ) = (v == w) := by
  cases v <;> cases w <;> rfl

theorem unaryValue_rename (ρ : Nat → Nat) (op : Token) (v : Value) :
    unaryValue op (v.rename ρ) = unaryValue op v := by
  cases v <;> rfl

theorem binaryValue_rename (ρ : Nat → Nat) (op : Token) (v w : Value) :
    binaryValue op (v.rename ρ) (w.rename ρ) = binaryValue op v w := by
  unfold binaryValue
  simp only [bne, Value.beq_rename]
  cases v <;> cases w <;> rfl

theorem Value.render_rename (ρ : Nat → Nat) (v : Value) : (v.rename ρ).render = v.render := by
  cases v <;> rfl

theorem Native.Uniform.within {f : Native} (uniform : f.Uniform) (calls : Nat) {args : List Value}
    (given : ∀ v ∈ args, v.Within (· < size)) : (f.apply calls args).Within (· < size) := by
  -- Moving all frames from `size` on changes no argument, hence not the result.
  let moved (k : Nat) : Nat := if k < size then k else k + 1
  have same := uniform calls moved args
  have still : args.map (·.rename moved) = args := by
    calc args.map (·.rename moved) = args.map (·.rename fun k => k) :=
          List.map_congr_left fun v member => Value.rename_congr (given v member) fun k less =>
            if_pos less
      _ = args := by simp
  rw [still] at same
  generalize f.apply calls args = result at same ⊢
  cases result with
  | function c =>
    have fixed : c.frame = moved c.frame := congrArg Closure.frame (Value.function.inj same)
    refine Classical.byContradiction fun (beyond : ¬ c.frame < size) => ?_
    simp only [moved, beyond, if_false] at fixed
    omega
  | _ => trivial

end Renaming

/-- The frames of two runs: where each of the first `size` frames of the first run stands in the
second, the empty frames of the second with those that they lead to, and the two current frames. -/
structure Padding where
  place : Nat → Nat
  empty : List (Nat × Nat)
  size : Nat
  first : Nat
  second : Nat
  inside : first < size

namespace Padding

structure Grows (w w' : Padding) : Prop where
  place : ∀ k < w.size, w'.place k = w.place k
  empty : w.empty ⊆ w'.empty
  size : w.size ≤ w'.size

structure Later (w w' : Padding) : Prop where
  grows : w.Grows w'
  first : w'.first = w.first
  second : w'.second = w.second

def Over (w : Padding) (i j : Nat) : Prop := i < w.size ∧ (j = w.place i ∨ (j, i) ∈ w.empty)

structure Fits (w : Padding) (f g : Frame) : Prop where
  bindings : g.bindings = renameAll w.place f.bindings
  values : ∀ binding ∈ f.bindings, binding.2.Within (· < w.size)
  link : f.enclosing = none ∧ g.enclosing = none ∨
    ∃ i j, f.enclosing = some i ∧ g.enclosing = some j ∧ w.Over i j

structure Pads (w : Padding) (t : Store) (j i : Nat) : Prop where
  inside : i < w.size
  frame : t.frame? j = some ⟨[], some (w.place i)⟩
  apart : ∀ k < w.size, w.place k ≠ j

/-- All frames of the second run stand for one of the first, in the same order, or are empty. -/
structure Stores (w : Padding) (s t : Store) : Prop where
  size : s.size = w.size
  ordered : s.Ordered
  ordered' : t.Ordered
  increasing : ∀ i k, i < k → k < w.size → w.place i < w.place k
  frames : ∀ k f, s.frame? k = some f → ∃ g, t.frame? (w.place k) = some g ∧ w.Fits f g
  empty : ∀ j i, (j, i) ∈ w.empty → w.Pads t j i
  covered : ∀ j < t.size, (∃ k < w.size, w.place k = j) ∨ ∃ i, (j, i) ∈ w.empty

variable {w w' : Padding} {s t : Store}

theorem Grows.refl (w : Padding) : w.Grows w :=
  ⟨fun _ _ => rfl, List.Subset.refl _, Nat.le_refl _⟩

theorem Grows.trans {w'' : Padding} (first : w.Grows w') (second : w'.Grows w'') : w.Grows w'' where
  place k less := (second.place k (Nat.lt_of_lt_of_le less first.size)).trans (first.place k less)
  empty := List.Subset.trans first.empty second.empty
  size := Nat.le_trans first.size second.size

theorem Over.grow {i j : Nat} (paired : w.Over i j) (grows : w.Grows w') : w'.Over i j := by
  obtain ⟨less, stands | member⟩ := paired
  · exact ⟨Nat.lt_of_lt_of_le less grows.size, .inl (stands.trans (grows.place i less).symm)⟩
  · exact ⟨Nat.lt_of_lt_of_le less grows.size, .inr (grows.empty member)⟩

theorem Fits.grow {f g : Frame} (fits : w.Fits f g) (grows : w.Grows w') : w'.Fits f g where
  bindings := fits.bindings.trans (renameAll_congr fits.values grows.place).symm
  values binding member := (fits.values binding member).mono grows.size
  link := by
    refine fits.link.imp_right ?_
    rintro ⟨i, j, out, out', paired⟩
    exact ⟨i, j, out, out', paired.grow grows⟩

theorem Fits.get {f g : Frame} (fits : w.Fits f g) (name : String) :
    g.get? name = (f.get? name).map (·.rename w.place) := by
  rw [Frame.get?, fits.bindings, lookup_renameAll]
  rfl

namespace Stores

variable (stores : w.Stores s t)
include stores

theorem place_lt {k : Nat} (less : k < w.size) : w.place k < t.size := by
  rw [← stores.size] at less
  obtain ⟨f, found⟩ := Option.isSome_iff_exists.mp ((s.frame_isSome_iff k).mpr less)
  obtain ⟨g, found', -⟩ := stores.frames k f found
  exact Store.lt_size_of_frame found'

theorem place_inj {i k : Nat} (less : i < w.size) (less' : k < w.size)
    (same : w.place i = w.place k) : i = k := by
  rcases Nat.lt_trichotomy i k with lt | eq | gt
  · exact absurd same (Nat.ne_of_lt (stores.increasing i k lt less'))
  · exact eq
  · exact absurd same.symm (Nat.ne_of_lt (stores.increasing k i gt less))

theorem over_lt {i j : Nat} (paired : w.Over i j) : j < t.size := by
  obtain ⟨less, rfl | member⟩ := paired
  · exact stores.place_lt less
  · exact Store.lt_size_of_frame (stores.empty j i member).frame

theorem resolve (name : String) {i j : Nat} (paired : w.Over i j) :
    t.resolve? name j = (s.resolve? name i).map w.place := by
  induction i using Nat.strongRecOn generalizing j with
  | ind i ih =>
    obtain ⟨f, found⟩ := Option.isSome_iff_exists.mp
      ((s.frame_isSome_iff i).mpr (stores.size ▸ paired.1))
    obtain ⟨g, found', fits⟩ := stores.frames i f found
    have inPlace : t.resolve? name (w.place i) = (s.resolve? name i).map w.place := by
      rw [Store.resolve?, Store.resolve?, found, found']
      simp only [fits.get, Option.isSome_map]
      split
      · rfl
      · rcases fits.link with ⟨out, out'⟩ | ⟨i', j', out, out', paired'⟩
        · simp only [out, out', Option.map_none]
        · have earlier := stores.ordered i f i' found out
          have earlier' := stores.ordered' _ g j' found' out'
          simp only [out, out', earlier, earlier', if_true]
          exact ih i' earlier paired'
    obtain ⟨less, rfl | member⟩ := paired
    · exact inPlace
    · have empty := (stores.empty j i member).frame
      have earlier := stores.ordered' j _ (w.place i) empty rfl
      rw [Store.resolve?, empty]
      simp only [Frame.get?, List.lookup_nil, Option.isSome_none, earlier, if_true]
      exact inPlace

theorem lookup (name : String) {i j : Nat} (paired : w.Over i j) :
    t.lookup? name j = (s.lookup? name i).map (·.rename w.place) ∧
      ∀ value, s.lookup? name i = some value → value.Within (· < w.size) := by
  unfold Store.lookup?
  rw [stores.resolve name paired]
  cases means : s.resolve? name i with
  | none => exact ⟨rfl, nofun⟩
  | some k =>
    obtain ⟨f, found, -⟩ := Store.mem_names_of_resolve means
    obtain ⟨g, found', fits⟩ := stores.frames k f found
    simp only [Option.map_some, Option.bind_some, found, found']
    exact ⟨fits.get name, fun value bound => fits.values (name, value) (mem_of_lookup bound)⟩

theorem define {k : Nat} (less : k < w.size) (name : String) {value : Value}
    (good : value.Within (· < w.size)) :
    w.Stores (s.define k name value) (t.define (w.place k) name (value.rename w.place)) where
  size := by rw [Store.size_define, stores.size]
  ordered := stores.ordered.define k name value
  ordered' := stores.ordered'.define (w.place k) name _
  increasing := stores.increasing
  frames := by
    intro i f found
    rw [Store.frame_define] at found ⊢
    split at found
    · rename_i same
      subst same
      obtain ⟨f, there, rfl⟩ := Option.map_eq_some_iff.mp found
      obtain ⟨g, there', fits⟩ := stores.frames k f there
      rw [if_pos rfl, there']
      refine ⟨_, rfl, ?_, ?_, fits.link⟩
      · simp only [Frame.define, fits.bindings, bindName_renameAll]
      · intro binding member
        rcases mem_bindName member with rfl | member
        · exact good
        · exact fits.values binding member
    · rename_i differs
      have there : i < w.size := stores.size ▸ Store.lt_size_of_frame found
      rw [if_neg fun same => differs (stores.place_inj less there same)]
      exact stores.frames i f found
  empty := by
    intro j i member
    have pads := stores.empty j i member
    refine ⟨pads.inside, ?_, pads.apart⟩
    rw [Store.frame_define, if_neg (pads.apart k less)]
    exact pads.frame
  covered := by
    rw [Store.size_define]
    exact stores.covered

end Stores

def enter (w : Padding) (size' : Nat) : Padding where
  place k := if k = w.size then size' else w.place k
  empty := w.empty
  size := w.size + 1
  first := w.size
  second := size'
  inside := Nat.lt_succ_self _

def pad (w : Padding) (size' : Nat) : Padding :=
  { w with empty := (size', w.first) :: w.empty, second := size' }

def back (w' w : Padding) (grows : w.Grows w') : Padding :=
  { w' with first := w.first, second := w.second, inside := Nat.lt_of_lt_of_le w.inside grows.size }

theorem grows_enter (w : Padding) (size' : Nat) : w.Grows (w.enter size') where
  place _ less := if_neg (Nat.ne_of_lt less)
  empty := List.Subset.refl _
  size := Nat.le_succ _

theorem grows_pad (w : Padding) (size' : Nat) : w.Grows (w.pad size') where
  place _ _ := rfl
  empty := List.subset_cons_self _ _
  size := Nat.le_refl _

theorem later_back (grows : w.Grows w') : w.Later (w'.back w grows) :=
  ⟨⟨grows.place, grows.empty, grows.size⟩, rfl, rfl⟩

namespace Stores

variable (stores : w.Stores s t)
include stores

theorem enter {f g : Frame} (fits : w.Fits f g) : (w.enter t.size).Stores (s.push f) (t.push g) := by
  have grows := w.grows_enter t.size
  have new : (w.enter t.size).place w.size = t.size := if_pos rfl
  have old {k : Nat} (less : k < w.size) : (w.enter t.size).place k = w.place k := grows.place k less
  constructor
  · rw [Store.size_push, stores.size]
    rfl
  · refine stores.ordered.push fun outer out => ?_
    rcases fits.link with ⟨none, -⟩ | ⟨i, j, out', -, paired⟩
    · rw [none] at out
      cases out
    · rw [out'] at out
      cases out
      exact stores.size ▸ paired.1
  · refine stores.ordered'.push fun outer out => ?_
    rcases fits.link with ⟨-, none⟩ | ⟨i, j, -, out', paired⟩
    · rw [none] at out
      cases out
    · rw [out'] at out
      cases out
      exact stores.over_lt paired
  · intro i k less there
    rcases Nat.lt_succ_iff_lt_or_eq.mp there with earlier | rfl
    · rw [old earlier, old (Nat.lt_trans less earlier)]
      exact stores.increasing i k less earlier
    · rw [new, old less]
      exact stores.place_lt less
  · intro k f' found
    rw [Store.frame_push] at found
    split at found
    · rename_i last
      cases found
      rw [last, stores.size, new]
      exact ⟨g, by rw [Store.frame_push, if_pos rfl], fits.grow grows⟩
    · obtain ⟨g', found', fits'⟩ := stores.frames k f' found
      have there : k < w.size := stores.size ▸ Store.lt_size_of_frame found
      refine ⟨g', ?_, fits'.grow grows⟩
      rw [old there, Store.frame_push, if_neg (Nat.ne_of_lt (stores.place_lt there))]
      exact found'
  · intro j i member
    have pads := stores.empty j i member
    have earlier := Store.lt_size_of_frame pads.frame
    refine ⟨Nat.lt_succ_of_lt pads.inside, ?_, ?_⟩
    · rw [old pads.inside, Store.frame_push, if_neg (Nat.ne_of_lt earlier)]
      exact pads.frame
    · intro k there
      rcases Nat.lt_succ_iff_lt_or_eq.mp there with there | rfl
      · rw [old there]
        exact pads.apart k there
      · rw [new]
        exact Nat.ne_of_gt earlier
  · intro j there
    rw [Store.size_push] at there
    rcases Nat.lt_succ_iff_lt_or_eq.mp there with there | rfl
    · refine (stores.covered j there).imp_left ?_
      rintro ⟨k, less, stands⟩
      exact ⟨k, Nat.lt_succ_of_lt less, (old less).trans stands⟩
    · exact .inl ⟨w.size, Nat.lt_succ_self _, new⟩

/-- In a frame that stands for one of the first run, an empty frame can be opened. -/
theorem pad : (w.pad t.size).Stores s (t.push ⟨[], some (w.place w.first)⟩) := by
  have kept {k : Nat} (there : k < t.size) :
      (t.push ⟨[], some (w.place w.first)⟩).frame? k = t.frame? k := by
    rw [Store.frame_push, if_neg (Nat.ne_of_lt there)]
  constructor
  · exact stores.size
  · exact stores.ordered
  · refine stores.ordered'.push fun outer out => ?_
    cases out
    exact stores.place_lt w.inside
  · exact stores.increasing
  · intro k f found
    obtain ⟨g, found', fits⟩ := stores.frames k f found
    exact ⟨g, (kept (Store.lt_size_of_frame found')).trans found', fits.grow (w.grows_pad _)⟩
  · intro j i member
    rcases List.mem_cons.mp member with new | member
    · cases new
      refine ⟨w.inside, by rw [Store.frame_push, if_pos rfl]; rfl, fun k there => ?_⟩
      exact Nat.ne_of_lt (stores.place_lt there)
    · have pads := stores.empty j i member
      exact ⟨pads.inside, (kept (Store.lt_size_of_frame pads.frame)).trans pads.frame, pads.apart⟩
  · intro j there
    rw [Store.size_push] at there
    rcases Nat.lt_succ_iff_lt_or_eq.mp there with there | rfl
    · refine (stores.covered j there).imp_right ?_
      rintro ⟨i, member⟩
      exact ⟨i, List.mem_cons_of_mem _ member⟩
    · exact .inr ⟨w.first, List.mem_cons_self⟩

end Stores

structure State (w : Padding) (m n : Machine) : Prop where
  stores : w.Stores m.store n.store
  first : m.current = w.first
  second : n.current = w.second
  paired : w.Over w.first w.second
  functions : n.functionCount = m.functionCount
  calls : n.hostCalls = m.hostCalls
  output : n.output = m.output

def Settled (w : Padding) : Prop := w.second = w.place w.first

end Padding

def Worlds.padding : Worlds Machine Machine where
  World := Padding
  later := Padding.Later
  settled := Padding.Settled
  rename := Padding.place
  good w := Value.Within (· < w.size)
  state := Padding.State
  allowed _ := True
  lenient := False
  refl w := ⟨.refl w, rfl, rfl⟩
  trans earlier later :=
    ⟨earlier.grows.trans later.grows, later.first.trans earlier.first,
      later.second.trans earlier.second⟩
  settle := by
    intro w w' later settled
    rw [Padding.Settled, later.first, later.second, later.grows.place _ w.inside]
    exact settled
  keep later within := ⟨within.mono later.grows.size, Value.rename_congr within later.grows.place⟩
  literal _ l := by cases l <;> trivial

namespace Padding.State

variable {w w' : Padding} {m n : Machine} (state : w.State m n)
include state

theorem define {k : Nat} (less : k < w.size) (name : String) {value : Value}
    (good : value.Within (· < w.size)) :
    w.State { m with store := m.store.define k name value }
      { n with store := n.store.define (w.place k) name (value.rename w.place) } :=
  { state with stores := state.stores.define less name good }

theorem enter {f g : Frame} (fits : w.Fits f g) :
    (w.enter n.store.size).State (m.inside f) (n.inside g) where
  stores := state.stores.enter fits
  first := state.stores.size
  second := rfl
  paired := ⟨Nat.lt_succ_self _, .inl (if_pos rfl).symm⟩
  functions := state.functions
  calls := state.calls
  output := state.output

theorem pad (settled : w.Settled) :
    (w.pad n.store.size).State m (n.inside ⟨[], some n.current⟩) where
  stores := by
    rw [state.second, settled]
    exact state.stores.pad
  first := state.first
  second := rfl
  paired := ⟨w.inside, .inr List.mem_cons_self⟩
  functions := state.functions
  calls := state.calls
  output := state.output

theorem back {m' n' : Machine} (grows : w.Grows w') (state' : w'.State m' n') :
    (w'.back w grows).State { m' with current := m.current } { n' with current := n.current } where
  stores := by
    obtain ⟨size, ordered, ordered', increasing, frames, empty, covered⟩ := state'.stores
    refine ⟨size, ordered, ordered', increasing, ?_, ?_, covered⟩
    · intro k f found
      obtain ⟨g, found', fits⟩ := frames k f found
      exact ⟨g, found', fits.bindings, fits.values, fits.link⟩
    · intro j i member
      exact ⟨(empty j i member).inside, (empty j i member).frame, (empty j i member).apart⟩
  first := state.first
  second := state.second
  paired := state.paired.grow (later_back grows).grows
  functions := state'.functions
  calls := state'.calls
  output := state'.output

end Padding.State

namespace Worlds.padding

variable {w : Padding} {m n : Machine}

theorem ends_stateless {x : Eval Value} (state : w.State m n)
    (stateless : Stateless (¬ ·.IsFunction) x) : padding.Ends w .value (x m) (x n) := by
  rcases stateless with ⟨a, none, rfl⟩ | ⟨why, rfl⟩
  · have ends : padding.Ends w .value (.ok a m) (.ok (a.rename w.place) n) :=
      .ok (padding.refl w) state (Value.within_of_not_function none (· < w.size))
    rwa [Value.rename_of_not_function none] at ends
  · exact .error (padding.refl w) state trivial

theorem ends_act {natives : List Native} (uniform : ∀ f ∈ natives, f.Uniform) {α : Type} (x : Act α)
    (given : x.Given (Value.Within (· < w.size))) (settled : x.mode = .statement → w.Settled)
    (state : w.State m n) :
    padding.Ends w x.shape (x.perform natives m) ((x.rename w.place).perform natives n) := by
  have same : padding.later w w := padding.refl w
  have paired : w.Over m.current n.current := by
    rw [state.first, state.second]
    exact state.paired
  have here (settled : w.Settled) : w.place m.current = n.current := by
    rw [state.first, state.second]
    exact settled.symm
  cases x with
  | unary op v =>
    rw [Act.rename, Act.perform, Act.perform, unaryValue_rename]
    exact ends_stateless state (unaryValue_stateless op v)
  | binary op v v' =>
    rw [Act.rename, Act.perform, Act.perform, binaryValue_rename]
    exact ends_stateless state (binaryValue_stateless op v v')
  | checkCount paren expected count =>
    rw [Act.rename, Act.perform, Lox.checkCount]
    split
    · exact .ok (s := .unit) same state trivial
    · exact .error same state trivial
  | lookup name =>
    obtain ⟨found, within⟩ := state.stores.lookup name.lexeme paired
    rw [Act.rename, Act.perform, Machine.lookup_eq, Machine.lookup_eq, found]
    cases value : m.store.lookup? name.lexeme m.current with
    | none => exact .error same state trivial
    | some v => exact .ok (s := .value) same state (within v value)
  | assign name v =>
    rw [Act.rename, Act.perform, Act.perform, Machine.assign_eq, Machine.assign_eq,
      state.stores.resolve name.lexeme paired]
    cases means : m.store.resolve? name.lexeme m.current with
    | none => exact .error same state trivial
    | some k =>
      obtain ⟨f, found, -⟩ := Store.mem_names_of_resolve means
      have there : k < w.size := state.stores.size ▸ Store.lt_size_of_frame found
      exact .ok (s := .value) same (state.define there name.lexeme given) given
  | define name v =>
    have bound := state.define paired.1 name given
    rw [here (settled rfl)] at bound
    exact .ok (s := .unit) same bound trivial
  | print v =>
    have printed : n.output.push (v.rename w.place).render = m.output.push v.render := by
      rw [state.output, Value.render_rename]
    exact .ok (s := .unit) same { state with output := printed } trivial
  | declare name params body =>
    have captured : (Value.function ⟨m.functionCount, name, params, body, m.current⟩).Within
        (· < w.size) := paired.1
    have renamed : (Value.function ⟨m.functionCount, name, params, body, m.current⟩).rename w.place =
        .function ⟨n.functionCount, name, params, body, n.current⟩ := by
      simp only [Value.rename, Closure.rename, here (settled rfl), state.functions]
    have bound := state.define paired.1 name.lexeme captured
    rw [here (settled rfl), renamed] at bound
    exact .ok (s := .unit) same { bound with functions := congrArg (· + 1) state.functions } trivial
  | native ref args =>
    rw [Act.rename, Act.perform, Act.perform, Machine.callNative_eq, Machine.callNative_eq]
    cases found : natives[ref.slot]? with
    | none => exact .error same state trivial
    | some f =>
      have member := List.mem_of_getElem? found
      simp only
      rw [uniform f member, state.calls]
      refine .ok (s := .value) same { state with calls := rfl } ?_
      exact (uniform f member).within m.hostCalls given

theorem runs_inFrame (frame frame' : Machine → Frame) {x y : Eval Completion}
    (fits : ∀ m n, w.State m n → w.Fits (frame m) (frame' n))
    (inner : ∀ w, padding.Runs w .statement .completion x y) :
    padding.Runs w .expression .completion (fun m => Machine.inFrame (frame m) x m)
      fun n => Machine.inFrame (frame' n) y n := by
  intro _ m n state
  have entered := state.enter (fits m n state)
  have ends := inner (w.enter n.store.size) (fun _ => (if_pos rfl).symm) _ _ entered
  simp only [Machine.inFrame_eq]
  generalize x _ = r at ends ⊢
  generalize y _ = r' at ends ⊢
  cases ends with
  | ok later state' good =>
    have grows := (w.grows_enter n.store.size).trans later.grows
    have ended : padding.Ends w .completion _ _ :=
      .ok (Padding.later_back grows) (state.back grows state') good
    exact ended
  | error later state' allowed =>
    have grows := (w.grows_enter n.store.size).trans later.grows
    exact .error (Padding.later_back grows) (state.back grows state') allowed
  | spent lenient => exact lenient.elim

/-- Code that binds nothing in its own scope runs the same in an empty frame. -/
theorem runs_pad {x y : Eval Completion} (inner : ∀ w, padding.Runs w .expression .completion x y) :
    padding.Runs w .statement .completion x
      fun n => Machine.inFrame ⟨[], some n.current⟩ y n := by
  intro settled m n state
  have padded := state.pad (settled rfl)
  have ends := inner (w.pad n.store.size) nofun _ _ padded
  simp only [Machine.inFrame_eq]
  generalize x m = r at ends ⊢
  generalize y _ = r' at ends ⊢
  -- The first run never left its scope.
  have still {w' : Padding} {m' n' : Machine} (later : (w.pad n.store.size).Later w')
      (state' : w'.State m' n') : { m' with current := m.current } = m' := by
    rw [state.first, show w.first = m'.current from (state'.first.trans later.first).symm]
  cases ends with
  | ok later state' good =>
    have grows := (w.grows_pad n.store.size).trans later.grows
    have ended : padding.Ends w .completion _ _ :=
      .ok (Padding.later_back grows) (state.back grows state') good
    rw [still later state'] at ended
    exact ended
  | error later state' allowed =>
    have grows := (w.grows_pad n.store.size).trans later.grows
    have ended := state.back grows state'
    rw [still later state'] at ended
    exact .error (Padding.later_back grows) ended allowed
  | spent lenient => exact lenient.elim

theorem lockstep {natives : List Native} (uniform : ∀ f ∈ natives, f.Uniform) :
    Runner.Lockstep padding (Runner.machine natives) (Runner.machine natives) fun _ => True where
  throws _ := rfl
  throws' _ := rfl
  allows _ := trivial
  body _ := Stmt.everyOf_of_forall (fun _ => trivial) _
  act x given _ settled _ _ state := ends_act uniform x given settled state
  block inner := by
    refine runs_inFrame (fun m => ⟨[], some m.current⟩) (fun n => ⟨[], some n.current⟩) ?_ inner
    intro m n state
    refine ⟨rfl, nofun, .inr ⟨_, _, rfl, rfl, ?_⟩⟩
    rw [state.first, state.second]
    exact state.paired
  enter := by
    intro w f args x y callee given inner
    refine runs_inFrame (fun _ => f.callFrame args)
      (fun _ => (f.rename w.place).callFrame (args.map (·.rename w.place))) ?_ inner
    intro m n state
    exact ⟨f.callFrame_rename w.place args, f.callFrame_values given,
      .inr ⟨_, _, rfl, rfl, callee, .inl rfl⟩⟩

end Worlds.padding

end Lox
