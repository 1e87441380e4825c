import Lox.Proofs.Frames

/- Laws of environments. Frames make a forest, each with at most one link and that to an earlier
   frame, so from every frame there is one way outwards. A name means the first frame on that way that
   binds it. What one write does to every reader is told by the ways on which the changed frame is
   seen. -/
namespace Lox
namespace Store

/-- The frames on the way outwards from a frame, itself the first. -/
inductive Outwards (s : Store) : Nat → List Nat → Prop where
  | root {i : Nat} {f : Frame} (found : s.frame? i = some f) (out : f.enclosing = none) :
      Outwards s i [i]
  | inside {i outer : Nat} {f : Frame} {path : List Nat} (found : s.frame? i = some f)
      (out : f.enclosing = some outer) (others : Outwards s outer path) : Outwards s i (i :: path)

def binding? (s : Store) (k : Nat) (name : String) : Option Value :=
  (s.frame? k).bind (·.get? name)

/-- On the way outwards from `i` no frame before `k` binds the name. -/
def Sees (s : Store) (name : String) (i k : Nat) : Prop :=
  ∃ nearer farther, s.Outwards i (nearer ++ k :: farther) ∧ ∀ j ∈ nearer, s.binding? j name = none

/-- The first frame on the way outwards from `i` that binds the name is `k`. -/
def Resolves (s : Store) (name : String) (i k : Nat) : Prop :=
  s.Sees name i k ∧ (s.binding? k name).isSome

/-- The stores that can be made: frames are created outermost or inside an earlier one, and bindings
are made and changed. Reading leaves a store as it is. -/
inductive Built : Store → Prop where
  | empty : Built .empty
  | root {s : Store} (built : Built s) : Built (s.push ⟨[], none⟩)
  | inside {s : Store} {i : Nat} (built : Built s) (there : i < s.size) :
      Built (s.push ⟨[], some i⟩)
  | define {s : Store} (built : Built s) (i : Nat) (name : String) (value : Value) :
      Built (s.define i name value)
  | assign {s : Store} (built : Built s) (name : Token) (value : Value) (i : Nat) :
      Built (s.assign name value i).2

def Forest (s : Store) : Prop := ∀ i f, s.frame? i = some f → ∀ outer ∈ f.enclosing, outer < i

/-- One binding of one frame of `s` was made or changed, and nothing else. -/
structure ChangedAt (s : Store) (k : Nat) (name : String) (value : Value) (t : Store) : Prop where
  frames : ∀ j, j ≠ k → t.frame? j = s.frame? j
  links : ∀ j, (t.frame? j).map Frame.enclosing = (s.frame? j).map Frame.enclosing
  bindings : ∀ j y, t.binding? j y = if j = k ∧ y = name then some value else s.binding? j y

section Ways

variable {s t : Store} {i k : Nat} {f : Frame} {name : String}

theorem binding_of_frame (found : s.frame? i = some f) : s.binding? i name = f.get? name := by
  rw [binding?, found, Option.bind_some]

theorem Outwards.head {path : List Nat} (way : s.Outwards i path) : ∃ rest, path = i :: rest := by
  cases way with
  | root => exact ⟨[], rfl⟩
  | inside => exact ⟨_, rfl⟩

theorem Outwards.frame {path : List Nat} (way : s.Outwards i path) : ∃ f, s.frame? i = some f := by
  cases way with
  | root found => exact ⟨_, found⟩
  | inside found => exact ⟨_, found⟩

theorem Outwards.unique {path other : List Nat} (way : s.Outwards i path)
    (way' : s.Outwards i other) : path = other := by
  induction way generalizing other with
  | root found out =>
    cases way' with
    | root => rfl
    | inside found' out' =>
      cases found.symm.trans found'
      cases out.symm.trans out'
  | inside found out _ ih =>
    cases way' with
    | root found' out' =>
      cases found.symm.trans found'
      cases out.symm.trans out'
    | inside found' out' others =>
      cases found.symm.trans found'
      cases out.symm.trans out'
      rw [ih others]

theorem Outwards.of_links {path : List Nat} (way : s.Outwards i path)
    (links : ∀ j f, s.frame? j = some f → ∃ g, t.frame? j = some g ∧ g.enclosing = f.enclosing) :
    t.Outwards i path := by
  induction way with
  | root found out =>
    obtain ⟨g, found', link⟩ := links _ _ found
    exact .root found' (link.trans out)
  | inside found out _ ih =>
    obtain ⟨g, found', link⟩ := links _ _ found
    exact .inside found' (link.trans out) ih

theorem Outwards.congr {path : List Nat} (way : s.Outwards i path)
    (links : ∀ j, (t.frame? j).map Frame.enclosing = (s.frame? j).map Frame.enclosing) :
    t.Outwards i path := by
  refine way.of_links fun j f found => ?_
  have link := links j
  rw [found] at link
  exact Option.map_eq_some_iff.mp link

end Ways

section Writes

variable {s : Store}

/-- A write changes at most what one frame binds to one name. -/
theorem frame_after_define {j : Nat} {f : Frame} (found : s.frame? j = some f) (k : Nat)
    (name : String) (value : Value) :
    ∃ g, (s.define k name value).frame? j = some g ∧ g.enclosing = f.enclosing ∧
      ∀ y, g.get? y = if j = k ∧ y = name then some value else f.get? y := by
  rw [frame_define, found]
  by_cases same : k = j
  · refine ⟨f.define name value, if_pos same, rfl, fun y => ?_⟩
    simp only [Frame.get_define, same, true_and]
  · refine ⟨f, if_neg same, rfl, fun y => ?_⟩
    rw [if_neg fun both => same both.1.symm]

theorem missing_after_define {j : Nat} (missing : s.frame? j = none) (k : Nat) (name : String)
    (value : Value) : (s.define k name value).frame? j = none := by
  rw [frame_define, missing]
  exact ite_self none

theorem links_define (s : Store) (k : Nat) (name : String) (value : Value) (j : Nat) :
    ((s.define k name value).frame? j).map Frame.enclosing = (s.frame? j).map Frame.enclosing := by
  cases found : s.frame? j with
  | none => rw [missing_after_define found]
  | some f =>
    obtain ⟨g, found', link, -⟩ := frame_after_define found k name value
    rw [found', Option.map_some, Option.map_some, link]

theorem binding_define {k : Nat} {f : Frame} (found : s.frame? k = some f) (name : String)
    (value : Value) (j : Nat) (y : String) :
    (s.define k name value).binding? j y =
      if j = k ∧ y = name then some value else s.binding? j y := by
  cases there : s.frame? j with
  | none =>
    have other : j ≠ k := by
      rintro rfl
      cases found.symm.trans there
    simp [binding?, missing_after_define there, there, other]
  | some g =>
    obtain ⟨g', there', -, gets⟩ := frame_after_define there k name value
    rw [binding_of_frame there', binding_of_frame there, gets]

theorem changedAt_define {k : Nat} {f : Frame} (found : s.frame? k = some f) (name : String)
    (value : Value) : s.ChangedAt k name value (s.define k name value) where
  frames j other := by rw [frame_define, if_neg (Ne.symm other)]
  links := s.links_define k name value
  bindings := binding_define found name value

end Writes

namespace Forest

variable {s : Store}

theorem push (forest : s.Forest) {f : Frame} (link : ∀ outer ∈ f.enclosing, outer < s.size) :
    (s.push f).Forest := by
  intro i g found outer out
  rw [frame_push] at found
  split at found
  · rename_i last
    cases found
    exact last ▸ link outer out
  · exact forest i g found outer out

theorem define (forest : s.Forest) (k : Nat) (name : String) (value : Value) :
    (s.define k name value).Forest := by
  intro i g found outer out
  have link := s.links_define k name value i
  rw [found, Option.map_some] at link
  obtain ⟨f, found', same⟩ := Option.map_eq_some_iff.mp link.symm
  exact forest i f found' outer (same ▸ out)

theorem assign (forest : s.Forest) (name : Token) (value : Value) (i : Nat) :
    (s.assign name value i).2.Forest := by
  unfold Store.assign
  split
  · exact forest.define _ _ _
  · exact forest

end Forest

theorem Built.forest {s : Store} (built : s.Built) : s.Forest := by
  induction built with
  | empty =>
    intro i f found
    simp [Store.empty, frame?] at found
  | root _ ih => exact ih.push nofun
  | inside _ there ih =>
    refine ih.push fun outer out => ?_
    cases out
    exact there
  | define _ i name value ih => exact ih.define i name value
  | assign _ name value i ih => exact ih.assign name value i

section Forests

variable {s : Store} (forest : s.Forest) {i k : Nat} {f : Frame} {name : String} {value : Value}
include forest

theorem Forest.outwards (found : s.frame? i = some f) : ∃ path, s.Outwards i path := by
  induction i using Nat.strongRecOn generalizing f with
  | ind i ih =>
    cases out : f.enclosing with
    | none => exact ⟨[i], .root found out⟩
    | some outer =>
      have earlier := forest i f found outer out
      have there := Nat.lt_trans earlier (lt_size_of_frame found)
      obtain ⟨g, found'⟩ := exists_frame there
      obtain ⟨path, way⟩ := ih outer earlier found'
      exact ⟨i :: path, .inside found out way⟩

theorem Forest.sees_iff (found : s.frame? i = some f) :
    s.Sees name i k ↔
      k = i ∨ f.get? name = none ∧ ∃ outer, f.enclosing = some outer ∧ s.Sees name outer k := by
  constructor
  · rintro ⟨nearer, farther, way, free⟩
    cases nearer with
    | nil =>
      obtain ⟨rest, path⟩ := way.head
      exact .inl (List.cons.inj path).1
    | cons j nearer =>
      obtain ⟨first, later⟩ := List.forall_mem_cons.mp free
      generalize path : j :: nearer ++ k :: farther = whole at way
      cases way with
      | root => simp at path
      | inside found' out others =>
        cases found.symm.trans found'
        obtain ⟨rfl, rfl⟩ := List.cons.inj path
        rw [binding_of_frame found] at first
        exact .inr ⟨first, _, out, nearer, farther, others, later⟩
  · rintro (rfl | ⟨unbound, outer, out, nearer, farther, way, free⟩)
    · obtain ⟨path, way⟩ := forest.outwards found
      obtain ⟨rest, rfl⟩ := way.head
      exact ⟨[], rest, way, List.forall_mem_nil _⟩
    · refine ⟨i :: nearer, farther, .inside found out way, List.forall_mem_cons.mpr ⟨?_, free⟩⟩
      rw [binding_of_frame found]
      exact unbound

/-- A name is searched for as it resolves. -/
theorem Forest.resolve_iff : s.resolve? name i = some k ↔ s.Resolves name i k := by
  induction i using Nat.strongRecOn with
  | ind i ih =>
    rw [resolve?, Resolves]
    cases found : s.frame? i with
    | none =>
      have unseen : ¬ s.Sees name i k := by
        rintro ⟨nearer, farther, way, -⟩
        obtain ⟨f, there⟩ := way.frame
        rw [found] at there
        cases there
      simp [unseen]
    | some f =>
      rw [forest.sees_iff found]
      simp only
      cases bound : f.get? name with
      | some value =>
        simp only [Option.isSome_some, if_true, Option.some.injEq, reduceCtorEq, false_and, or_false]
        constructor
        · rintro rfl
          rw [binding_of_frame found, bound]
          exact ⟨rfl, rfl⟩
        · exact fun both => both.1.symm
      | none =>
        have other (binds : (s.binding? k name).isSome) : k ≠ i := by
          rintro rfl
          rw [binding_of_frame found, bound] at binds
          cases binds
        simp only [Option.isSome_none, Bool.false_eq_true, if_false, true_and]
        cases out : f.enclosing with
        | none =>
          simp only [reduceCtorEq, false_and, exists_false, or_false, false_iff, not_and]
          exact fun same binds => other binds same
        | some outer =>
          have earlier := forest i f found outer out
          simp only [earlier, if_true, ih outer earlier, Resolves, Option.some.injEq,
            exists_eq_left']
          constructor
          · exact fun both => ⟨.inr both.1, both.2⟩
          · rintro ⟨same | seen, binds⟩
            · exact absurd same (other binds)
            · exact ⟨seen, binds⟩

theorem Forest.lookup_eq (found : s.frame? i = some f) :
    s.lookup? name i = (f.get? name).or (f.enclosing.bind (s.lookup? name)) := by
  rw [lookup?, resolve?, found]
  simp only
  cases bound : f.get? name with
  | some value => simp [found, bound]
  | none =>
    cases out : f.enclosing with
    | none => simp
    | some outer => simp [forest i f found outer out, lookup?]

end Forests

section Readers

variable {s : Store} {i j k : Nat} {name : String}

theorem not_sees_of_missing (missing : s.frame? i = none) : ¬ s.Sees name i k := by
  rintro ⟨nearer, farther, way, -⟩
  obtain ⟨f, found⟩ := way.frame
  cases found.symm.trans missing

theorem lookup_of_missing (missing : s.frame? i = none) : s.lookup? name i = none := by
  rw [lookup?, resolve?, missing]
  rfl

/-- A name made or changed in a frame has its new value for those who see the frame, and all else is
read as before. -/
theorem Forest.lookup_define (forest : s.Forest) (k : Nat) (name : String) (value : Value)
    (y : String) (j : Nat) :
    (y = name ∧ s.Sees y j k → (s.define k name value).lookup? y j = some value) ∧
      (¬ (y = name ∧ s.Sees y j k) → (s.define k name value).lookup? y j = s.lookup? y j) := by
  induction j using Nat.strongRecOn with
  | ind j ih =>
    cases found : s.frame? j with
    | none =>
      rw [lookup_of_missing found, lookup_of_missing (missing_after_define found k name value)]
      exact ⟨fun both => absurd both.2 (not_sees_of_missing found), fun _ => rfl⟩
    | some f =>
      obtain ⟨g, found', link, gets⟩ := frame_after_define found k name value
      rw [(forest.define k name value).lookup_eq found', forest.lookup_eq found, link, gets,
        forest.sees_iff found]
      constructor
      · rintro ⟨rfl, seen⟩
        by_cases here : j = k
        · simp [here]
        · rcases seen with same | ⟨unbound, outer, out, seen⟩
          · exact absurd same.symm here
          · have later := (ih outer (forest j f found outer out)).1 ⟨rfl, seen⟩
            simp [here, unbound, out, later]
      · intro other
        have elsewhere : ¬ (j = k ∧ y = name) := fun both => other ⟨both.2, .inl both.1.symm⟩
        rw [if_neg elsewhere]
        cases bound : f.get? y with
        | some old => rfl
        | none =>
          cases out : f.enclosing with
          | none => rfl
          | some outer =>
            refine (ih outer (forest j f found outer out)).2 fun both => other ?_
            exact ⟨both.1, .inr ⟨bound, outer, out, both.2⟩⟩

theorem frame_of_binding (bound : (s.binding? k name).isSome) : ∃ f, s.frame? k = some f := by
  obtain ⟨f, found, -⟩ := Option.bind_eq_some_iff.mp (Option.eq_some_of_isSome bound)
  exact ⟨f, found⟩

theorem resolves_define_bound (bound : (s.binding? k name).isSome) (value : Value) (y : String)
    (i l : Nat) : (s.define k name value).Resolves y i l ↔ s.Resolves y i l := by
  obtain ⟨f, found⟩ := frame_of_binding bound
  have links := s.links_define k name value
  have binds (j : Nat) (y : String) :
      ((s.define k name value).binding? j y).isSome = (s.binding? j y).isSome := by
    rw [binding_define found]
    split
    · rename_i both
      rw [both.1, both.2, bound]
      rfl
    · rfl
  have unbound (j : Nat) (y : String) :
      (s.define k name value).binding? j y = none ↔ s.binding? j y = none := by
    rw [← Option.not_isSome_iff_eq_none, ← Option.not_isSome_iff_eq_none, binds]
  unfold Resolves Sees
  rw [binds]
  simp only [unbound]
  constructor
  · rintro ⟨⟨nearer, farther, way, free⟩, binds⟩
    exact ⟨⟨nearer, farther, way.congr fun j => (links j).symm, free⟩, binds⟩
  · rintro ⟨⟨nearer, farther, way, free⟩, binds⟩
    exact ⟨⟨nearer, farther, way.congr links, free⟩, binds⟩

theorem Forest.lookup_iff (forest : s.Forest) {value : Value} :
    s.lookup? name i = some value ↔ ∃ k, s.Resolves name i k ∧ s.binding? k name = some value := by
  rw [lookup?, Option.bind_eq_some_iff]
  simp only [forest.resolve_iff]
  rfl

theorem Forest.lookup_of_resolves (forest : s.Forest) (resolves : s.Resolves name i k) :
    ∃ value, s.lookup? name i = some value := by
  obtain ⟨value, binds⟩ := Option.isSome_iff_exists.mp resolves.2
  exact ⟨value, forest.lookup_iff.mpr ⟨k, resolves, binds⟩⟩

theorem Forest.lookup_eq_none_iff (forest : s.Forest) :
    s.lookup? name i = none ↔ ∀ k, ¬ s.Resolves name i k := by
  constructor
  · intro none k resolves
    obtain ⟨value, found⟩ := forest.lookup_of_resolves resolves
    cases none.symm.trans found
  · intro never
    refine Option.eq_none_iff_forall_ne_some.mpr fun value found => ?_
    obtain ⟨k, resolves, -⟩ := forest.lookup_iff.mp found
    exact never k resolves

theorem get_eq_ok_iff {token : Token} {value : Value} :
    s.get token i = .ok value ↔ s.lookup? token.lexeme i = some value := by
  unfold get
  split
  · rename_i found
    simp [found]
  · rename_i missing
    simp [missing]

theorem Forest.get_eq_error_iff (forest : s.Forest) {token : Token} {fault : Fault} :
    s.get token i = .error fault ↔ (∀ k, ¬ s.Resolves token.lexeme i k) ∧
      fault = ⟨.undefinedVariable token.lexeme, token.line⟩ := by
  rw [← forest.lookup_eq_none_iff, get]
  split
  · rename_i found
    simp [found]
  · rename_i missing
    simp [missing, undefined, eq_comm]

theorem Forest.assign_of_resolves (forest : s.Forest) {token : Token}
    (resolves : s.Resolves token.lexeme i k) (value : Value) :
    s.assign token value i = (.ok value, s.define k token.lexeme value) := by
  rw [Store.assign, forest.resolve_iff.mpr resolves]

theorem Forest.assign_of_never (forest : s.Forest) {token : Token}
    (never : ∀ k, ¬ s.Resolves token.lexeme i k) (value : Value) :
    s.assign token value i = (.error ⟨.undefinedVariable token.lexeme, token.line⟩, s) := by
  have missing : s.resolve? token.lexeme i = none :=
    Option.eq_none_iff_forall_ne_some.mpr fun k found => never k (forest.resolve_iff.mp found)
  rw [Store.assign, missing]
  rfl

end Readers

/-- Laws of environments, in every store that can be made. From each frame there is one way outwards,
and a name resolves to the first frame on it that binds the name. Reading gives what that frame binds,
and fails with the name and the line exactly when there is none. Assigning succeeds exactly when
reading does, changes that one binding, which those who resolve to the frame then read, and no
resolution; a failed assignment changes nothing. A definition is read by those who see its frame with
the name unbound before it, and all else is read as before. -/
theorem environment_laws {s : Store} (built : s.Built) :
    (∀ i < s.size, ∃ path, ∀ other, s.Outwards i other ↔ other = path) ∧
    (∀ name i k, s.resolve? name i = some k ↔ s.Resolves name i k) ∧
    (∀ name i value, s.lookup? name i = some value ↔
      ∃ k, s.Resolves name i k ∧ s.binding? k name = some value) ∧
    (∀ (token : Token) i,
      (∀ value, s.get token i = .ok value ↔ s.lookup? token.lexeme i = some value) ∧
      ∀ fault, s.get token i = .error fault ↔ (∀ k, ¬ s.Resolves token.lexeme i k) ∧
        fault = ⟨.undefinedVariable token.lexeme, token.line⟩) ∧
    (∀ (token : Token) i value,
      ((∃ old, s.get token i = .ok old) ↔ (s.assign token value i).1 = .ok value) ∧
      (∀ k, s.Resolves token.lexeme i k → ∃ t, s.assign token value i = (.ok value, t) ∧
        s.ChangedAt k token.lexeme value t ∧
        (∀ y j l, t.Resolves y j l ↔ s.Resolves y j l) ∧
        ∀ y j, (y = token.lexeme ∧ s.Resolves y j k → t.lookup? y j = some value) ∧
          (¬ (y = token.lexeme ∧ s.Resolves y j k) → t.lookup? y j = s.lookup? y j)) ∧
      ((∀ k, ¬ s.Resolves token.lexeme i k) →
        s.assign token value i = (.error ⟨.undefinedVariable token.lexeme, token.line⟩, s))) ∧
    ∀ i < s.size, ∀ name value, s.ChangedAt i name value (s.define i name value) ∧
      ∀ y j, (y = name ∧ s.Sees y j i → (s.define i name value).lookup? y j = some value) ∧
        (¬ (y = name ∧ s.Sees y j i) →
          (s.define i name value).lookup? y j = s.lookup? y j) := by
  have forest := built.forest
  refine ⟨?_, ?_, ?_, ?_, ?_, ?_⟩
  · intro i there
    obtain ⟨f, found⟩ := exists_frame there
    obtain ⟨path, way⟩ := forest.outwards found
    refine ⟨path, fun other => ⟨fun way' => way'.unique way, ?_⟩⟩
    rintro rfl
    exact way
  · exact fun name i k => forest.resolve_iff
  · exact fun name i value => forest.lookup_iff
  · exact fun token i => ⟨fun value => get_eq_ok_iff, fun fault => forest.get_eq_error_iff⟩
  · intro token i value
    refine ⟨⟨?_, ?_⟩, ?_, fun never => forest.assign_of_never never value⟩
    · rintro ⟨old, read⟩
      obtain ⟨k, resolves, -⟩ := forest.lookup_iff.mp (get_eq_ok_iff.mp read)
      rw [forest.assign_of_resolves resolves]
    · intro done
      apply Classical.byContradiction
      intro fails
      have never (k : Nat) : ¬ s.Resolves token.lexeme i k := by
        intro resolves
        obtain ⟨old, found⟩ := forest.lookup_of_resolves resolves
        exact fails ⟨old, get_eq_ok_iff.mpr found⟩
      rw [forest.assign_of_never never] at done
      cases done
    · intro k resolves
      obtain ⟨f, found⟩ := frame_of_binding resolves.2
      refine ⟨_, forest.assign_of_resolves resolves value, changedAt_define found _ value,
        resolves_define_bound resolves.2 value, fun y j => ?_⟩
      -- The name is bound in the changed frame, so to see the frame is to resolve to it.
      have same : y = token.lexeme ∧ s.Resolves y j k ↔ y = token.lexeme ∧ s.Sees y j k := by
        constructor
        · exact fun both => ⟨both.1, both.2.1⟩
        · rintro ⟨rfl, seen⟩
          exact ⟨rfl, seen, resolves.2⟩
      rw [same]
      exact forest.lookup_define k token.lexeme value y j
  · intro i there name value
    obtain ⟨f, found⟩ := exists_frame there
    exact ⟨changedAt_define found name value, forest.lookup_define i name value⟩

/-- Of two frames inside one, what is assigned from the first is read from the second, until the
second has a binding of its own. -/
theorem environment_laws_siblings :
    let a : Token := ⟨.identifier, "a", 1⟩
    let s := (((Store.empty.push ⟨[], none⟩).push ⟨[], some 0⟩).push ⟨[], some 0⟩).define 0 "a" .nil
    let t := (s.assign a (.bool true) 1).2
    s.Built ∧ t.lookup? "a" 2 = some (.bool true) ∧
      (t.define 2 "a" .nil).lookup? "a" 2 = some .nil := by
  intro a s t
  have built : s.Built :=
    .define (.inside (.inside (.root .empty) (by decide)) (by decide)) 0 "a" .nil
  have laws := environment_laws built
  have first : s.Resolves "a" 1 0 := (laws.2.1 "a" 1 0).mp (by decide +kernel)
  have second : s.Resolves "a" 2 0 := (laws.2.1 "a" 2 0).mp (by decide +kernel)
  obtain ⟨t', eq, changed, -, reads⟩ := (laws.2.2.2.2.1 a 1 (.bool true)).2.1 0 first
  have same : t = t' := congrArg Prod.snd eq
  have way : t.Outwards 2 [2, 0] :=
    same ▸ (Outwards.inside rfl rfl (.root rfl rfl)).congr changed.links
  have there : 2 < t.size := lt_size_of_frame way.frame.choose_spec
  have defines := (environment_laws (.assign built a (.bool true) 1)).2.2.2.2.2 2 there "a" .nil
  refine ⟨built, ?_, (defines.2 "a" 2).1 ⟨rfl, [], [0], way, List.forall_mem_nil _⟩⟩
  rw [same]
  exact (reads "a" 2).1 ⟨rfl, second⟩

end Store
end Lox
