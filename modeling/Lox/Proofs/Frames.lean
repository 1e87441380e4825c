import Lox.Proofs.Related

/- What single actions do to frames. An action changes at most one binding, and adds one only in the
   current frame; a scope adds one frame and leaves the rest to what runs inside it. -/
namespace Lox

def Frame.names (f : Frame) : List String := f.bindings.map Prod.fst

namespace Frame

theorem get_isSome_iff (f : Frame) (name : String) : (f.get? name).isSome ↔ name ∈ f.names := by
  obtain ⟨bindings, enclosing⟩ := f
  unfold get? names
  induction bindings with
  | nil => simp
  | cons binding rest ih =>
    obtain ⟨other, value⟩ := binding
    by_cases same : name = other
    · simp [same]
    · have differs : (name == other) = false := beq_eq_false_iff_ne.mpr same
      simp only [List.lookup_cons, differs, List.map_cons, List.mem_cons, same, false_or]
      exact ih

theorem define_names (f : Frame) (name : String) (value : Value) :
    (f.define name value).names = if name ∈ f.names then f.names else f.names ++ [name] := by
  obtain ⟨bindings, enclosing⟩ := f
  unfold define names
  induction bindings with
  | nil => simp [bindName]
  | cons binding rest ih =>
    obtain ⟨other, old⟩ := binding
    by_cases same : other = name
    · simp [bindName, same]
    · have differs : ¬ name = other := fun eq => same eq.symm
      simp only [bindName, same, if_false, List.map_cons, List.mem_cons, differs, false_or] at ih ⊢
      rw [ih]
      split <;> simp

theorem names_subset_define (f : Frame) (name : String) (value : Value) :
    f.names ⊆ (f.define name value).names := by
  rw [define_names]
  split
  · exact List.Subset.refl _
  · exact List.subset_append_left _ _

theorem get_define (f : Frame) (name other : String) (value : Value) :
    (f.define name value).get? other = if other = name then some value else f.get? other := by
  obtain ⟨bindings, enclosing⟩ := f
  unfold define get?
  induction bindings with
  | nil =>
    by_cases same : other = name
    · simp [bindName, same]
    · simp [bindName, List.lookup_cons, beq_eq_false_iff_ne.mpr same, same]
  | cons binding rest ih =>
    obtain ⟨key, old⟩ := binding
    by_cases bound : key = name
    · by_cases same : other = name
      · simp [bindName, bound, same]
      · simp [bindName, bound, List.lookup_cons, beq_eq_false_iff_ne.mpr same, same]
    · by_cases found : other = key
      · simp [bindName, bound, found]
      · simp only [bindName, bound, if_false, List.lookup_cons, beq_eq_false_iff_ne.mpr found] at ih ⊢
        exact ih

end Frame

theorem mem_bindName {name : String} {value : Value} {bindings : List (String × Value)}
    {binding : String × Value} (member : binding ∈ bindName name value bindings) :
    binding = (name, value) ∨ binding ∈ bindings := by
  induction bindings with
  | nil => exact .inl (List.mem_singleton.mp member)
  | cons other rest ih =>
    obtain ⟨key, old⟩ := other
    simp only [bindName] at member
    split at member
    · rcases List.mem_cons.mp member with rfl | member
      · exact .inl rfl
      · exact .inr (List.mem_cons_of_mem _ member)
    · rcases List.mem_cons.mp member with rfl | member
      · exact .inr List.mem_cons_self
      · exact (ih member).imp_right (List.mem_cons_of_mem _)

theorem mem_of_lookup {name : String} {value : Value} {bindings : List (String × Value)}
    (found : bindings.lookup name = some value) : (name, value) ∈ bindings := by
  induction bindings with
  | nil => cases found
  | cons binding rest ih =>
    obtain ⟨key, old⟩ := binding
    rw [List.lookup_cons] at found
    split at found
    · rename_i same
      cases found
      rw [beq_iff_eq.mp same]
      exact List.mem_cons_self
    · exact List.mem_cons_of_mem _ (ih found)

theorem Closure.callFrame_values {good : Value → Prop} (f : Closure) {args : List Value}
    (given : ∀ v ∈ args, good v) : ∀ binding ∈ (f.callFrame args).bindings, good binding.2 := by
  have along : ∀ (pairs : List (Token × Value)) (bindings : List (String × Value)),
      (∀ pair ∈ pairs, good pair.2) → (∀ b ∈ bindings, good b.2) →
      ∀ b ∈ pairs.foldl (fun bs pair => bindName pair.1.lexeme pair.2 bs) bindings, good b.2 := by
    intro pairs
    induction pairs with
    | nil => exact fun _ _ bound => bound
    | cons pair pairs ih =>
      intro bindings given bound
      refine ih _ (fun pair member => given pair (List.mem_cons_of_mem _ member)) ?_
      intro b member
      rcases mem_bindName member with rfl | member
      · exact given pair List.mem_cons_self
      · exact bound b member
  refine along _ [] ?_ (by simp)
  intro pair member
  exact given pair.2 (List.of_mem_zip member).2

namespace Store

theorem frame_define (s : Store) (i : Nat) (name : String) (value : Value) (k : Nat) :
    (s.define i name value).frame? k =
      if i = k then (s.frame? k).map (·.define name value) else s.frame? k := by
  unfold define frame?
  exact Array.getElem?_modify

theorem frame_push (s : Store) (f : Frame) (k : Nat) :
    (s.push f).frame? k = if k = s.size then some f else s.frame? k := by
  unfold push frame? size
  exact Array.getElem?_push

@[simp] theorem size_define (s : Store) (i : Nat) (name : String) (value : Value) :
    (s.define i name value).size = s.size := by
  unfold define size
  exact Array.size_modify

@[simp] theorem size_push (s : Store) (f : Frame) : (s.push f).size = s.size + 1 := by
  unfold push size
  exact Array.size_push f

theorem frame_isSome_iff (s : Store) (k : Nat) : (s.frame? k).isSome ↔ k < s.size := by
  unfold frame? size
  simp

theorem lt_size_of_frame {s : Store} {k : Nat} {f : Frame} (eq : s.frame? k = some f) :
    k < s.size := by
  rw [← frame_isSome_iff, eq]
  rfl

theorem exists_frame {s : Store} {k : Nat} (less : k < s.size) : ∃ f, s.frame? k = some f :=
  Option.isSome_iff_exists.mp ((s.frame_isSome_iff k).mpr less)

theorem mem_names_of_resolve {s : Store} {name : String} {i k : Nat}
    (means : s.resolve? name i = some k) : ∃ f, s.frame? k = some f ∧ name ∈ f.names := by
  induction i using Nat.strongRecOn with
  | ind i ih =>
    rw [resolve?] at means
    cases found : s.frame? i with
    | none => simp [found] at means
    | some f =>
      simp only [found] at means
      split at means
      · rename_i bound
        cases means
        exact ⟨f, found, (f.get_isSome_iff name).mp bound⟩
      · split at means
        · cases means
        · split at means
          · rename_i outer _ less
            exact ih outer less means
          · cases means

end Store

namespace Machine

variable {α : Type}

theorem lookup_eq (name : Token) (m : Machine) :
    lookup name m =
      match m.store.lookup? name.lexeme m.current with
      | some value => .ok value m
      | none => .error (.fault (Store.undefined name)) m := by
  unfold lookup onStore Store.get
  cases found : m.store.lookup? name.lexeme m.current <;> simp only [found]

theorem assign_eq (name : Token) (value : Value) (m : Machine) :
    assign name value m =
      match m.store.resolve? name.lexeme m.current with
      | some k => .ok value { m with store := m.store.define k name.lexeme value }
      | none => .error (.fault (Store.undefined name)) m := by
  unfold assign onStore Store.assign
  cases found : m.store.resolve? name.lexeme m.current <;> simp only [found]

theorem callNative_eq (natives : List Native) (ref : NativeRef) (args : List Value) (m : Machine) :
    callNative natives ref args m =
      match natives[ref.slot]? with
      | some f => .ok (f.apply m.hostCalls args) { m with hostCalls := m.hostCalls + 1 }
      | none => .error (.stuck (.hostFunction ref)) m := by
  have opened : callNative natives ref args m =
      (match natives[ref.slot]? with
        | some f => do
          set { m with hostCalls := m.hostCalls + 1 }
          pure (f.apply m.hostCalls args)
        | none => throw (.stuck (.hostFunction ref)) : Eval Value) m := rfl
  rw [opened]
  cases natives[ref.slot]? <;> rfl

def inside (m : Machine) (frame : Frame) : Machine :=
  { m with store := m.store.push frame, current := m.store.size }

theorem inFrame_eq (frame : Frame) (body : Eval α) (m : Machine) :
    inFrame frame body m =
      match body (m.inside frame) with
      | .ok a n => .ok a { n with current := m.current }
      | .error why n => .error why { n with current := m.current } := rfl

theorem final_inFrame (frame : Frame) (body : Eval α) (m : Machine) :
    final (inFrame frame body) m = { final body (m.inside frame) with current := m.current } := by
  unfold final
  rw [inFrame_eq]
  cases body (m.inside frame) <;> rfl

end Machine

/-- All that an action of a mode can do to a machine. -/
inductive Effect (m : Machine) : Mode → Machine → Prop where
  | nothing {mode : Mode} : Effect m mode m
  | printed {mode : Mode} (line : String) : Effect m mode { m with output := m.output.push line }
  | counted {mode : Mode} : Effect m mode { m with hostCalls := m.hostCalls + 1 }
  | assigned {mode : Mode} {name : String} {k : Nat} (value : Value)
      (means : m.store.resolve? name m.current = some k) :
      Effect m mode { m with store := m.store.define k name value }
  | defined (name : String) (value : Value) (count : Nat) :
      Effect m .statement
        { m with store := m.store.define m.current name value, functionCount := count }

def Stateless {α : Type} (p : α → Prop) (x : Eval α) : Prop :=
  (∃ a, p a ∧ x = pure a) ∨ ∃ why, x = throw why

theorem final_of_stateless {α : Type} {p : α → Prop} {x : Eval α} (stateless : Stateless p x)
    (m : Machine) : final x m = m := by
  rcases stateless with ⟨a, -, rfl⟩ | ⟨why, rfl⟩
  · rfl
  · rfl

def Value.IsFunction : Value → Prop
  | .function _ => True
  | _ => False

theorem unaryValue_stateless (op : Token) (v : Value) :
    Stateless (¬ ·.IsFunction) (unaryValue op v) := by
  unfold unaryValue
  split
  · split
    · exact .inl ⟨_, id, rfl⟩
    · exact .inr ⟨_, rfl⟩
  · exact .inl ⟨_, id, rfl⟩
  · exact .inr ⟨_, rfl⟩

theorem arithmetic_gives {s : Symbol} {f : Float → Float → Value} (eq : arithmetic? s = some f)
    (a b : Float) : ¬ (f a b).IsFunction := by
  unfold arithmetic? at eq
  split at eq <;> cases eq <;> exact id

theorem binaryValue_stateless (op : Token) (left right : Value) :
    Stateless (¬ ·.IsFunction) (binaryValue op left right) := by
  unfold binaryValue
  split
  · exact .inl ⟨_, id, rfl⟩
  · exact .inl ⟨_, id, rfl⟩
  · split
    · exact .inl ⟨_, id, rfl⟩
    · exact .inl ⟨_, id, rfl⟩
    · exact .inr ⟨_, rfl⟩
  · split
    · rename_i eq
      split
      · exact .inl ⟨_, arithmetic_gives eq _ _, rfl⟩
      · exact .inr ⟨_, rfl⟩
    · exact .inr ⟨_, rfl⟩
  · exact .inr ⟨_, rfl⟩

theorem checkCount_stateless (paren : Token) (expected given : Nat) :
    Stateless (fun _ => True) (checkCount paren expected given) := by
  unfold checkCount
  split
  · exact .inl ⟨_, trivial, rfl⟩
  · exact .inr ⟨_, rfl⟩

theorem Act.effect {α : Type} (natives : List Native) (x : Act α) (m : Machine) :
    Effect m x.mode (final (x.perform natives) m) := by
  cases x with
  | unary op v =>
    rw [Act.perform, final_of_stateless (unaryValue_stateless op v)]
    exact .nothing
  | binary op v w =>
    rw [Act.perform, final_of_stateless (binaryValue_stateless op v w)]
    exact .nothing
  | checkCount paren expected given =>
    rw [Act.perform, final_of_stateless (checkCount_stateless paren expected given)]
    exact .nothing
  | lookup name =>
    rw [Act.perform, final, Machine.lookup_eq]
    cases m.store.lookup? name.lexeme m.current with
    | none => exact .nothing
    | some value => exact .nothing
  | assign name value =>
    rw [Act.perform, final, Machine.assign_eq]
    cases means : m.store.resolve? name.lexeme m.current with
    | none => exact .nothing
    | some k => exact .assigned value means
  | define name value => exact .defined name value m.functionCount
  | print value => exact .printed value.render
  | declare name params body => exact .defined name.lexeme _ (m.functionCount + 1)
  | native ref args =>
    rw [Act.perform, final, Machine.callNative_eq]
    cases natives[ref.slot]? with
    | none => exact .nothing
    | some f => exact .counted

end Lox
