import Lox.Proofs.Simulation

/- Runners related on the same values. When all that code meets stays the same in both runs, one
   relation per action and scope is enough, and a property of single runs is the case of one runner
   beside itself. -/
namespace Lox
namespace Runner

section Related

variable {M N : Type → Type} [Monad M] [Monad N]

/-- Two runners are related when their actions and scopes are, as long as all values are `good`.
`rel mode p x y` relates `x` to `y` and says that `p` holds of the results. -/
structure Related (A : Runner M) (B : Runner N) (good : Value → Prop)
    (rel : Mode → {α : Type} → (α → Prop) → M α → N α → Prop) : Prop where
  pure : ∀ {mode : Mode} {α : Type} {p : α → Prop} {a : α}, p a → rel mode p (pure a) (pure a)
  bind : ∀ {mode : Mode} {α β : Type} {p : α → Prop} {q : β → Prop} {x : M α} {y : N α}
    {f : α → M β} {g : α → N β}, rel mode p x y → (∀ a, p a → rel mode q (f a) (g a)) →
    rel mode q (x >>= f) (y >>= g)
  weaken : ∀ {α : Type} {p : α → Prop} {x : M α} {y : N α},
    rel .expression p x y → rel .statement p x y
  literal : ∀ l, good (.ofLiteral l)
  stop : ∀ {mode : Mode} {α : Type} {p : α → Prop} (why : Stop),
    rel mode p (A.stop why) (B.stop why)
  act : ∀ {α : Type} (x : Act α), x.Given good → rel x.mode (x.Gives good) (A.act x) (B.act x)
  block : ∀ {x : M Completion} {y : N Completion}, rel .statement (Completion.Gives good) x y →
    rel .expression (Completion.Gives good) (A.block x) (B.block y)
  enter : ∀ {f : Closure} {args : List Value} {x : M Completion} {y : N Completion},
    good (.function f) → (∀ v ∈ args, good v) → rel .statement (Completion.Gives good) x y →
    rel .expression (Completion.Gives good) (A.enter f args x) (B.enter f args y)

structure RelatedRuns (A : Runner M) (B : Runner N) (good : Value → Prop)
    (rel : Mode → {α : Type} → (α → Prop) → M α → N α → Prop) (fuel : Nat) : Prop where
  evaluate : ∀ e, rel .expression good (A.evaluate fuel e) (B.evaluate fuel e)
  evaluateAll : ∀ es, rel .expression (fun vs => ∀ v ∈ vs, good v) (A.evaluateAll fuel es)
    (B.evaluateAll fuel es)
  call : ∀ paren f args, good f → (∀ v ∈ args, good v) →
    rel .expression good (A.call fuel paren f args) (B.call fuel paren f args)
  execute : ∀ s, rel .statement (Completion.Gives good) (A.execute fuel s) (B.execute fuel s)
  executeAll : ∀ ss, rel .statement (Completion.Gives good) (A.executeAll fuel ss)
    (B.executeAll fuel ss)

variable {A : Runner M} {B : Runner N} {good : Value → Prop}
  {rel : Mode → {α : Type} → (α → Prop) → M α → N α → Prop} {fuel : Nat}

namespace Related

theorem gives_iff {α : Type} (x : Act α) (a : α) : x.shape.Good good a ↔ x.Gives good a := by
  cases x <;> exact Iff.rfl

def simulation (related : Related A B good rel) : Simulation A B where
  World := Unit
  later _ _ := True
  rename _ k := k
  good _ := good
  node _ := True
  rel _ mode _ s x y := rel mode (s.Good good) x y
  keep _ given := ⟨given, rfl⟩
  literal _ := related.literal
  body _ := Stmt.everyOf_of_forall (fun _ => trivial) _
  pure given := by
    rw [Shape.rename_self]
    exact related.pure given
  bind first second := by
    refine related.bind first fun a given => ?_
    have next := second () a trivial given
    rw [Shape.rename_self] at next
    exact next
  weaken := related.weaken
  stop _ := related.stop _
  act x given _ := by
    have same : x.shape.Good good = x.Gives good := funext fun a => propext (gives_iff x a)
    rw [Act.rename_self, same]
    exact related.act x given
  block inner := related.block (inner ())
  enter callee given inner := by
    simp only [Closure.rename_self, Value.rename_self, List.map_id']
    exact related.enter callee given (inner ())

theorem execute (related : Related A B good rel) (fuel : Nat) (s : Stmt) :
    rel s.mode (Completion.Gives good) (A.execute fuel s) (B.execute fuel s) :=
  (related.simulation.runs fuel).execute () s (Stmt.every_of_forall (fun _ => trivial) s)

theorem executeAll (related : Related A B good rel) (fuel : Nat) (ss : List Stmt) :
    rel (Stmt.modeOf ss) (Completion.Gives good) (A.executeAll fuel ss) (B.executeAll fuel ss) :=
  (related.simulation.runs fuel).executeAll () ss (Stmt.everyOf_of_forall (fun _ => trivial) ss)

/-- Related runners run everything alike. -/
theorem runs (related : Related A B good rel) (fuel : Nat) : RelatedRuns A B good rel fuel where
  evaluate e :=
    (related.simulation.runs fuel).evaluate () e (Expr.every_of_forall (fun _ => trivial) e)
  evaluateAll es :=
    (related.simulation.runs fuel).evaluateAll () es (Expr.everyOf_of_forall (fun _ => trivial) es)
  call paren f args callee given := by
    have node : ∃ callee es, related.simulation.node (.call callee paren es) :=
      ⟨.literal .nil, [], trivial⟩
    have runs := (related.simulation.runs fuel).call () paren f args node callee given
    simp only [simulation, Value.rename_self, List.map_id'] at runs
    exact runs
  execute s :=
    related.simulation.inJoin_right .statement ((related.simulation.runs fuel).execute () s
      (Stmt.every_of_forall (fun _ => trivial) s))
  executeAll ss :=
    related.simulation.inJoin_right .statement ((related.simulation.runs fuel).executeAll () ss
      (Stmt.everyOf_of_forall (fun _ => trivial) ss))

theorem executeBlock (related : Related A B good rel) (fuel : Nat) (body : List Stmt) :
    rel .expression (Completion.Gives good) (A.execute fuel (.block body))
      (B.execute fuel (.block body)) :=
  related.execute fuel (.block body)

theorem interpret (related : Related A B good rel) (fuel : Nat) (ss : List Stmt) :
    rel .statement (fun _ => True) (A.interpret fuel ss) (B.interpret fuel ss) :=
  related.simulation.interpret fuel () ss (Stmt.everyOf_of_forall (fun _ => trivial) ss)

end Related

end Related

section Kept

variable {σ : Type}

structure Kept (A : Runner (EStateM Stop σ))
    (holds : Mode → {α : Type} → EStateM Stop σ α → Prop) : Prop where
  pure : ∀ {mode : Mode} {α : Type} (a : α), holds mode (pure a)
  bind : ∀ {mode : Mode} {α β : Type} {x : EStateM Stop σ α} {f : α → EStateM Stop σ β},
    holds mode x → (∀ {s a t}, x s = .ok a t → holds mode (f a)) → holds mode (x >>= f)
  weaken : ∀ {α : Type} {x : EStateM Stop σ α}, holds .expression x → holds .statement x
  throws : ∀ {α : Type} (why : Stop), (A.stop why : EStateM Stop σ α) = throw why
  stop : ∀ {mode : Mode} {α : Type} (why : Stop), holds mode (throw why : EStateM Stop σ α)
  act : ∀ {α : Type} (x : Act α), holds x.mode (A.act x)
  block : ∀ {x : EStateM Stop σ Completion}, holds .statement x → holds .expression (A.block x)
  enter : ∀ (f : Closure) (args : List Value) {x : EStateM Stop σ Completion},
    holds .statement x → holds .expression (A.enter f args x)

def Yields {α : Type} (p : α → Prop) (x : EStateM Stop σ α) : Prop :=
  ∀ {s a t}, x s = .ok a t → p a

theorem Yields.bind {α β : Type} {p : α → Prop} {q : β → Prop} {x : EStateM Stop σ α}
    {f : α → EStateM Stop σ β} (first : Yields p x) (second : ∀ a, p a → Yields q (f a)) :
    Yields q (x >>= f) := by
  intro s b t eq
  obtain ⟨a, u, eq', last⟩ := eq_ok_of_bind eq
  exact second a (first eq') last

theorem act_gives {α : Type} (x : Act α) (a : α) : x.Gives (fun _ => True) a := by
  cases x <;> trivial

theorem completion_gives (completion : Completion) : completion.Gives fun _ => True := by
  cases completion <;> trivial

variable {A : Runner (EStateM Stop σ)}
  {holds : Mode → {α : Type} → EStateM Stop σ α → Prop} (kept : Kept A holds)
include kept

theorem Kept.related : Related A A (fun _ => True) fun mode _ p x _ => holds mode x ∧ Yields p x where
  pure := by
    intro mode α p a given
    refine ⟨kept.pure a, ?_⟩
    rintro s a t ⟨⟩
    exact given
  bind := by
    intro mode α β p q x y f g first second
    constructor
    · exact kept.bind first.1 fun eq => (second _ (first.2 eq)).1
    · exact Yields.bind first.2 fun a given => (second a given).2
  weaken related := ⟨kept.weaken related.1, related.2⟩
  literal _ := trivial
  stop why := by
    rw [kept.throws]
    exact ⟨kept.stop why, nofun⟩
  act x _ := ⟨kept.act x, fun _ => act_gives x _⟩
  block related := ⟨kept.block related.1, fun _ => completion_gives _⟩
  enter _ _ related := ⟨kept.enter _ _ related.1, fun _ => completion_gives _⟩

end Kept

end Runner
end Lox
