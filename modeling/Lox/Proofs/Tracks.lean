import Lox.Proofs.Following

/- What reading leaves behind. Whatever it is asked for, and however it ends, a reader goes forward
   and not past the first end-of-file token, and adds reports to those it has, each at a token that
   it has passed or stands at; when it refuses, the last report is the refusal and it stands at the
   token that it refused. Every function keeps to this because each step does. -/
namespace Lox

def firstEnd (tokens : List Token) : Nat := tokens.findIdx (·.kind = .eof)

theorem kind_firstEnd {tokens : List Token} {t : Token}
    (found : tokens[firstEnd tokens]? = some t) : t.kind = .eof := by
  obtain ⟨bound, rfl⟩ := List.getElem?_eq_some_iff.mp found
  exact of_decide_eq_true (List.findIdx_getElem (w := bound))

namespace Reader

def Sees (start : Nat) (r : Reader) (t : Token) : Prop :=
  ∃ i, start ≤ i ∧ i ≤ r.position ∧ r.tokens[i]? = some t

structure Leads (start : Nat) (r r' : Reader) (more : List Diagnostic) : Prop where
  tokens : r'.tokens = r.tokens
  depth : r'.depth = r.depth
  reported : r'.reported = r.reported ++ more
  forward : r.position ≤ r'.position
  within : r.position ≤ firstEnd r.tokens → r'.position ≤ firstEnd r.tokens
  placed : ∀ d ∈ more, ∃ t problem, r'.Sees start t ∧ d = t.diagnostic problem

/-- A refusal is the last of the reports, and the reader stands at its token. -/
def Stands {α : Type} (r : Reader) (more : List Diagnostic) (result : Except Refusal α) : Prop :=
  ∀ why, result = .error why →
    r.tokens[r.position]? = some why.token ∧
      more.getLast? = some (why.token.diagnostic (.expected why.what))

def Keeps {α : Type} (start : Nat) (r : Reader) (x : Reads α) : Prop :=
  ∀ result r', x r = some (result, r') → ∃ more, Leads start r r' more ∧ r'.Stands more result

def Steady {α : Type} (x : Reads α) : Prop := ∀ r : Reader, Keeps r.position r x

section Rules

variable {α β : Type} {start : Nat} {r r' r'' : Reader} {t : Token} {more more' : List Diagnostic}
  {x y : Reads α} {f : α → Reads β}

theorem stands_ok (r : Reader) (more : List Diagnostic) (a : α) : r.Stands more (.ok a) := by
  rintro _ ⟨⟩

theorem Leads.refl (start : Nat) (r : Reader) : Leads start r r [] :=
  ⟨rfl, rfl, (List.append_nil _).symm, Nat.le_refl _, id, nofun⟩

theorem Sees.later (sees : r.Sees start t) (leads : Leads start r r' more) : r'.Sees start t := by
  obtain ⟨i, from_, upTo, found⟩ := sees
  exact ⟨i, from_, Nat.le_trans upTo leads.forward, by rw [leads.tokens, found]⟩

theorem Leads.trans (first : Leads start r r' more) (second : Leads start r' r'' more') :
    Leads start r r'' (more ++ more') := by
  refine ⟨second.tokens.trans first.tokens, second.depth.trans first.depth, ?_,
    Nat.le_trans first.forward second.forward, ?_, ?_⟩
  · rw [second.reported, first.reported, List.append_assoc]
  · intro within
    have later := second.within
    rw [first.tokens] at later
    exact later (first.within within)
  · intro d member
    rcases List.mem_append.mp member with member | member
    · obtain ⟨t, problem, sees, eq⟩ := first.placed d member
      exact ⟨t, problem, sees.later second, eq⟩
    · exact second.placed d member

theorem Leads.mono {earlier : Nat} (leads : Leads start r r' more) (le : earlier ≤ start) :
    Leads earlier r r' more := by
  refine { leads with placed := ?_ }
  intro d member
  obtain ⟨t, problem, ⟨i, from_, upTo, found⟩, eq⟩ := leads.placed d member
  exact ⟨t, problem, ⟨i, by omega, upTo, found⟩, eq⟩

theorem Steady.keeps (steady : Steady x) (le : start ≤ r.position) : Keeps start r x := by
  intro result r' eq
  obtain ⟨more, leads, stands⟩ := steady r result r' eq
  exact ⟨more, leads.mono le, stands⟩

theorem Keeps.bind (first : Keeps start r x)
    (second : ∀ a r' more, x r = some (.ok a, r') → Leads start r r' more → Keeps start r' (f a)) :
    Keeps start r (x >>= f) := by
  intro result r'' eq
  rw [bind_apply] at eq
  match run : x r with
  | none =>
    rw [run] at eq
    cases eq
  | some (.error why, r') =>
    rw [run] at eq
    cases eq
    obtain ⟨more, leads, stands⟩ := first _ _ run
    refine ⟨more, leads, ?_⟩
    rintro _ ⟨⟩
    exact stands why rfl
  | some (.ok a, r') =>
    rw [run] at eq
    obtain ⟨more, leads, -⟩ := first _ _ run
    obtain ⟨more', leads', stands⟩ := second a r' more run leads result r'' eq
    refine ⟨more ++ more', leads.trans leads', ?_⟩
    intro why refused
    obtain ⟨here, last⟩ := stands why refused
    exact ⟨here, by rw [List.getLast?_append, last]; rfl⟩

theorem Steady.bind (first : Steady x) (second : ∀ a, Steady (f a)) : Steady (x >>= f) := by
  intro r
  exact (first r).bind fun a r' _ _ leads => (second a).keeps leads.forward

theorem keeps_pure (start : Nat) (r : Reader) (a : α) : Keeps start r (pure a : Reads α) := by
  rintro result r' ⟨⟩
  exact ⟨[], .refl start r, stands_ok _ _ a⟩

theorem Steady.pure (a : α) : Steady (Pure.pure a : Reads α) := fun r => keeps_pure _ r a

theorem Steady.none : Steady (fun _ => none : Reads α) := by
  rintro r result r' ⟨⟩

theorem Steady.ite {p : Prop} [Decidable p] (yes : Steady x) (no : Steady y) :
    Steady (if p then x else y) := by
  split
  · exact yes
  · exact no

end Rules

section Steps

variable {α : Type} {start : Nat} {r : Reader} {t : Token}

theorem peek_steady : Steady peek := by
  intro r result r' eq
  obtain ⟨t, -, eq⟩ := Option.map_eq_some_iff.mp eq
  cases eq
  exact ⟨[], .refl _ r, stands_ok _ _ t⟩

theorem check_steady (kind : Kind) : Steady (check kind) := peek_steady.bind fun _ => .pure _

theorem next_leads {result : Except Refusal Token} {r' : Reader} (le : start ≤ r.position)
    (eq : next r = some (result, r')) :
    ∃ t, result = .ok t ∧ r'.Sees start t ∧ Leads start r r' [] := by
  obtain ⟨t, found, eq⟩ := Option.map_eq_some_iff.mp eq
  cases eq
  refine ⟨t, rfl, ?_⟩
  split
  · exact ⟨⟨r.position, le, Nat.le_refl _, found⟩, .refl start r⟩
  · rename_i more
    refine ⟨⟨r.position, le, Nat.le_succ _, found⟩, rfl, rfl, (List.append_nil _).symm,
      Nat.le_succ _, ?_, nofun⟩
    intro within
    have other : r.position ≠ firstEnd r.tokens := by
      intro same
      rw [same] at found
      exact more (kind_firstEnd found)
    show r.position + 1 ≤ _
    omega

theorem next_steady : Steady next := by
  intro r result r' eq
  obtain ⟨t, rfl, -, leads⟩ := next_leads (Nat.le_refl _) eq
  exact ⟨[], leads, stands_ok _ _ t⟩

theorem Keeps.next {f : Token → Reads α} (le : start ≤ r.position)
    (later : ∀ t r', r'.Sees start t → start ≤ r'.position → Keeps start r' (f t)) :
    Keeps start r (Reader.next >>= f) := by
  refine (next_steady.keeps le).bind fun t r' more eq leads => ?_
  obtain ⟨_, ⟨⟩, sees, -⟩ := next_leads le eq
  exact later t r' sees (Nat.le_trans le leads.forward)

theorem eat_steady (kind : Kind) : Steady (eat kind) :=
  (check_steady kind).bind fun _ => .ite (next_steady.bind fun _ => .pure true) (.pure false)

theorem Sees.leads (sees : r.Sees start t) (problem : Problem) :
    Leads start r { r with reported := r.reported ++ [t.diagnostic problem] }
      [t.diagnostic problem] := by
  refine ⟨rfl, rfl, rfl, Nat.le_refl _, id, ?_⟩
  intro d member
  cases List.mem_singleton.mp member
  exact ⟨t, problem, sees, rfl⟩

theorem Sees.report (sees : r.Sees start t) (problem : Problem) :
    Keeps start r (report t problem) := by
  rintro result r' ⟨⟩
  exact ⟨_, sees.leads problem, stands_ok _ _ ()⟩

theorem Keeps.peek {f : Token → Reads α} (le : start ≤ r.position)
    (later : ∀ t, r.tokens[r.position]? = some t → r.Sees start t → Keeps start r (f t)) :
    Keeps start r (Reader.peek >>= f) := by
  refine (peek_steady.keeps le).bind fun t r' more eq _ => ?_
  obtain ⟨_, found, ⟨⟩⟩ := Option.map_eq_some_iff.mp eq
  exact later t found ⟨r.position, le, Nat.le_refl _, found⟩

theorem refuse_steady (what : Expectation) : Steady (refuse what : Reads α) := by
  intro r
  refine .peek (Nat.le_refl _) fun t found sees => ?_
  rintro result r' ⟨⟩
  refine ⟨_, sees.leads (.expected what), ?_⟩
  rintro _ ⟨⟩
  exact ⟨found, rfl⟩

theorem expect_steady (what : Expectation) : Steady (expect what) :=
  peek_steady.bind fun _ => .ite next_steady (refuse_steady what)

theorem noteCount_steady (rule : Violation) (count : Nat) : Steady (noteCount rule count) := by
  refine .ite ?_ (.pure ())
  intro r
  exact .peek (Nat.le_refl _) fun t _ sees => sees.report _

theorem Sees.noteReturn (sees : r.Sees start t) : Keeps start r (noteReturn t) := by
  intro result r' eq
  unfold Reader.noteReturn at eq
  split at eq
  · exact sees.report _ result r' eq
  · exact keeps_pure start r () result r' eq

theorem Steady.outcome {x : Reads α} (steady : Steady x) : Steady (outcome x) := by
  intro r result r' eq
  obtain ⟨⟨result', after⟩, run, ⟨⟩⟩ := Option.map_eq_some_iff.mp eq
  obtain ⟨more, leads, -⟩ := steady r _ _ run
  exact ⟨more, leads, stands_ok _ _ result'⟩

theorem inBody_apply (x : Reads α) (r : Reader) :
    inBody x r = (x { r with depth := r.depth + 1 }).map fun (result, r') =>
      (result, { r' with depth := r'.depth - 1 }) := by
  simp only [inBody, bind_apply, change, outcome]
  cases x { r with depth := r.depth + 1 } <;> rfl

theorem Steady.inBody {x : Reads α} (steady : Steady x) : Steady (inBody x) := by
  intro r result r' eq
  rw [inBody_apply] at eq
  obtain ⟨⟨result', after⟩, run, ⟨⟩⟩ := Option.map_eq_some_iff.mp eq
  obtain ⟨more, leads, stands⟩ := steady _ _ _ run
  refine ⟨more, { leads with depth := ?_ }, stands⟩
  have depth : after.depth = r.depth + 1 := leads.depth
  show after.depth - 1 = r.depth
  omega

end Steps

/- The functions that read expressions call each other with less fuel; out of fuel they give
   nothing. -/
mutual

theorem expression_steady : ∀ fuel, Steady (expression fuel)
  | 0 => .none
  | fuel + 1 => by
    refine (operation_steady fuel 0).bind fun target => ?_
    refine (check_steady _).bind fun _ => .ite ?_ (.pure target)
    -- The equals sign is reported after all that is assigned has been read.
    intro r
    refine .next (Nat.le_refl _) fun equals r₁ sees le => ?_
    refine ((expression_steady fuel).keeps le).bind fun value r₂ _ _ leads => ?_
    cases target with
    | reference name => exact keeps_pure _ _ _
    | _ => exact ((sees.later leads).report _).bind fun _ _ _ _ _ => keeps_pure _ _ _

theorem operation_steady : ∀ fuel power, Steady (operation fuel power)
  | 0, _ => .none
  | fuel + 1, power => (unary_steady fuel).bind fun left => operators_steady fuel power left

theorem operators_steady : ∀ fuel power left, Steady (operators fuel power left)
  | 0, _, _ => .none
  | fuel + 1, power, left => by
    refine peek_steady.bind fun t => ?_
    cases t.kind.bindingPower? with
    | none => exact .pure left
    | some powers =>
      refine .ite (.pure left) (next_steady.bind fun op => ?_)
      exact (operation_steady fuel powers.2).bind fun right => operators_steady fuel power _

theorem unary_steady : ∀ fuel, Steady (unary fuel)
  | 0 => .none
  | fuel + 1 => by
    refine peek_steady.bind fun t => .ite (next_steady.bind fun op => ?_) (call_steady fuel)
    exact (unary_steady fuel).bind fun operand => .pure _

theorem call_steady : ∀ fuel, Steady (call fuel)
  | 0 => .none
  | fuel + 1 => (primary_steady fuel).bind fun callee => calls_steady fuel callee

theorem calls_steady : ∀ fuel callee, Steady (calls fuel callee)
  | 0, _ => .none
  | fuel + 1, callee => by
    refine (eat_steady _).bind fun _ => .ite ?_ (.pure callee)
    refine (arguments_steady fuel).bind fun args => (expect_steady _).bind fun paren => ?_
    exact calls_steady fuel _

theorem arguments_steady : ∀ fuel, Steady (arguments fuel)
  | 0 => .none
  | fuel + 1 => (check_steady _).bind fun _ => .ite (.pure []) (argumentList_steady fuel [])

theorem argumentList_steady : ∀ fuel args, Steady (argumentList fuel args)
  | 0, _ => .none
  | fuel + 1, args => by
    refine (noteCount_steady _ _).bind fun _ => (expression_steady fuel).bind fun arg => ?_
    exact (eat_steady _).bind fun _ => .ite (argumentList_steady fuel _) (.pure _)

theorem primary_steady : ∀ fuel, Steady (primary fuel)
  | 0 => .none
  | fuel + 1 => by
    refine peek_steady.bind fun t => ?_
    cases Parse.constant? t.kind with
    | some l => exact next_steady.bind fun _ => .pure _
    | none =>
      refine .ite (next_steady.bind fun _ => .pure _) ?_
      refine (eat_steady _).bind fun _ => .ite ?_ (refuse_steady _)
      refine (expression_steady fuel).bind fun inner => ?_
      exact (expect_steady _).bind fun _ => .pure _

end

section Statements

variable (fuel : Nat)

theorem optional_steady (stop : Kind) : Steady (optional fuel stop) :=
  (check_steady stop).bind fun _ =>
    .ite (.pure none) ((expression_steady fuel).bind fun _ => .pure _)

theorem expressionStatement_steady : Steady (expressionStatement fuel) :=
  (expression_steady fuel).bind fun _ => (expect_steady _).bind fun _ => .pure _

theorem printStatement_steady : Steady (printStatement fuel) :=
  (expression_steady fuel).bind fun _ => (expect_steady _).bind fun _ => .pure _

theorem returnStatement_steady : Steady (returnStatement fuel) := by
  intro r
  refine .next (Nat.le_refl _) fun keyword r₁ sees le => ?_
  refine sees.noteReturn.bind fun _ r₂ _ _ leads => ?_
  refine Steady.keeps ?_ (Nat.le_trans le leads.forward)
  exact (optional_steady fuel _).bind fun _ => (expect_steady _).bind fun _ => .pure _

theorem initializer_steady : Steady (initializer fuel) :=
  (eat_steady _).bind fun _ => .ite ((expression_steady fuel).bind fun _ => .pure _) (.pure none)

theorem variableDeclaration_steady : Steady (variableDeclaration fuel) :=
  (expect_steady _).bind fun _ => (initializer_steady fuel).bind fun _ =>
    (expect_steady _).bind fun _ => .pure _

theorem parameterList_steady (params : List Token) : Steady (parameterList fuel params) := by
  induction fuel generalizing params with
  | zero => exact .none
  | succ fuel ih =>
    refine (noteCount_steady _ _).bind fun _ => (expect_steady _).bind fun param => ?_
    exact (eat_steady _).bind fun _ => .ite (ih _) (.pure _)

theorem parameters_steady : Steady (parameters fuel) :=
  (check_steady _).bind fun _ => .ite (.pure []) (parameterList_steady fuel [])

theorem forInitializer_steady : Steady (forInitializer fuel) := by
  refine (eat_steady _).bind fun _ => .ite (.pure none) ?_
  refine (eat_steady _).bind fun _ => .ite ?_ ?_
  · exact (variableDeclaration_steady fuel).bind fun _ => .pure _
  · exact (expressionStatement_steady fuel).bind fun _ => .pure _

theorem forClauses_steady : Steady (forClauses fuel) := by
  refine (expect_steady _).bind fun _ => (forInitializer_steady fuel).bind fun first => ?_
  refine (optional_steady fuel _).bind fun condition => (expect_steady _).bind fun _ => ?_
  refine (optional_steady fuel _).bind fun increment => ?_
  exact (expect_steady _).bind fun _ => .pure _

theorem skip_steady (previous : Token) : Steady (skip fuel previous) := by
  induction fuel generalizing previous with
  | zero => exact .none
  | succ fuel ih =>
    refine peek_steady.bind fun t => .ite (.pure ()) (.ite (.pure ()) ?_)
    exact next_steady.bind fun dropped => ih dropped

theorem synchronize_steady : Steady (synchronize fuel) :=
  next_steady.bind fun dropped => skip_steady fuel dropped

end Statements

mutual

theorem declaration_steady : ∀ fuel, Steady (declaration fuel)
  | 0 => .none
  | fuel + 1 => by
    refine (attempt_steady fuel).outcome.bind fun result => ?_
    cases result with
    | ok s => exact .pure _
    | error why => exact (synchronize_steady fuel).bind fun _ => .pure _

theorem attempt_steady : ∀ fuel, Steady (attempt fuel)
  | 0 => .none
  | fuel + 1 => by
    refine (eat_steady _).bind fun _ => .ite (functionDeclaration_steady fuel) ?_
    refine (eat_steady _).bind fun _ => .ite (variableDeclaration_steady fuel) ?_
    exact statement_steady fuel

theorem statement_steady : ∀ fuel, Steady (statement fuel)
  | 0 => .none
  | fuel + 1 => by
    refine (eat_steady _).bind fun _ => .ite (forStatement_steady fuel) ?_
    refine (eat_steady _).bind fun _ => .ite (ifStatement_steady fuel) ?_
    refine (eat_steady _).bind fun _ => .ite (printStatement_steady fuel) ?_
    refine (check_steady _).bind fun _ => .ite (returnStatement_steady fuel) ?_
    refine (eat_steady _).bind fun _ => .ite (whileStatement_steady fuel) ?_
    refine (eat_steady _).bind fun _ => .ite ?_ (expressionStatement_steady fuel)
    exact (block_steady fuel []).bind fun _ => .pure _

theorem forStatement_steady : ∀ fuel, Steady (forStatement fuel)
  | 0 => .none
  | fuel + 1 => (forClauses_steady fuel).bind fun _ => (statement_steady fuel).bind fun _ => .pure _

theorem ifStatement_steady : ∀ fuel, Steady (ifStatement fuel)
  | 0 => .none
  | fuel + 1 => by
    refine (expect_steady _).bind fun _ => (expression_steady fuel).bind fun condition => ?_
    refine (expect_steady _).bind fun _ => (statement_steady fuel).bind fun thenBranch => ?_
    refine (eat_steady _).bind fun _ => .ite ?_ (.pure _)
    exact (statement_steady fuel).bind fun _ => .pure _

theorem whileStatement_steady : ∀ fuel, Steady (whileStatement fuel)
  | 0 => .none
  | fuel + 1 => by
    refine (expect_steady _).bind fun _ => (expression_steady fuel).bind fun condition => ?_
    refine (expect_steady _).bind fun _ => ?_
    exact (statement_steady fuel).bind fun _ => .pure _

theorem functionDeclaration_steady : ∀ fuel, Steady (functionDeclaration fuel)
  | 0 => .none
  | fuel + 1 => by
    refine (expect_steady _).bind fun name => (expect_steady _).bind fun _ => ?_
    refine (parameters_steady fuel).bind fun params => (expect_steady _).bind fun _ => ?_
    refine (expect_steady _).bind fun _ => ?_
    exact (block_steady fuel []).inBody.bind fun _ => .pure _

theorem block_steady : ∀ fuel body, Steady (block fuel body)
  | 0, _ => .none
  | fuel + 1, body => by
    refine peek_steady.bind fun t => .ite ((expect_steady _).bind fun _ => .pure body) ?_
    exact (declaration_steady fuel).bind fun value => block_steady fuel _

end

theorem program_steady (fuel : Nat) (stmts : List Stmt) : Steady (program fuel stmts) := by
  induction fuel generalizing stmts with
  | zero => exact .none
  | succ fuel ih =>
    refine (check_steady _).bind fun _ => .ite (.pure stmts) ?_
    exact (declaration_steady fuel).bind fun value => ih _

theorem reported_of_none {fuel : Nat} {r r' : Reader}
    (none : declaration fuel r = some (.ok none, r')) :
    ∃ more, more ≠ [] ∧ r'.reported = r.reported ++ more := by
  cases fuel with
  | zero => cases none
  | succ fuel =>
    rw [declaration, bind_apply, outcome] at none
    match tried : attempt fuel r with
    | .none =>
      rw [tried] at none
      cases none
    | some (.ok s, fault) =>
      rw [tried] at none
      cases none
    | some (.error why, fault) =>
      rw [tried] at none
      obtain ⟨more, leads, stands⟩ := attempt_steady fuel r _ _ tried
      have skipped : Steady (synchronize fuel >>= fun _ => (Pure.pure .none : Reads (Option Stmt))) :=
        (synchronize_steady fuel).bind fun _ => .pure _
      obtain ⟨more', leads', -⟩ := skipped fault _ _ none
      refine ⟨more ++ more', ?_, ?_⟩
      · intro empty
        have last := (stands why rfl).2
        rw [(List.append_eq_nil_iff.mp empty).1] at last
        cases last
      · rw [leads'.reported, leads.reported, List.append_assoc]

end Reader

end Lox
