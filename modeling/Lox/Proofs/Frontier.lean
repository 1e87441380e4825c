import Lox.Proofs.Acceptance
import Lox.Proofs.Recovery

/- Where reading goes wrong. A function either parses the front of a list, and then does so whatever
   comes after the first token left, or it first complains at a token: all that was read up to there
   can be completed, and nothing that begins with it and that token can. Here for expressions. -/
namespace Lox.Parse

open Grammar (Clean closesPhrase)

variable {α β : Type}

def Anything (_ : List Token) : Prop := True

/-- Tokens can be found before what `follow` allows, themselves allowed by `before`, from which `f`
parses something with nothing missing. -/
def Resumable (before follow : List Token → Prop) (f : List Token → Answer α) : Prop :=
  ∃ suffix value, ∀ later, follow later → before (suffix ++ later) ∧
    ∃ made, Clean made ∧ f (suffix ++ later) = (Answer.parsed value later).after made

/-- `f` parses `front`, before the first token of `rest` and before what may follow. -/
structure Passes (moves : Bool) (follow : List Token → Prop) (f : List Token → Answer α)
    (front rest : List Token) (value : α) (made : List Report) : Prop where
  moves : moves = true → front ≠ []
  clean : Clean made
  parses : ∀ later, later.head? = rest.head? ∨ follow later →
    f (front ++ later) = (Answer.parsed value later).after made

theorem Passes.leaves {moves : Bool} {follow : List Token → Prop} {f : List Token → Answer α}
    {front rest : List Token} {value : α} {made : List Report}
    (passes : Passes moves follow f front rest value made) : Leaves moves (front ++ rest) rest := by
  cases moves with
  | false =>
    show rest.length ≤ (front ++ rest).length
    simp
  | true =>
    show rest.length < (front ++ rest).length
    have some := List.length_pos_iff.mpr (passes.moves rfl)
    rw [List.length_append]
    omega

/-- After `front` the first thing missing is at the first token of `rest`. Something is missing
whatever comes after that token, and nothing need be if others take its place. -/
structure Balks (follow : List Token → Prop) (f : List Token → Answer α) (front rest : List Token) :
    Prop where
  first : ∃ before what later, Clean before ∧
    (f (front ++ rest)).reported = before ++ ⟨rest.head?, .expected what⟩ :: later
  always : ∀ later, later.head? = rest.head? → ¬ Clean (f (front ++ later)).reported
  viable : Resumable Anything follow fun later => f (front ++ later)

/-- `f` passes or balks on `ts`; if it must move, it passes only with a token taken. -/
def Detects (moves : Bool) (follow : List Token → Prop) (f : List Token → Answer α)
    (ts : List Token) : Prop :=
  (∃ front rest value made, ts = front ++ rest ∧ Passes moves follow f front rest value made) ∨
    ∃ front rest, ts = front ++ rest ∧ Balks follow f front rest

theorem clean_nil : Clean [] := nofun

theorem clean_append {xs ys : List Report} : Clean (xs ++ ys) ↔ Clean xs ∧ Clean ys :=
  List.forall_mem_append

theorem reported_bind (a : Answer α) (g : α → List Token → Answer β) :
    ∃ later, (a.bind g).reported = a.reported ++ later := by
  rcases a.eq_parsed_or_unmet with ⟨value, rest, eq⟩ | ⟨what, rest, eq⟩
  · rw [eq, Answer.after_bind, Answer.parsed_bind, Answer.reported_after, Answer.reported_after]
    exact ⟨(g value rest).reported, by simp [Answer.parsed, Answer.reported]⟩
  · rw [eq, Answer.after_bind, Answer.unmet_bind]
    exact ⟨[], by simp [Answer.unmet, Answer.reported, Answer.after]⟩

theorem reported_parsed (value : α) (rest : List Token) (made : List Report) :
    ((Answer.parsed value rest).after made).reported = made := by
  simp [Answer.parsed, Answer.reported, Answer.after]

theorem head?_append_of_ne_nil {front : List Token} (some : front ≠ []) (rest later : List Token) :
    (front ++ later).head? = (front ++ rest).head? := by
  cases front with
  | nil => exact absurd rfl some
  | cons t front => rfl

namespace Resumable

variable {E F G : List Token → Prop} {f : List Token → Answer α} {g : α → List Token → Answer β}

theorem bind (first : Resumable E F f) (second : ∀ value, Resumable F G (g value)) :
    Resumable E G fun ts => (f ts).bind g := by
  obtain ⟨suffix, value, parses⟩ := first
  obtain ⟨suffix', value', parses'⟩ := second value
  refine ⟨suffix ++ suffix', value', fun later allowed => ?_⟩
  obtain ⟨between, made', clean', eq'⟩ := parses' later allowed
  obtain ⟨before, made, clean, eq⟩ := parses (suffix' ++ later) between
  rw [List.append_assoc]
  refine ⟨before, made ++ made', clean_append.mpr ⟨clean, clean'⟩, ?_⟩
  dsimp only
  rw [eq, Answer.after_bind, Answer.parsed_bind, eq', Answer.after_after]

theorem nothing (value : α) (allowed : ∀ later, F later → E later)
    (parses : ∀ later, F later → f later = .parsed value later) : Resumable E F f :=
  ⟨[], value, fun later follows => ⟨allowed later follows, [], clean_nil, parses later follows⟩⟩

theorem map {u : α → β} (first : Resumable E F f) : Resumable E F fun ts => (f ts).map u :=
  first.bind fun value => nothing (u value) (fun _ allowed => allowed) fun _ _ => rfl

theorem expect (what : Expectation) {kind : Kind} (one : what.kind? = some kind)
    (allowed : ∀ t later, t.kind = kind → E (t :: later)) :
    Resumable E F fun ts => (Lox.expect what ts).answer := by
  refine ⟨[⟨kind, "", 1⟩], ⟨kind, "", 1⟩, fun later _ => ⟨allowed _ _ rfl, [], clean_nil, ?_⟩⟩
  dsimp only
  rw [List.singleton_append, answer_expect_cons, if_pos one.symm]
  rfl

end Resumable

section Sequences

variable {moves moves' : Bool} {F G : List Token → Prop} {f : List Token → Answer α}
  {g : α → List Token → Answer β} {front front' rest : List Token} {value : α} {value' : β}
  {made made' : List Report}

theorem Passes.goesOn (passes : Passes moves F f front rest value made) {later : List Token}
    (seen : later.head? = rest.head? ∨ F later) :
    (f (front ++ later)).bind g = (g value later).after made := by
  rw [passes.parses later seen, Answer.after_bind, Answer.parsed_bind]

/-- Both parts pass. If the second may take nothing, what may follow it may follow the first. -/
theorem Passes.bind (first : Passes moves F f front (front' ++ rest) value made)
    (second : Passes moves' G (g value) front' rest value' made')
    (idle : moves' = false → ∀ later, G later → F later) :
    Passes (moves || moves') G (fun ts => (f ts).bind g) (front ++ front') rest value'
      (made ++ made') := by
  refine ⟨?_, clean_append.mpr ⟨first.clean, second.clean⟩, fun later allowed => ?_⟩
  · intro moved none
    obtain ⟨rfl, rfl⟩ := List.append_eq_nil_iff.mp none
    rcases Bool.or_eq_true_iff.mp moved with moved | moved
    · exact first.moves moved rfl
    · exact second.moves moved rfl
  · -- The first part sees the same token as before, unless the second one takes none.
    have seen : (front' ++ later).head? = (front' ++ rest).head? ∨ F (front' ++ later) := by
      cases front' with
      | cons t front' => exact .inl rfl
      | nil =>
        refine allowed.imp id (idle ?_ later)
        cases moves' with
        | false => rfl
        | true => exact absurd rfl (second.moves rfl)
    rw [List.append_assoc, first.goesOn seen, second.parses later allowed, Answer.after_after]

theorem Passes.bindBalks (first : Passes moves F f front (front' ++ rest) value made)
    (second : Balks G (g value) front' rest) (resumes : Resumable F G (g value)) :
    Balks G (fun ts => (f ts).bind g) (front ++ front') rest := by
  refine ⟨?_, fun later same => ?_, ?_⟩
  · obtain ⟨before, what, later, clean, reported⟩ := second.first
    refine ⟨made ++ before, what, later, clean_append.mpr ⟨first.clean, clean⟩, ?_⟩
    rw [List.append_assoc, first.goesOn (.inl rfl), Answer.reported_after, reported,
      List.append_assoc]
  · have seen : (front' ++ later).head? = (front' ++ rest).head? := by
      rw [List.head?_append, List.head?_append, same]
    rw [List.append_assoc, first.goesOn (.inl seen), Answer.reported_after, clean_append]
    exact fun clean => second.always later same clean.2
  · -- Where the second part has taken nothing, it is to be completed from what the first allows.
    cases front' with
    | nil =>
      obtain ⟨suffix, value', parses⟩ := resumes
      refine ⟨suffix, value', fun later allowed => ⟨trivial, ?_⟩⟩
      obtain ⟨between, made', clean, eq⟩ := parses later allowed
      refine ⟨made ++ made', clean_append.mpr ⟨first.clean, clean⟩, ?_⟩
      dsimp only
      rw [List.append_nil, first.goesOn (.inr between), eq, Answer.after_after]
    | cons t front' =>
      obtain ⟨suffix, value', parses⟩ := second.viable
      refine ⟨suffix, value', fun later allowed => ⟨trivial, ?_⟩⟩
      obtain ⟨-, made', clean, eq⟩ := parses later allowed
      refine ⟨made ++ made', clean_append.mpr ⟨first.clean, clean⟩, ?_⟩
      have seen : (t :: front' ++ (suffix ++ later)).head? = (t :: front' ++ rest).head? := rfl
      dsimp only at eq ⊢
      rw [List.append_assoc, first.goesOn (.inl seen), eq, Answer.after_after]

theorem Balks.bind (first : Balks F f front rest) (resumes : ∀ value, Resumable F G (g value)) :
    Balks G (fun ts => (f ts).bind g) front rest := by
  refine ⟨?_, fun later same => ?_, first.viable.bind resumes⟩
  · obtain ⟨before, what, later, clean, reported⟩ := first.first
    obtain ⟨more, eq⟩ := reported_bind (f (front ++ rest)) g
    refine ⟨before, what, later ++ more, clean, ?_⟩
    rw [eq, reported, List.append_assoc, List.cons_append]
  · obtain ⟨more, eq⟩ := reported_bind (f (front ++ later)) g
    rw [eq, clean_append]
    exact fun clean => first.always later same clean.1

end Sequences

namespace Detects

variable {moves moves' : Bool} {F G : List Token → Prop} {f h : List Token → Answer α}
  {ts rest : List Token} {t : Token}

theorem congr (detects : Detects moves F f ts) (same : ∀ ts, h ts = f ts) : Detects moves F h ts := by
  rwa [show h = f from funext same]

theorem mono (detects : Detects moves F f ts) (fewer : ∀ later, G later → F later) :
    Detects moves G f ts := by
  rcases detects with ⟨front, rest, value, made, eq, passes⟩ | ⟨front, rest, eq, balks⟩
  · exact .inl ⟨front, rest, value, made, eq, passes.moves, passes.clean, fun later allowed =>
      passes.parses later (allowed.imp_right (fewer later))⟩
  · obtain ⟨suffix, value, parses⟩ := balks.viable
    exact .inr ⟨front, rest, eq, balks.first, balks.always, suffix, value, fun later allowed =>
      parses later (fewer later allowed)⟩

theorem done (value : α)
    (parses : ∀ later, later.head? = ts.head? ∨ F later → f later = .parsed value later) :
    Detects false F f ts :=
  .inl ⟨[], ts, value, [], rfl, nofun, clean_nil, parses⟩

theorem done_nil (value : α) (here : f [] = .parsed value [])
    (closed : ∀ later, F later → f later = .parsed value later) : Detects false F f [] := by
  refine done value fun later allowed => ?_
  rcases allowed with none | follows
  · rw [List.head?_eq_none_iff.mp none]
    exact here
  · exact closed later follows

theorem done_cons (value : α) (here : ∀ later, f (t :: later) = .parsed value (t :: later))
    (closed : ∀ later, F later → f later = .parsed value later) : Detects false F f (t :: rest) := by
  refine done value fun later allowed => ?_
  rcases allowed with same | follows
  · obtain ⟨later, rfl⟩ := List.head?_eq_some_iff.mp same
    exact here later
  · exact closed later follows

theorem refuse (what : Expectation)
    (refuses : ∀ later : List Token, later.head? = ts.head? → f later = .unmet what later)
    (completable : Resumable Anything F f) : Detects moves F f ts := by
  have reported (later : List Token) (same : later.head? = ts.head?) :
      (f later).reported = [⟨ts.head?, .expected what⟩] := by
    rw [refuses later same, ← same]
    rfl
  refine .inr ⟨[], ts, rfl, ⟨[], what, [], clean_nil, reported ts rfl⟩, ?_, completable⟩
  intro later same clean
  rw [List.nil_append, reported later same] at clean
  obtain ⟨rule, violated⟩ := clean _ (List.mem_singleton_self _)
  cases violated

theorem refuse_nil (what : Expectation) (refuses : f [] = .unmet what [])
    (completable : Resumable Anything F f) : Detects moves F f [] := by
  refine refuse what (fun later same => ?_) completable
  rw [List.head?_eq_none_iff.mp same]
  exact refuses

theorem refuse_cons (what : Expectation)
    (refuses : ∀ later, f (t :: later) = .unmet what (t :: later))
    (completable : Resumable Anything F f) : Detects moves F f (t :: rest) := by
  refine refuse what (fun later same => ?_) completable
  obtain ⟨later, rfl⟩ := List.head?_eq_some_iff.mp same
  exact refuses later

theorem past (same : ∀ later, h (t :: later) = f later) (detects : Detects moves F f rest) :
    Detects moves' F h (t :: rest) := by
  rcases detects with ⟨front, rest, value, made, rfl, passes⟩ | ⟨front, rest, rfl, balks⟩
  · refine .inl ⟨t :: front, rest, value, made, rfl, nofun, passes.clean, fun later allowed => ?_⟩
    rw [List.cons_append, same]
    exact passes.parses later allowed
  · have shifted : (fun later => h (t :: front ++ later)) = fun later => f (front ++ later) :=
      funext fun later => same _
    refine .inr ⟨t :: front, rest, rfl, ?_, fun later next => ?_, ?_⟩
    · rw [List.cons_append, same]
      exact balks.first
    · rw [List.cons_append, same]
      exact balks.always later next
    · rw [shifted]
      exact balks.viable

/-- The same as `f` on all lists that begin as `ts` does, where `f` takes a token if it parses. -/
theorem of_head (detects : Detects true F f ts)
    (same : ∀ later : List Token, later.head? = ts.head? → h later = f later)
    (completable : Resumable Anything F h) : Detects moves F h ts := by
  rcases detects with ⟨front, rest, value, made, rfl, passes⟩ | ⟨front, rest, rfl, balks⟩
  · have some := passes.moves rfl
    refine .inl ⟨front, rest, value, made, rfl, fun _ => some, passes.clean, ?_⟩
    intro later allowed
    rw [same _ (head?_append_of_ne_nil some rest later)]
    exact passes.parses later allowed
  · have alike (later : List Token) (next : later.head? = rest.head?) :
        h (front ++ later) = f (front ++ later) := by
      apply same
      rw [List.head?_append, List.head?_append, next]
    refine .inr ⟨front, rest, rfl, ?_, fun later next => ?_, ?_⟩
    · rw [alike rest rfl]
      exact balks.first
    · rw [alike later next]
      exact balks.always later next
    · cases front with
      | nil => exact completable
      | cons t front =>
        have shifted : (fun later => h (t :: front ++ later)) =
            fun later => f (t :: front ++ later) := funext fun later => same _ rfl
        rw [shifted]
        exact balks.viable

theorem of_nil (detects : Detects true F f []) (same : h [] = f [])
    (completable : Resumable Anything F h) : Detects moves F h [] := by
  refine detects.of_head (fun later none => ?_) completable
  rw [List.head?_eq_none_iff.mp none]
  exact same

theorem of_cons (detects : Detects true F f (t :: rest))
    (same : ∀ later, h (t :: later) = f (t :: later))
    (completable : Resumable Anything F h) : Detects moves F h (t :: rest) := by
  refine detects.of_head (fun later begins => ?_) completable
  obtain ⟨later, rfl⟩ := List.head?_eq_some_iff.mp begins
  exact same later

theorem sequence {g : α → List Token → Answer β} (first : Detects moves F f ts)
    (second : ∀ value rest, Leaves moves ts rest → Detects moves' G (g value) rest)
    (resumes : ∀ value, Resumable F G (g value))
    (idle : moves' = false → ∀ later, G later → F later) :
    Detects (moves || moves') G (fun ts => (f ts).bind g) ts := by
  rcases first with ⟨front, rest, value, made, rfl, passes⟩ | ⟨front, rest, rfl, balks⟩
  · rcases second value rest passes.leaves with
      ⟨front', rest', value', made', rfl, passes'⟩ | ⟨front', rest', rfl, balks'⟩
    · exact .inl ⟨front ++ front', rest', value', made ++ made', (List.append_assoc ..).symm,
        passes.bind passes' idle⟩
    · exact .inr ⟨front ++ front', rest', (List.append_assoc ..).symm,
        passes.bindBalks balks' (resumes value)⟩
  · exact .inr ⟨front, rest, rfl, balks.bind resumes⟩

theorem bind {g : α → List Token → Answer β} (first : Detects moves F f ts)
    (second : ∀ value rest, Leaves moves ts rest → Detects true G (g value) rest)
    (resumes : ∀ value, Resumable F G (g value)) :
    Detects true G (fun ts => (f ts).bind g) ts := by
  have both := first.sequence second resumes nofun
  rwa [Bool.or_true] at both

theorem bindIdle {g : α → List Token → Answer β} (first : Detects moves F f ts)
    (second : ∀ value rest, Leaves moves ts rest → Detects false G (g value) rest)
    (resumes : ∀ value, Resumable F G (g value)) (idle : ∀ later, G later → F later) :
    Detects moves G (fun ts => (f ts).bind g) ts := by
  have both := first.sequence second resumes fun _ => idle
  rwa [Bool.or_false] at both

theorem note {u : α → β} {w : α → List Report} (clean : ∀ value, Clean (w value))
    (detects : Detects moves F f ts) :
    Detects moves F (fun ts => (f ts).bind fun value rest =>
      (Answer.parsed (u value) rest).after (w value)) ts := by
  refine detects.bindIdle (fun value rest _ => ?_) (fun value => ?_) fun _ allowed => allowed
  · exact .inl ⟨[], rest, u value, w value, rfl, nofun, clean value, fun _ _ => rfl⟩
  · exact ⟨[], u value, fun _ allowed => ⟨allowed, w value, clean value, rfl⟩⟩

theorem map {u : α → β} (detects : Detects moves F f ts) :
    Detects moves F (fun ts => (f ts).map u) ts :=
  detects.note (w := fun _ => []) fun _ => clean_nil

theorem after {w : List Token → List Report} (clean : ∀ ts, Clean (w ts))
    (one : ∀ {ts ts' : List Token}, ts.head? = ts'.head? → w ts = w ts')
    (detects : Detects true F f ts) : Detects moves F (fun ts => (f ts).after (w ts)) ts := by
  rcases detects with ⟨front, rest, value, made, rfl, passes⟩ | ⟨front, rest, rfl, balks⟩
  · have some := passes.moves rfl
    refine .inl ⟨front, rest, value, w (front ++ rest) ++ made, rfl, fun _ => some,
      clean_append.mpr ⟨clean _, passes.clean⟩, fun later allowed => ?_⟩
    rw [passes.parses later allowed, Answer.after_after,
      one (head?_append_of_ne_nil some rest later)]
  · refine .inr ⟨front, rest, rfl, ?_, fun later same => ?_, ?_⟩
    · obtain ⟨before, what, later, clean', reported⟩ := balks.first
      refine ⟨w (front ++ rest) ++ before, what, later, clean_append.mpr ⟨clean _, clean'⟩, ?_⟩
      rw [Answer.reported_after, reported, List.append_assoc]
    · rw [Answer.reported_after, clean_append]
      exact fun clean => balks.always later same clean.2
    · obtain ⟨suffix, value, parses⟩ := balks.viable
      refine ⟨suffix, value, fun later allowed => ⟨trivial, ?_⟩⟩
      obtain ⟨-, made, clean', eq⟩ := parses later allowed
      refine ⟨w (front ++ (suffix ++ later)) ++ made, clean_append.mpr ⟨clean _, clean'⟩, ?_⟩
      dsimp only at eq ⊢
      rw [eq, Answer.after_after]

/-- Giving up a declaration adds no report to those of the attempt. -/
theorem settle {f : List Token → Answer Stmt} (detects : Detects moves F f ts) :
    Detects moves F (fun ts => Parse.settle (f ts)) ts := by
  have reported (a : Answer Stmt) : (Parse.settle a).reported = a.reported := by
    obtain ⟨outcome, reports⟩ := a
    cases outcome <;> simp [Parse.settle, Answer.parsed, Answer.after, Answer.reported]
  have parsed (stmt : Stmt) (later : List Token) (made : List Report) :
      Parse.settle ((Answer.parsed stmt later).after made) =
        (Answer.parsed (some stmt) later).after made := by
    simp [Parse.settle, Answer.parsed, Answer.after]
  rcases detects with ⟨front, rest, value, made, rfl, passes⟩ | ⟨front, rest, rfl, balks⟩
  · refine .inl ⟨front, rest, some value, made, rfl, passes.moves, passes.clean, ?_⟩
    intro later allowed
    rw [passes.parses later allowed, parsed]
  · refine .inr ⟨front, rest, rfl, ?_, fun later same => ?_, ?_⟩
    · rw [reported]
      exact balks.first
    · rw [reported]
      exact balks.always later same
    · obtain ⟨suffix, value, parses⟩ := balks.viable
      refine ⟨suffix, some value, fun later allowed => ⟨trivial, ?_⟩⟩
      obtain ⟨-, made, clean, eq⟩ := parses later allowed
      dsimp only at eq ⊢
      exact ⟨made, clean, by rw [eq, parsed]⟩

theorem expect (what : Expectation) {kind : Kind} (one : what.kind? = some kind)
    (ts : List Token) : Detects true F (fun ts => (Lox.expect what ts).answer) ts := by
  have completable : Resumable Anything F fun ts => (Lox.expect what ts).answer :=
    .expect what one fun _ _ _ => trivial
  cases ts with
  | nil => exact refuse_nil what (answer_expect_nil what) completable
  | cons t rest =>
    by_cases meets : some t.kind = what.kind?
    · have takes (later : List Token) :
          (Lox.expect what (t :: later)).answer = .parsed t later := by
        rw [answer_expect_cons, if_pos meets]
      exact past takes (done t fun _ _ => rfl)
    · refine refuse_cons what (fun later => ?_) completable
      rw [answer_expect_cons, if_neg meets]

end Detects

def Before (kind : Kind) (later : List Token) : Prop := ∃ t rest, later = t :: rest ∧ t.kind = kind

def Closing (later : List Token) : Prop :=
  ∃ t rest, later = t :: rest ∧ closesPhrase t.kind = true

theorem Before.closing {kind : Kind} (closes : closesPhrase kind = true) {later : List Token}
    (next : Before kind later) : Closing later := by
  obtain ⟨t, rest, rfl, rfl⟩ := next
  exact ⟨t, rest, rfl, closes⟩

theorem Before.any {kind : Kind} {later : List Token} (next : Before kind later) :
    later.head?.any (·.kind = kind) := by
  obtain ⟨t, rest, rfl, rfl⟩ := next
  simp

/-- Nothing is taken before a token of kind `stop`, and before others it is as `f` does. -/
theorem Detects.stopping {stop : Kind} {f h : List Token → Answer α} {value : α} {ts : List Token}
    (cases : ∀ ts, h ts = if ts.head?.any (·.kind = stop) then .parsed value ts else f ts)
    (detects : Detects true (Before stop) f ts) : Detects false (Before stop) h ts := by
  have stops (later : List Token) (next : Before stop later) : h later = .parsed value later := by
    rw [cases, if_pos next.any]
  by_cases here : ts.head?.any (·.kind = stop)
  · refine .done value fun later allowed => ?_
    rcases allowed with same | next
    · rw [cases, if_pos (same ▸ here)]
    · exact stops later next
  · refine detects.of_head (fun later same => ?_) (.nothing value (fun _ _ => trivial) stops)
    rw [cases, if_neg (same ▸ here)]

section Closing

variable {later : List Token}

theorem calls_closing (callee : Expr) (later : List Token) (closing : Closing later) :
    (calls callee later).answer = .parsed callee later := by
  obtain ⟨t, rest, rfl, closes⟩ := closing
  rw [answer_calls_cons, if_neg]
  intro opens
  rw [opens] at closes
  cases closes

theorem operators_closing (power : Nat) (left : Expr) (later : List Token)
    (closing : Closing later) :
    (operators power left later).answer = .parsed left later := by
  obtain ⟨t, rest, rfl, closes⟩ := closing
  have none : t.kind.bindingPower? = none := by
    unfold closesPhrase at closes
    split at closes <;> simp_all [Kind.bindingPower?, Symbol.bindingPower?]
  rw [answer_operators_cons, none]

theorem assignment_closing (value : List Token → Answer Expr) (target : Expr) (later : List Token)
    (closing : Closing later) : assignment value target later = .parsed target later := by
  obtain ⟨t, rest, rfl, closes⟩ := closing
  rw [assignment, if_neg]
  intro equals
  rw [equals] at closes
  cases closes

theorem entries_before (next : List Token → Answer (List α)) (first : α) (later : List Token)
    (closing : Before (.symbol .rightParen) later) :
    entries next first later = .parsed [first] later := by
  obtain ⟨t, rest, rfl, closes⟩ := closing
  rw [entries, if_neg]
  rw [closes]
  decide

def nilToken : Token := ⟨.keyword .nil, "nil", 1⟩

theorem primary_nil (later : List Token) :
    (primary (nilToken :: later)).answer = .parsed (.literal .nil) later := by
  rw [answer_primary_cons]
  rfl

theorem unary_nil (closing : Closing later) :
    (unary (nilToken :: later)).answer = .parsed (.literal .nil) later := by
  rw [answer_unary_cons, if_neg (by decide), answer_call, primary_nil, Answer.parsed_bind,
    calls_closing _ later closing]

theorem operation_nil (power : Nat) (closing : Closing later) :
    (operation power (nilToken :: later)).answer = .parsed (.literal .nil) later := by
  rw [answer_operation, unary_nil closing, Answer.parsed_bind, operators_closing _ _ later closing]

theorem expression_nil (closing : Closing later) :
    (expression (nilToken :: later)).answer = .parsed (.literal .nil) later := by
  rw [answer_expression, operation_nil 0 closing, Answer.parsed_bind, assignment_closing _ _ later closing]

end Closing

theorem Resumable.expression {F : List Token → Prop} (allowed : ∀ later, F (nilToken :: later)) :
    Resumable F Closing fun ts => (Parse.expression ts).answer :=
  ⟨[nilToken], .literal .nil, fun later closing =>
    ⟨allowed later, [], clean_nil, expression_nil closing⟩⟩

theorem countReports_clean (rule : Violation) (count : Nat) (ts : List Token) :
    Clean (countReports rule count ts) := by
  unfold countReports
  split
  · intro r member
    rw [List.mem_singleton.mp member]
    exact ⟨rule, rfl⟩
  · exact clean_nil

theorem countReports_head {rule : Violation} {count : Nat} {ts ts' : List Token}
    (same : ts.head? = ts'.head?) : countReports rule count ts = countReports rule count ts' := by
  unfold countReports
  rw [same]

theorem assignTo_clean (target : Expr) (equals : Token) (value : Expr) :
    Clean (assignTo target equals value).2 := by
  unfold assignTo
  split
  · exact clean_nil
  · intro r member
    rw [List.mem_singleton.mp member]
    exact ⟨_, rfl⟩

theorem Detects.entries {next : List Token → Answer (List α)} {ts : List Token}
    (later : ∀ rest : List Token, rest.length < ts.length →
      Detects true (Before (.symbol .rightParen)) next rest) (first : α) :
    Detects false (Before (.symbol .rightParen)) (Parse.entries next first) ts := by
  cases ts with
  | nil => exact .done_nil [first] rfl (entries_before next first)
  | cons t rest =>
    by_cases comma : t.kind = .symbol .comma
    · have takes (later : List Token) :
          Parse.entries next first (t :: later) = (next later).map (first :: ·) := by
        rw [Parse.entries, if_pos comma]
      exact .past takes (later rest (by simp)).map
    · refine .done_cons [first] (fun later => ?_) (entries_before next first)
      rw [Parse.entries, if_neg comma]

structure ExpressionsDetect (ts : List Token) : Prop where
  expression : Detects true Closing (fun ts => (expression ts).answer) ts
  operation : ∀ power, Detects true Closing (fun ts => (operation power ts).answer) ts
  operators : ∀ power left, Detects false Closing (fun ts => (operators power left ts).answer) ts
  unary : Detects true Closing (fun ts => (unary ts).answer) ts
  calls : ∀ callee, Detects false Closing (fun ts => (calls callee ts).answer) ts
  arguments : Detects false (Before (.symbol .rightParen)) (fun ts => (arguments ts).answer) ts
  argumentList : ∀ count, Detects true (Before (.symbol .rightParen))
    (fun ts => (argumentList count ts).answer) ts

section Expressions

variable {ts : List Token}
  (shorter : ∀ rest : List Token, rest.length < ts.length → ExpressionsDetect rest)
include shorter

theorem primary_detects : Detects true Anything (fun ts => (primary ts).answer) ts := by
  have completable : Resumable Anything Anything fun ts => (primary ts).answer :=
    ⟨[nilToken], .literal .nil, fun later _ => ⟨trivial, [], clean_nil, primary_nil later⟩⟩
  cases ts with
  | nil => exact .refuse_nil .expression answer_primary_nil completable
  | cons t rest =>
    have takes (later : List Token) := answer_primary_cons t later
    cases constant : constant? t.kind with
    | some l =>
      simp only [constant] at takes
      exact .past takes (.done _ fun _ _ => rfl)
    | none =>
      by_cases name : t.kind = .identifier
      · simp only [constant, if_pos name] at takes
        exact .past takes (.done _ fun _ _ => rfl)
      · by_cases opens : t.kind = .symbol .leftParen
        · simp only [constant, if_neg name, if_pos opens] at takes
          refine .past takes
            ((shorter rest (by simp)).expression.bind (fun inner rest₁ _ => ?_) fun inner => ?_)
          · exact (Detects.expect .parenAfterExpression rfl rest₁).map
          · refine (Resumable.expect .parenAfterExpression rfl fun t later closes => ?_).map
            exact ⟨t, later, rfl, congrArg closesPhrase closes⟩
        · simp only [constant, if_neg name, if_neg opens] at takes
          exact .refuse_cons .expression takes completable

theorem calls_detects (callee : Expr) :
    Detects false Closing (fun ts => (calls callee ts).answer) ts := by
  have closed := calls_closing callee
  cases ts with
  | nil => exact .done_nil callee (answer_calls_nil callee) closed
  | cons t rest =>
    have takes (later : List Token) := answer_calls_cons callee t later
    by_cases opens : t.kind = .symbol .leftParen
    · simp only [if_pos opens] at takes
      have again (args : List Expr) (paren : Token) :
          Resumable Anything Closing fun ts => (calls (.call callee paren args) ts).answer :=
        .nothing _ (fun _ _ => trivial) (calls_closing _)
      refine .past takes ((shorter rest (by simp)).arguments.bind (fun args rest₁ first => ?_)
        fun args => ?_)
      · refine (Detects.expect .parenAfterArguments rfl rest₁).bindIdle (fun paren rest₂ second => ?_)
          (again args) fun _ _ => trivial
        exact (shorter rest₂ (Nat.lt_succ_of_le (first.trans second).length_le)).calls _
      · exact (Resumable.expect .parenAfterArguments rfl fun t later closes =>
          ⟨t, later, rfl, closes⟩).bind (again args)
    · simp only [if_neg opens] at takes
      exact .done_cons callee takes closed

theorem call_detects : Detects true Closing (fun ts => (call ts).answer) ts := by
  refine Detects.congr ?_ answer_call
  refine (primary_detects shorter).bindIdle (fun callee rest less => ?_) (fun callee => ?_)
    fun _ _ => trivial
  · exact (shorter rest less).calls callee
  · exact .nothing _ (fun _ _ => trivial) (calls_closing callee)

theorem unary_detects : Detects true Closing (fun ts => (unary ts).answer) ts := by
  have completable : Resumable Anything Closing fun ts => (unary ts).answer :=
    ⟨[nilToken], .literal .nil, fun later closing => ⟨trivial, [], clean_nil, unary_nil closing⟩⟩
  have plain := call_detects shorter
  cases ts with
  | nil => exact plain.of_nil answer_unary_nil completable
  | cons t rest =>
    have takes (later : List Token) := answer_unary_cons t later
    by_cases sign : t.kind = .symbol .bang ∨ t.kind = .symbol .minus
    · simp only [if_pos sign] at takes
      exact .past takes (shorter rest (by simp)).unary.map
    · simp only [if_neg sign] at takes
      exact plain.of_cons takes completable

theorem operators_detects (power : Nat) (left : Expr) :
    Detects false Closing (fun ts => (operators power left ts).answer) ts := by
  have closed := operators_closing power left
  cases ts with
  | nil => exact .done_nil left (answer_operators_nil power left) closed
  | cons op rest =>
    have takes (later : List Token) := answer_operators_cons power left op later
    cases powers : op.kind.bindingPower? with
    | none =>
      simp only [powers] at takes
      exact .done_cons left takes closed
    | some both =>
      obtain ⟨leftPower, rightPower⟩ := both
      by_cases looser : leftPower < power
      · simp only [powers, if_pos looser] at takes
        exact .done_cons left takes closed
      · simp only [powers, if_neg looser] at takes
        refine .past takes (((shorter rest (by simp)).operation rightPower).bindIdle
          (fun right rest' less => ?_) (fun right => ?_) fun _ closing => closing)
        · exact (shorter rest' (Nat.lt_succ_of_lt less)).operators power _
        · exact .nothing _ (fun _ closing => closing) (operators_closing _ _)

theorem operation_detects (power : Nat) :
    Detects true Closing (fun ts => (operation power ts).answer) ts := by
  refine Detects.congr ?_ (answer_operation power)
  refine (unary_detects shorter).bindIdle (fun left rest less => ?_) (fun left => ?_)
    fun _ closing => closing
  · exact (shorter rest less).operators power left
  · exact .nothing _ (fun _ closing => closing) (operators_closing _ _)

theorem expression_detects_of_shorter :
    Detects true Closing (fun ts => (expression ts).answer) ts := by
  refine Detects.congr ?_ answer_expression
  refine (operation_detects shorter 0).bindIdle (fun target left less => ?_) (fun target => ?_)
    fun _ closing => closing
  · have closed := assignment_closing (fun rest => (expression rest).answer) target
    cases left with
    | nil => exact .done_nil target rfl closed
    | cons t rest =>
      by_cases equals : t.kind = .symbol .equal
      · refine .past (fun later => if_pos equals)
          ((shorter rest (Nat.lt_of_succ_lt less)).expression.note (assignTo_clean target t))
      · exact .done_cons target (fun later => if_neg equals) closed
  · exact .nothing _ (fun _ closing => closing) (assignment_closing _ target)

theorem argumentList_detects (count : Nat) :
    Detects true (Before (.symbol .rightParen)) (fun ts => (argumentList count ts).answer) ts := by
  refine Detects.congr ?_ (answer_argumentList count)
  refine Detects.after (countReports_clean _ count) countReports_head ?_
  refine (expression_detects_of_shorter shorter).bindIdle (fun first left less => ?_)
    (fun first => ?_) fun _ closing => closing.closing rfl
  · exact Detects.entries (fun rest less' =>
      (shorter rest (Nat.lt_trans less' less)).argumentList (count + 1)) first
  · exact .nothing _ (fun _ closing => closing.closing rfl) (entries_before _ first)

theorem arguments_detects :
    Detects false (Before (.symbol .rightParen)) (fun ts => (arguments ts).answer) ts :=
  .stopping answer_arguments (argumentList_detects shorter 0)

end Expressions

theorem expressionsDetect (ts : List Token) : ExpressionsDetect ts := by
  induction ts using shorterInduction with
  | step ts ih =>
    exact ⟨expression_detects_of_shorter ih, operation_detects ih, operators_detects ih,
      unary_detects ih, calls_detects ih, arguments_detects ih, argumentList_detects ih⟩

theorem expression_detects (ts : List Token) :
    Detects true Closing (fun ts => (expression ts).answer) ts :=
  (expressionsDetect ts).expression

end Lox.Parse
