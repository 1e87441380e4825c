import Mathlib.Data.List.Permutation
import Lox.CommandLine
import Lox.Proofs.Lockstep
import Lox.Proofs.PrintedLines
import Lox.Proofs.Safety

/- Conversations at the prompt. The input is cut into lines of text up to the first line that is none.
   Each text is a turn of one session and finds what the turns before it have left, however they
   ended. What is printed is what the turns print; listings and reports are written apart from it. -/
namespace Lox

namespace Session

variable {fuel fuel' : Nat} {source : String} {s : Session}

theorem run_of_le (le : fuel ≤ fuel')
    (ended : (s.run fuel source).1 ≠ .error (.stopped .outOfFuel)) :
    s.run fuel' source = s.run fuel source := by
  by_cases accepted : (Program.ofText source).diagnostics = []
  · rw [run_of_accepted accepted] at ended ⊢
    have alive :
        ¬ Spent (Lox.interpret s.natives fuel (Program.ofText source).statements s.machine) := by
      cases ran : Lox.interpret s.natives fuel (Program.ofText source).statements s.machine with
      | ok _ m => exact id
      | error why m =>
        rw [ran] at ended
        rw [spent_error]
        rintro rfl
        exact ended rfl
    rw [interpret_of_le le alive, run_of_accepted accepted]
  · rw [run_of_diagnostics accepted, run_of_diagnostics accepted]

theorem output_run (fuel : Nat) (source : String) (s : Session) :
    (s.run fuel source).2.machine.output =
      s.machine.output ++ ((s.run fuel source).2.printedSince s.machine.output.size).toArray := by
  suffices grows : ∃ lines, (s.run fuel source).2.machine.output = s.machine.output ++ lines by
    obtain ⟨lines, eq⟩ := grows
    simp [printedSince, eq]
  have adds :=
    (interpret_onlyPrints s.natives fuel (Program.ofText source).statements).output_grows s.machine
  have answers := s.run_answers fuel source
  generalize s.run fuel source = r at answers
  unfold final at adds
  cases answers with
  | rejected found => exact ⟨#[], Array.append_empty.symm⟩
  | done accepted ran | stopped accepted ran =>
    rw [ran] at adds
    exact adds

end Session

namespace CommandLine

section Input

def newline : UInt8 := 10

/-- The lines of an input, each with its newline, which the last one may lack. -/
inductive SplitsInto : List UInt8 → List (List UInt8) → Prop where
  | none : SplitsInto [] []
  | last {line : List UInt8} (some : line ≠ []) (plain : newline ∉ line) : SplitsInto line [line]
  | ended {line rest : List UInt8} {later : List (List UInt8)} (plain : newline ∉ line)
      (splits : SplitsInto rest later) :
      SplitsInto (line ++ newline :: rest) ((line ++ [newline]) :: later)

variable {b : UInt8} {input line : List UInt8} {ls : List (List UInt8)}

theorem splitLines_cons (plain : newline ≠ b) (input : List UInt8) :
    splitLines (b :: input) =
      match splitLines input with
      | [] => [[b]]
      | line :: rest => (b :: line) :: rest :=
  if_neg plain.symm

theorem splitLines_last (some : line ≠ []) (plain : newline ∉ line) : splitLines line = [line] := by
  induction line with
  | nil => exact absurd rfl some
  | cons b line ih =>
    rw [List.mem_cons, not_or] at plain
    rw [splitLines_cons plain.1]
    cases line with
    | nil => rfl
    | cons c line => rw [ih (List.cons_ne_nil c line) plain.2]

theorem splitLines_ended (plain : newline ∉ line) (rest : List UInt8) :
    splitLines (line ++ newline :: rest) = (line ++ [newline]) :: splitLines rest := by
  induction line with
  | nil => rfl
  | cons b line ih =>
    rw [List.mem_cons, not_or] at plain
    rw [List.cons_append, splitLines_cons plain.1, ih plain.2]
    rfl

theorem SplitsInto.splitLines_eq (splits : SplitsInto input ls) : splitLines input = ls := by
  induction splits with
  | none => rfl
  | last some plain => exact splitLines_last some plain
  | ended plain _ ih => rw [splitLines_ended plain, ih]

theorem splitsInto_splitLines (input : List UInt8) : SplitsInto input (splitLines input) := by
  induction input with
  | nil => exact .none
  | cons b input ih =>
    by_cases ends : newline = b
    · subst ends
      exact .ended (List.not_mem_nil : newline ∉ []) ih
    · rw [splitLines_cons ends]
      have plain {line : List UInt8} (plain : newline ∉ line) : newline ∉ b :: line :=
        List.not_mem_cons_of_ne_of_not_mem ends plain
      generalize splitLines input = ls at ih
      cases ih with
      | none => exact .last (List.cons_ne_nil b []) (plain List.not_mem_nil)
      | last _ others => exact .last (List.cons_ne_nil b _) (plain others)
      | ended others splits => exact .ended (plain others) splits

def bytes (text : String) : List UInt8 := text.toUTF8.data.toList

theorem decode_eq (b : ByteArray) :
    decode b = if valid : b.IsValidUTF8 then .ok ⟨b, valid⟩ else .error .notUtf8 := by
  unfold decode String.fromUTF8?
  by_cases valid : b.IsValidUTF8
  · simp only [dif_pos valid]
    rfl
  · simp only [dif_neg valid]

theorem decode_bytes (text : String) : decode ⟨(bytes text).toArray⟩ = .ok text :=
  (decode_eq text.toByteArray).trans (dif_pos text.isValidUTF8)

theorem decode_of_invalid (invalid : ¬ ByteArray.IsValidUTF8 ⟨line.toArray⟩) :
    decode ⟨line.toArray⟩ = .error .notUtf8 :=
  (decode_eq _).trans (dif_neg invalid)

/-- The texts that an input begins with, and the lines from the first on that is no text. -/
structure Heard (input : List UInt8) (texts : List String) (rest : List (List UInt8)) : Prop where
  splits : SplitsInto input (texts.map bytes ++ rest)
  invalid : ∀ line ∈ rest.head?, ¬ ByteArray.IsValidUTF8 ⟨line.toArray⟩

theorem heard_exists (input : List UInt8) : ∃ texts rest, Heard input texts rest := by
  suffices cut : ∀ ls : List (List UInt8), ∃ texts rest, ls = List.map bytes texts ++ rest ∧
      ∀ line ∈ rest.head?, ¬ ByteArray.IsValidUTF8 ⟨line.toArray⟩ by
    obtain ⟨texts, rest, eq, invalid⟩ := cut (splitLines input)
    exact ⟨texts, rest, eq ▸ splitsInto_splitLines input, invalid⟩
  intro ls
  induction ls with
  | nil => exact ⟨[], [], rfl, nofun⟩
  | cons line ls ih =>
    by_cases valid : ByteArray.IsValidUTF8 ⟨line.toArray⟩
    · obtain ⟨texts, rest, rfl, invalid⟩ := ih
      exact ⟨⟨_, valid⟩ :: texts, rest, rfl, invalid⟩
    · exact ⟨[], line :: ls, rfl, fun _ isFirst => Option.some.inj isFirst ▸ valid⟩

end Input

/-- One text of a conversation: the session that it found and the one that it left. -/
structure Turn where
  text : String
  before : Session
  result : Except Failure Unit
  after : Session

namespace Turn

def ofText (fuel : Nat) (s : Session) (text : String) : Turn where
  text := text
  before := s
  result := (s.run fuel text).1
  after := (s.run fuel text).2

def printed (t : Turn) : List String := t.after.printedSince t.before.machine.output.size

def report (t : Turn) : String :=
  match t.result with
  | .ok _ => ""
  | .error failure => failureReport failure

/-- The text was cut off before its end. -/
def IsSpent (t : Turn) : Prop := t.result = .error (.stopped .outOfFuel)

instance decidableIsSpent (t : Turn) : Decidable t.IsSpent := inferInstanceAs (Decidable (_ = _))

/-- A text is run to its end, or rejected and not run at all, or run up to a fault. -/
inductive Ends (t : Turn) : Prop where
  | done (accepted : (Program.ofText t.text).diagnostics = []) (result : t.result = .ok ())
      (unreported : t.report = "")
  | rejected (found : (Program.ofText t.text).diagnostics ≠ [])
      (result : t.result = .error (.rejected (Program.ofText t.text).diagnostics))
      (unchanged : t.after = t.before) (silent : t.printed = [])
      (reported : t.report = Diagnostic.listing (Program.ofText t.text).diagnostics)
  | faulted (f : Fault) (accepted : (Program.ofText t.text).diagnostics = [])
      (result : t.result = .error (.stopped (.fault f))) (reported : t.report = f.render ++ "\n")

end Turn

/-- The turns of one session, each from where the one before it has left. -/
def turns (fuel : Nat) (s : Session) : List String → List Turn
  | [] => []
  | text :: texts => .ofText fuel s text :: turns fuel (s.run fuel text).2 texts

/-- The prompt before each turn, the printed lines of the turn, and the prompt before the end. -/
def spoken (ts : List Turn) : String :=
  String.join (ts.map fun t => promptText ++ lines t.printed) ++ promptText

/-- For each turn the listings asked for, then its report. -/
def noted (o : Options) (ts : List Turn) : String :=
  String.join (ts.map fun t => listing o t.text ++ t.report)

def closing (rest : List (List UInt8)) : String :=
  if rest.isEmpty then "" else readFailure "input" .notUtf8

section Turns

variable {o : Options} {fuel fuel' : Nat} {s : Session} {texts : List String}
  {rest : List (List UInt8)}

theorem prompt_of_invalid (invalid : ∀ line ∈ rest.head?, ¬ ByteArray.IsValidUTF8 ⟨line.toArray⟩) :
    prompt o fuel s rest = ⟨promptText, closing rest⟩ := by
  cases rest with
  | nil => rfl
  | cons line rest =>
    rw [prompt, promptStep, decode_of_invalid (invalid line rfl)]
    rfl

theorem prompt_cons (o : Options) (fuel : Nat) (s : Session) (text : String)
    (ls : List (List UInt8)) :
    prompt o fuel s (bytes text :: ls) =
      ⟨promptText ++ lines (Turn.ofText fuel s text).printed,
        listing o text ++ (Turn.ofText fuel s text).report⟩ ++
        prompt o fuel (s.run fuel text).2 ls := by
  rw [prompt, promptStep, decode_bytes]
  show (⟨promptText ++ lines (Turn.ofText fuel s text).printed,
    "" ++ (listing o text ++ (Turn.ofText fuel s text).report)⟩ : Transcript) ++
      prompt o fuel (s.run fuel text).2 ls = _
  rw [String.empty_append]

theorem spoken_cons (t : Turn) (ts : List Turn) :
    spoken (t :: ts) = promptText ++ lines t.printed ++ spoken ts := by
  simp [spoken, String.join_cons, String.append_assoc]

theorem noted_cons (o : Options) (t : Turn) (ts : List Turn) :
    noted o (t :: ts) = listing o t.text ++ t.report ++ noted o ts := by
  simp [noted, String.join_cons, String.append_assoc]

/-- The prompt goes through all texts, whatever their ends. -/
theorem prompt_eq_turns (invalid : ∀ line ∈ rest.head?, ¬ ByteArray.IsValidUTF8 ⟨line.toArray⟩)
    (s : Session) (texts : List String) :
    prompt o fuel s (texts.map bytes ++ rest) =
      ⟨spoken (turns fuel s texts), noted o (turns fuel s texts) ++ closing rest⟩ := by
  induction texts generalizing s with
  | nil =>
    rw [List.map_nil, List.nil_append, prompt_of_invalid invalid, turns]
    simp [spoken, noted]
  | cons text texts ih =>
    rw [List.map_cons, List.cons_append, prompt_cons, ih, turns, spoken_cons, noted_cons]
    exact congrArg (Transcript.mk _) String.append_assoc.symm

theorem turns_of_le (le : fuel ≤ fuel') (ended : ∀ t ∈ turns fuel s texts, ¬ t.IsSpent) :
    turns fuel' s texts = turns fuel s texts := by
  induction texts generalizing s with
  | nil => rfl
  | cons text texts ih =>
    rw [turns, List.forall_mem_cons] at ended
    have same := Session.run_of_le le ended.1
    rw [turns, turns, Turn.ofText, Turn.ofText, same, ih ended.2]

theorem texts_of_turns (fuel : Nat) (s : Session) (texts : List String) :
    (turns fuel s texts).map (·.text) = texts := by
  induction texts generalizing s with
  | nil => rfl
  | cons text texts ih => exact congrArg (text :: ·) (ih _)

theorem ofText_ends {natives : List Native} (faithful : ∀ f ∈ natives, f.Faithful natives) {l : Log}
    (sound : l.Sound natives) (same : l.now.machine = s.machine) (host : s.natives = natives)
    {text : String} (ended : ¬ (Turn.ofText fuel s text).IsSpent) :
    (Turn.ofText fuel s text).Ends := by
  have read : (Step.run fuel text).Read natives := trivial
  have unstuck (what : Stuck) : (s.run fuel text).1 ≠ .error (.stopped (.stuck what)) :=
    Step.not_stuck faithful sound same host read what
  have answers := s.run_answers fuel text
  unfold Turn.ofText Turn.IsSpent at *
  generalize s.run fuel text = r at *
  cases answers with
  | rejected found =>
    exact .rejected found rfl rfl (by simp [Turn.printed, Session.printedSince]) rfl
  | done accepted ran => exact .done accepted rfl rfl
  | @stopped why m accepted ran =>
    cases why with
    | fault f => exact .faulted f accepted rfl rfl
    | stuck what => exact absurd rfl (unstuck what)
    | outOfFuel => exact absurd rfl ended

/-- A turn leaves its session as sound as it was, so all turns to come have one of these ends. -/
theorem turns_end {natives : List Native} (faithful : ∀ f ∈ natives, f.Faithful natives) {l : Log}
    (sound : l.Sound natives) (same : l.now.machine = s.machine) (host : s.natives = natives)
    (ended : ∀ t ∈ turns fuel s texts, ¬ t.IsSpent) : ∀ t ∈ turns fuel s texts, t.Ends := by
  induction texts generalizing s l with
  | nil => exact List.forall_mem_nil _
  | cons text texts ih =>
    rw [turns, List.forall_mem_cons] at ended ⊢
    obtain ⟨same', host'⟩ := Step.record_machine (.run fuel text) same host
    have read : (Step.run fuel text).Read natives := trivial
    have sound' := Step.record_sound faithful sound read
    exact ⟨ofText_ends faithful sound same host ended.1, ih sound' same' host' ended.2⟩

theorem turns_print (fuel : Nat) (s : Session) (texts : List String) :
    ∀ t ∈ turns fuel s texts,
      t.after.machine.output = t.before.machine.output ++ t.printed.toArray := by
  induction texts generalizing s with
  | nil => exact List.forall_mem_nil _
  | cons text texts ih => exact List.forall_mem_cons.mpr ⟨s.output_run fuel text, ih _⟩

end Turns

def flags (listTokens listTree : Bool) : List String :=
  (if listTokens then ["--print-tokens"] else []) ++ if listTree then ["--print-ast"] else []

theorem read?_flags {args : List String} {listTokens listTree : Bool}
    (asked : args.Perm (flags listTokens listTree)) :
    Options.initial.read? args = some ⟨none, listTokens, listTree⟩ := by
  cases listTokens <;> cases listTree
  · obtain rfl := List.perm_nil.mp asked
    rfl
  · obtain rfl := List.perm_singleton.mp asked
    rfl
  · obtain rfl := List.perm_singleton.mp asked
    rfl
  · rcases List.perm_pair.mp asked with rfl | rfl <;> rfl

/-- With faithful host functions a conversation is one session that runs the texts of the input in
turn, up to the first line that is no text. If no turn is cut off, each has run its text to the end,
rejected it and left all as it was, or run it up to a fault, and the next turn follows in any case.
The turns alone make up the standard output and the exit code; what was listed goes to the standard
error output, before the report on each text. More fuel changes nothing. -/
theorem prompt_folds_turns {natives : List Native} (faithful : ∀ f ∈ natives, f.Faithful natives)
    (input : List UInt8) :
    (∃ texts rest, Heard input texts rest) ∧
    ∀ texts rest, Heard input texts rest → ∀ fuel,
      let ts := turns fuel (.start natives) texts
      (∀ t ∈ ts, ¬ t.IsSpent) →
      ts.map (·.text) = texts ∧
      (∀ t ∈ ts, t.after.machine.output = t.before.machine.output ++ t.printed.toArray ∧ t.Ends) ∧
      ∀ fuel' ≥ fuel, ∀ listTokens listTree, ∀ args : List String,
        args.Perm (flags listTokens listTree) → ∀ file,
        run fuel' args file input natives =
          ⟨⟨spoken ts, noted ⟨none, listTokens, listTree⟩ ts ++ closing rest⟩, 0⟩ := by
  refine ⟨heard_exists input, ?_⟩
  intro texts rest heard fuel ts ended
  have fresh : ∀ step ∈ [], Step.Read natives step := List.forall_mem_nil _
  have sound := Log.of_sound faithful fresh
  obtain ⟨same, host⟩ := Log.of_session natives []
  have ends := turns_end faithful sound same host ended
  have print := turns_print fuel (.start natives) texts
  refine ⟨texts_of_turns fuel _ texts, fun t member => ⟨print t member, ends t member⟩, ?_⟩
  intro fuel' le listTokens listTree args asked file
  have more : turns fuel' (.start natives) texts = ts := turns_of_le le ended
  rw [run, read?_flags asked]
  show (⟨prompt _ fuel' (.start natives) (splitLines input), 0⟩ : Result) = _
  rw [heard.splits.splitLines_eq, prompt_eq_turns heard.invalid, more]

/-- Three texts, of which the second is rejected and the third faults behind a printed line, then a
line that is no text and one that is not read any more. -/
theorem prompt_folds_turns_faulting :
    let texts := ["var a = true;\n", "a = ;\n", "print a; print -nil;\n"]
    let rest := [[255, newline], bytes "print 1;"]
    let input := texts.flatMap bytes ++ rest.flatten
    Heard input texts rest ∧
    (∀ t ∈ turns 30 (.start Native.standard) texts, ¬ t.IsSpent) ∧
    ["--print-ast"].Perm (flags false true) ∧
    run 30 ["--print-ast"] (fun _ => .error .missing) input =
      ⟨⟨"> > > true\n> ", "(var a true)\n[line 1] Error at ';': Expect expression.\n(print a)\n" ++
        "(print (- nil))\nOperand must be a number.\n[line 1]\n" ++
        "error reading input: stream did not contain valid UTF-8\n"⟩, 0⟩ := by
  intro texts rest input
  have cut : splitLines input = texts.map bytes ++ rest := by decide +kernel
  have heard : Heard input texts rest := by
    refine ⟨cut ▸ splitsInto_splitLines input, ?_⟩
    rintro - ⟨⟩
    decide +kernel
  have ended : ∀ t ∈ turns 30 (.start Native.standard) texts, ¬ t.IsSpent := by decide +kernel
  refine ⟨heard, ended, .refl _, ?_⟩
  have faithful : ∀ f ∈ Native.standard, f.Faithful Native.standard := Native.builtins_faithful _
  obtain ⟨-, -, runs⟩ := (prompt_folds_turns faithful input).2 texts rest heard 30 ended
  rw [runs 30 (Nat.le_refl _) false true ["--print-ast"] (.refl _)]
  decide +kernel

end CommandLine
end Lox
