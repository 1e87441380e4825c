import Lox.Proofs.EarliestFault
import Lox.Proofs.Munch

/- Texts joined by a line break. A line break ends every token and every comment, but not a string
   that is still open; so the tokens and the diagnostics of the whole are those of its parts. And no
   program goes on where another could have ended, so the statements are those of the parts too. What
   comes from the second part is further down. -/
namespace Lox

section Cutting

variable {c x : Char} {cs more : List Char}

theorem takeWhile_append_stop {q : Char → Bool} (stops : q x = false) (cs more : List Char) :
    (cs ++ x :: more).takeWhile q = cs.takeWhile q := by
  induction cs with
  | nil => simp [stops]
  | cons c cs ih => simp [List.takeWhile_cons, ih]

theorem dropWhile_append_stop {q : Char → Bool} (stops : q x = false) (cs more : List Char) :
    (cs ++ x :: more).dropWhile q = cs.dropWhile q ++ x :: more := by
  induction cs with
  | nil => simp [stops]
  | cons c cs ih =>
    simp only [List.cons_append, List.dropWhile_cons, ih]
    split <;> rfl

namespace Piece

def isOpen : Piece → Bool
  | .unterminated _ => true
  | _ => false

theorem splitNumber_append_break (cs more : List Char) :
    splitNumber (cs ++ '\n' :: more) =
      ((splitNumber cs).1, (splitNumber cs).2 ++ '\n' :: more) := by
  have taken := takeWhile_append_stop (show Char.isDigit '\n' = false by decide)
  have dropped := dropWhile_append_stop (show Char.isDigit '\n' = false by decide)
  unfold splitNumber
  rw [taken, dropped]
  cases cs.dropWhile Char.isDigit with
  | nil => rfl
  | cons point rest =>
    by_cases dot : point = '.'
    · subst dot
      cases rest with
      | nil => rfl
      | cons d rest =>
        simp only [List.cons_append]
        split
        · rw [taken, dropped]
        · rfl
    · have other (tail : List Char) {d : Char} {tail' : List Char} :
          point :: tail ≠ '.' :: d :: tail' := fun eq => dot (List.cons.inj eq).1
      simp only [List.cons_append]
      split
      · rename_i eq
        exact absurd eq (other _)
      · split
        · rename_i eq
          exact absurd eq (other _)
        · rfl

theorem splitString_append_break (closed : (splitString cs).1.isOpen = false)
    (more : List Char) :
    splitString (cs ++ '\n' :: more) =
      ((splitString cs).1, (splitString cs).2 ++ '\n' :: more) := by
  unfold splitString at closed ⊢
  cases rest : cs.dropWhile (· != '"') with
  | nil =>
    simp only [rest] at closed
    cases closed
  | cons quote rest' =>
    -- The closing quote is in the text, so both runs end before the line break.
    have short : (cs.takeWhile (· != '"')).length ≠ cs.length := by
      have total := congrArg List.length (List.takeWhile_append_dropWhile (p := (· != '"')) (l := cs))
      rw [List.length_append, rest, List.length_cons] at total
      omega
    rw [List.takeWhile_append, if_neg short, List.dropWhile_append, rest]
    rfl

theorem splitSymbol_alone (noComment : ¬ (c = '/' ∧ cs.head? = some '/'))
    (noPair : ∀ s, Symbol.withEqual? c = some s → cs.head? ≠ some '=') :
    splitSymbol c cs =
      match Symbol.single? c with
      | some s => (.token (.symbol s) [c], cs)
      | none => (.unexpected c, cs) := by
  unfold splitSymbol
  split
  · exact absurd ⟨rfl, rfl⟩ noComment
  · split
    · exact absurd rfl (noPair _ ‹Symbol.withEqual? c = some _›)
    · rfl

theorem splitSymbol_pair {s : Symbol} (pair : Symbol.withEqual? c = some s) (rest : List Char) :
    splitSymbol c ('=' :: rest) = (.token (.symbol s) [c, '='], rest) := by
  unfold Symbol.withEqual? at pair
  split at pair <;> cases pair <;> rfl

theorem splitSymbol_append_break (c : Char) (cs more : List Char) :
    splitSymbol c (cs ++ '\n' :: more) =
      ((splitSymbol c cs).1, (splitSymbol c cs).2 ++ '\n' :: more) := by
  have next (x : Char) (other : x ≠ '\n') :
      (cs ++ '\n' :: more).head? = some x ↔ cs.head? = some x := by
    cases cs with
    | nil => simp [other.symm]
    | cons d rest => rfl
  by_cases comment : c = '/' ∧ cs.head? = some '/'
  · obtain ⟨rfl, begins⟩ := comment
    obtain ⟨rest, rfl⟩ := List.head?_eq_some_iff.mp begins
    simp only [List.cons_append, splitSymbol]
    rw [takeWhile_append_stop (q := (· != '\n')) rfl, dropWhile_append_stop (q := (· != '\n')) rfl]
  · by_cases pair : ∃ s, Symbol.withEqual? c = some s ∧ cs.head? = some '='
    · obtain ⟨s, first, begins⟩ := pair
      obtain ⟨rest, rfl⟩ := List.head?_eq_some_iff.mp begins
      rw [List.cons_append, splitSymbol_pair first, splitSymbol_pair first]
    · have noPair (s : Symbol) (first : Symbol.withEqual? c = some s) : cs.head? ≠ some '=' :=
        fun begins => pair ⟨s, first, begins⟩
      rw [splitSymbol_alone comment noPair, splitSymbol_alone]
      · cases Symbol.single? c <;> rfl
      · rwa [next '/' (by decide)]
      · intro s first
        rw [Ne, next '=' (by decide)]
        exact noPair s first

/-- A line break after the text changes nothing about its first piece, if that is no blank run. -/
theorem first_append_break (noBlank : ¬ isBlank c = true)
    (closed : (first c cs).1.isOpen = false) (more : List Char) :
    first c (cs ++ '\n' :: more) = ((first c cs).1, (first c cs).2 ++ '\n' :: more) := by
  unfold first at closed ⊢
  simp only [if_neg noBlank] at closed ⊢
  split
  · have stops : isWordPart '\n' = false := by decide
    rw [takeWhile_append_stop stops, dropWhile_append_stop stops]
  · rename_i noWord
    split
    · rw [← List.cons_append, splitNumber_append_break]
      rfl
    · rename_i noDigit
      split
      · rename_i quote
        simp only [if_neg noWord, if_neg noDigit, if_pos quote] at closed
        exact splitString_append_break closed more
      · exact splitSymbol_append_break c cs more

end Piece
end Cutting

section Scanning

instance : Lined Scan where
  relabel g s := ⟨relabel g s.tokens, relabel g s.diagnostics⟩
  relabel_id s := by simp
  relabel_relabel g h s := by simp

variable {cs more : List Char}

namespace Scan

theorem ofPieces_add (line k : Nat) (ps : List Piece) :
    ofPieces (line + k) ps = relabel (· + k) (ofPieces line ps) := by
  induction ps generalizing line with
  | nil => rfl
  | cons piece rest ih =>
    have later := ih (line + newlines piece.text)
    rw [Nat.add_right_comm] at later
    cases piece with
    | blank | comment => exact later
    | token kind text =>
      have here : tokenOn (line + k) kind text = relabel (· + k) (tokenOn line kind text) := by
        cases kind <;> simp [tokenOn, relabel, Nat.add_right_comm]
      exact congrArg₂ token here later
    | unterminated text =>
      have there := Nat.add_right_comm line k (newlines text)
      exact congrArg₂ (diagnostic · "Unterminated string.") there later
    | unexpected c => exact congrArg (diagnostic (line + k) "Unexpected character.") later

theorem ofPieces_dropWhile (line : Nat) (cs : List Char) :
    ofPieces line (pieces cs) =
      ofPieces (line + newlines (cs.takeWhile isBlank)) (pieces (cs.dropWhile isBlank)) := by
  cases cs with
  | nil => rfl
  | cons c cs =>
    by_cases blank : isBlank c = true
    · rw [pieces, Piece.first, if_pos blank, List.takeWhile_cons_of_pos blank,
        List.dropWhile_cons_of_pos blank]
      rfl
    · rw [List.takeWhile_cons_of_neg blank, List.dropWhile_cons_of_neg blank]
      rfl

theorem ofPieces_blank_append {blanks : List Char} (all : ∀ c ∈ blanks, isBlank c = true)
    (line : Nat) (more : List Char) :
    ofPieces line (pieces (blanks ++ more)) = ofPieces (line + newlines blanks) (pieces more) := by
  rw [ofPieces_dropWhile, ofPieces_dropWhile _ more, List.takeWhile_append_of_pos all,
    List.dropWhile_append_of_pos all, newlines_append, Nat.add_assoc]

/-- The scan of a text and of what comes after it, with one end of the file. -/
def andThen (s later : Scan) : Scan :=
  ⟨s.tokens.dropLast ++ later.tokens, s.diagnostics ++ later.diagnostics⟩

theorem andThen_assoc {s t : Scan} (some : t.tokens ≠ []) (u : Scan) :
    (s.andThen t).andThen u = s.andThen (t.andThen u) := by
  simp [andThen, List.dropLast_append_of_ne_nil some]

theorem ofPieces_cons (line : Nat) (piece : Piece) (later : List Piece) :
    ofPieces line (piece :: later) =
      (ofPieces line [piece]).andThen (ofPieces (line + newlines piece.text) later) := by
  cases piece <;> rfl

theorem tokens_eq_dropLast (line : Nat) (ps : List Piece) :
    (ofPieces line ps).tokens = (ofPieces line ps).tokens.dropLast ++
      [⟨.eof, "", line + newlines (ps.flatMap Piece.text)⟩] := by
  induction ps generalizing line with
  | nil => rfl
  | cons piece later ih =>
    have rest := ih (line + newlines piece.text)
    have some : (ofPieces (line + newlines piece.text) later).tokens ≠ [] := by
      intro none
      simp [none] at rest
    rw [Nat.add_assoc, ← newlines_append, ← List.flatMap_cons] at rest
    rw [ofPieces_cons, andThen, List.dropLast_append_of_ne_nil some, List.append_assoc, ← rest]

theorem tokens_ne_nil (line : Nat) (ps : List Piece) : (ofPieces line ps).tokens ≠ [] := by
  rw [tokens_eq_dropLast]
  simp

/-- A line break after a text that leaves no string open ends its last piece, so both sides of it
are scanned each by itself. -/
theorem ofPieces_append_break (closed : ∀ p ∈ pieces cs, p.isOpen = false) (line : Nat)
    (more : List Char) :
    ofPieces line (pieces (cs ++ '\n' :: more)) =
      (ofPieces line (pieces cs)).andThen (ofPieces (line + newlines cs + 1) (pieces more)) := by
  induction cs using pieces.induct generalizing line with
  | case1 =>
    rw [List.nil_append, pieces.eq_1]
    exact ofPieces_blank_append (List.forall_mem_singleton.mpr rfl) line more
  | case2 c cs step ih =>
    have cut : pieces (c :: cs) = step.1 :: pieces step.2 := by rw [pieces]
    have lines : line + newlines (c :: cs) = line + newlines step.1.text + newlines step.2 := by
      rw [← Piece.first_append c cs, newlines_append, Nat.add_assoc]
    rw [cut] at closed ⊢
    have later := ih (fun p member => closed p (List.mem_cons_of_mem _ member))
      (line + newlines step.1.text)
    by_cases blank : isBlank c = true
    · -- The line break becomes part of the blank run, which takes no token.
      have first : step = (.blank (c :: cs.takeWhile isBlank), cs.dropWhile isBlank) := if_pos blank
      have spaces : ∀ d ∈ c :: cs.takeWhile isBlank, isBlank d = true :=
        List.forall_mem_cons.mpr ⟨blank, fun _ => List.mem_takeWhile_imp⟩
      have split : step.1.text ++ step.2 = c :: cs := Piece.first_append c cs
      rw [lines, ← split, List.append_assoc]
      rw [first] at later ⊢
      exact (ofPieces_blank_append spaces line _).trans later
    · have here := Piece.first_append_break blank (closed step.1 List.mem_cons_self) more
      calc ofPieces line (pieces (c :: cs ++ '\n' :: more))
          = ofPieces line (step.1 :: pieces (step.2 ++ '\n' :: more)) := by
            rw [List.cons_append, pieces, here]
        _ = (ofPieces line [step.1]).andThen
              (ofPieces (line + newlines step.1.text) (pieces (step.2 ++ '\n' :: more))) :=
            ofPieces_cons ..
        _ = (ofPieces line (step.1 :: pieces step.2)).andThen
              (ofPieces (line + newlines (c :: cs) + 1) (pieces more)) := by
            rw [later, lines, ofPieces_cons line step.1 (pieces step.2),
              andThen_assoc (tokens_ne_nil _ _)]

theorem closed_of_diagnostics {source : String}
    (closed : ∀ d ∈ (ofText source).diagnostics, d.message ≠ "Unterminated string.") :
    ∀ p ∈ pieces source.toList, p.isOpen = false := by
  intro p member
  cases p with
  | unterminated text =>
    have said : "Unterminated string." ∈ (ofText source).diagnostics.map (·.message) := by
      rw [messages_ofText]
      exact List.mem_filterMap.mpr ⟨_, member, rfl⟩
    obtain ⟨d, there, eq⟩ := List.mem_map.mp said
    exact absurd eq (closed d there)
  | _ => rfl

end Scan
end Scanning

namespace Parse

variable {ts more : List Token}

theorem noElse_of_silent (silent : (program ts).2 = []) : NoElse ts := by
  have clean : Grammar.Clean (program ts).2 := by
    rw [silent]
    exact clean_nil
  obtain ⟨tree, derives, -⟩ := Grammar.program_reads clean
  rintro t next otherwise
  cases derives with
  | none => cases next
  | more one others =>
    cases one with
    | function begins | declare begins =>
      cases next
      rw [otherwise] at begins
      cases begins
    | statement only =>
      obtain ⟨t', ts', rfl, start⟩ := only.head
      cases next
      rw [otherwise] at start
      cases start

/-- A program of which nothing is said is read as if it stood alone, unless an else comes after. -/
theorem program_append (silent : (program ts).2 = []) (next : NoElse more) :
    program (ts ++ more) = ((program ts).1 ++ (program more).1, (program more).2) := by
  induction ts using shorterInduction with
  | step ts ih =>
    cases ts with
    | nil =>
      rw [List.nil_append, program.eq_1]
      rfl
    | cons t rest =>
      rw [program] at silent
      obtain ⟨quiet, silent⟩ := List.append_eq_nil_iff.mp silent
      rcases declaration_detects false (t :: rest) with
        ⟨front, left, value, made, eq, passes⟩ | ⟨front, left, eq, balks⟩
      · -- A declaration looks at the next token only, which is another one only after the last.
        have goesOn : (left ++ more).head? = left.head? ∨ NoElse (left ++ more) := by
          cases left with
          | nil => exact .inr next
          | cons u left => exact .inl rfl
        have here := passes.parses left (.inl rfl)
        have joined := passes.parses (left ++ more) goesOn
        rw [← List.append_assoc, ← eq, List.cons_append] at joined
        rw [← eq] at here
        obtain ⟨value, rest, reports⟩ := Declaration.parts_of_answer here
        obtain ⟨value', rest', reports'⟩ := Declaration.parts_of_answer joined
        have less := passes.leaves
        rw [← eq] at less
        rw [rest] at silent
        rw [List.cons_append, program, program]
        simp only [value, value', rest, rest', reports', ← reports, quiet, ih left less silent,
          List.append_assoc, List.nil_append]
      · obtain ⟨before, what, later, -, reported⟩ := balks.first
        rw [← eq] at reported
        rw [Declaration.answer, reported_parsed, quiet] at reported
        simp at reported

end Parse

section Texts

variable {source first second : String} {ts : List Token} {endToken : Token}

theorem Scan.kind_ne_eof (tokens : (Scan.ofText source).tokens = ts ++ [endToken]) :
    ∀ t ∈ ts, t.kind ≠ .eof := by
  have kinds := Scan.lexed_ofText source
  rw [tokens, List.map_append] at kinds
  have same := (List.append_inj' kinds rfl).1
  intro t member
  exact (munches_pieces source.toList).ne_eof (t.kind, t.lexeme)
    (same ▸ List.mem_map_of_mem member)

theorem Program.ofText_eq (scans : (Scan.ofText source).diagnostics = [])
    (tokens : (Scan.ofText source).tokens = ts ++ [endToken]) (ending : endToken.kind = .eof) :
    Program.ofText source =
      ⟨(Parse.program ts).1, (Parse.program ts).2.map (·.diagnostic endToken)⟩ := by
  have cursor := Grammar.ofTokens_append_end ending (Scan.kind_ne_eof tokens)
  rw [Program.ofText, scans, tokens, cursor]
  rfl

theorem Scan.tokens_ofText (source : String) :
    (Scan.ofText source).tokens = (Scan.ofText source).tokens.dropLast ++
      [⟨.eof, "", 1 + newlines source.toList⟩] := by
  have last := tokens_eq_dropLast 1 (pieces source.toList)
  rwa [flatMap_text_pieces, ← ofText_eq] at last

theorem Scan.ofText_append_break
    (closed : ∀ d ∈ (Scan.ofText first).diagnostics, d.message ≠ "Unterminated string.")
    (second : String) :
    Scan.ofText (first ++ "\n" ++ second) =
      (Scan.ofText first).andThen
        (relabel (· + (1 + newlines first.toList)) (Scan.ofText second)) := by
  have text : (first ++ "\n" ++ second).toList = first.toList ++ '\n' :: second.toList := by simp
  have joined := Scan.ofPieces_append_break (Scan.closed_of_diagnostics closed) 1 second.toList
  have below := Scan.ofPieces_add 1 (1 + newlines first.toList) (pieces second.toList)
  rw [Scan.ofText_eq, Scan.ofText_eq, Scan.ofText_eq, text, joined,
    Nat.add_right_comm 1 (newlines _) 1, Nat.add_assoc 1 1, below]

/-- Scanning goes line by line outside of strings. Of two texts with a line break between them, the
first of which leaves no string open, the tokens are those of the first without its end of the file
and then those of the second, and so are the diagnostics; what comes from the second is further down
by the line breaks before it. -/
theorem scan_local_to_lines (first second : String)
    (closed : ∀ d ∈ (Scan.ofText first).diagnostics, d.message ≠ "Unterminated string.") :
    let joined := Scan.ofText (first ++ "\n" ++ second)
    let shift := 1 + newlines first.toList
    ∃ front, (Scan.ofText first).tokens = front ++ [⟨.eof, "", shift⟩] ∧
      (∀ t ∈ front, t.kind ≠ .eof) ∧
      joined.tokens = front ++
        (Scan.ofText second).tokens.map (fun t => { t with line := t.line + shift }) ∧
      joined.diagnostics = (Scan.ofText first).diagnostics ++
        (Scan.ofText second).diagnostics.map (fun d => { d with line := d.line + shift }) := by
  intro joined shift
  have ended := Scan.tokens_ofText first
  have scan : joined = _ := Scan.ofText_append_break closed second
  refine ⟨(Scan.ofText first).tokens.dropLast, ended, Scan.kind_ne_eof ended, ?_, ?_⟩
  · rw [scan]
    rfl
  · rw [scan]
    rfl

/-- A point behind a number does not reach over the line break to the digit after it. The stray
character stays with the first text, and the string that the second leaves open is reported at its
last line. -/
theorem scan_local_to_lines_point :
    let joined := Scan.ofText ("@ 1." ++ "\n" ++ "5 \"\n")
    (∀ d ∈ (Scan.ofText "@ 1.").diagnostics, d.message ≠ "Unterminated string.") ∧
    joined.tokens.map (fun t => (t.lexeme, t.line)) = [("1", 1), (".", 1), ("5", 2), ("", 3)] ∧
    joined.diagnostics =
      [⟨1, "", "Unexpected character."⟩, ⟨3, "", "Unterminated string."⟩] := by
  have closed : ∀ d ∈ (Scan.ofText "@ 1.").diagnostics, d.message ≠ "Unterminated string." := by
    decide +kernel
  obtain ⟨front, first, -, tokens, diagnostics⟩ := scan_local_to_lines "@ 1." "5 \"\n" closed
  refine ⟨closed, ?_, diagnostics.trans (by decide +kernel)⟩
  have alone : (Scan.ofText "@ 1.").tokens.map (fun t => (t.lexeme, t.line)) =
      [("1", 1), (".", 1)] ++ [("", 1)] := by decide +kernel
  rw [first, List.map_append] at alone
  rw [tokens, List.map_append, List.append_cancel_right alone]
  decide +kernel

/-- Of two texts with a line break between them, neither with a syntax error, the statements are
those of the first and then those of the second, further down. -/
theorem Program.ofText_append_break (accepted : (Program.ofText first).diagnostics = [])
    (accepted' : (Program.ofText second).diagnostics = []) :
    Program.ofText (first ++ "\n" ++ second) =
      ⟨(Program.ofText first).statements ++
        relabel (· + (1 + newlines first.toList)) (Program.ofText second).statements, []⟩ := by
  let shift : Nat → Nat := (· + (1 + newlines first.toList))
  obtain ⟨scans, -⟩ := List.append_eq_nil_iff.mp accepted
  obtain ⟨scans', -⟩ := List.append_eq_nil_iff.mp accepted'
  have closed : ∀ d ∈ (Scan.ofText first).diagnostics, d.message ≠ "Unterminated string." := by
    simp [scans]
  have scan := Scan.ofText_append_break closed second
  have tokens := Scan.tokens_ofText first
  have tokens' := Scan.tokens_ofText second
  generalize (Scan.ofText first).tokens.dropLast = ts at scan tokens
  generalize (Scan.ofText second).tokens.dropLast = ts' at tokens'
  rw [Program.ofText_eq scans tokens rfl] at accepted ⊢
  rw [Program.ofText_eq scans' tokens' rfl] at accepted' ⊢
  have silent : (Parse.program ts).2 = [] := List.map_eq_nil_iff.mp accepted
  have silent' : (Parse.program ts').2 = [] := List.map_eq_nil_iff.mp accepted'
  have below : Parse.program (relabel shift ts') = (relabel shift (Parse.program ts').1, []) := by
    rw [Parse.program_relabel]
    exact congrArg (Prod.mk _) (congrArg (relabel shift) silent')
  have whole := Parse.program_append silent (Parse.noElse_of_silent (congrArg Prod.snd below))
  rw [below] at whole
  have diagnostics : (Scan.ofText (first ++ "\n" ++ second)).diagnostics = [] := by
    rw [scan]
    exact List.append_eq_nil_iff.mpr ⟨scans, congrArg (relabel shift) scans'⟩
  have all : (Scan.ofText (first ++ "\n" ++ second)).tokens = (ts ++ relabel shift ts') ++
      [⟨.eof, "", shift (1 + newlines second.toList)⟩] := by
    have later := congrArg (relabel shift) tokens'
    rw [relabel_append] at later
    rw [scan, List.append_assoc, Scan.andThen, tokens, List.dropLast_concat]
    exact congrArg (ts ++ ·) later
  rw [Program.ofText_eq diagnostics all rfl, whole]
  rfl

end Texts
end Lox
