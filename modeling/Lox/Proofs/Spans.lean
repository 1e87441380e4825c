import Lox.Scan
import Mathlib.Logic.Basic

/- Lines carried from piece to piece, through blanks and comments too. The scan only stops at spans
   and counts the line breaks since the last one; as every line break is either counted or still
   ahead of the counted place, the lines are the same. -/
namespace Lox

theorem newlines_append (cs more : List Char) :
    newlines (cs ++ more) = newlines cs + newlines more := List.count_append

/-- The line that a text of line one ends on. -/
def lineAfter (text : List Char) : Nat := 1 + newlines text

theorem lineAfter_append (text more : List Char) :
    lineAfter (text ++ more) = lineAfter text + newlines more := by
  rw [lineAfter, newlines_append, ← Nat.add_assoc, lineAfter]

def tokenOn (start : Nat) (kind : Kind) (text : List Char) : Token where
  kind
  lexeme := String.ofList text
  line :=
    match kind with
    | .string _ => start + newlines text
    | _ => start

/-- The scan of pieces whose first character is on `line`. -/
def Scan.ofPieces (line : Nat) : List Piece → Scan
  | [] => ⟨[⟨.eof, "", line⟩], []⟩
  | piece :: rest =>
    let scan := ofPieces (line + newlines piece.text) rest
    match piece with
    | .blank _ | .comment _ => scan
    | .token kind text => scan.token (tokenOn line kind text)
    | .unterminated text => scan.diagnostic (line + newlines text) "Unterminated string."
    | .unexpected _ => scan.diagnostic line "Unexpected character."

/-- The count after `before`. The line breaks up to the counted place are in the line, and the rest
of `before` holds those that are still to count. -/
structure LineCount.Exact (before : List Char) (c : LineCount) : Prop where
  counted : c.counted ≤ before.length
  line : c.line + newlines (before.drop c.counted) = lineAfter before

namespace LineCount.Exact

variable {before text rest : List Char} {c : LineCount} {content : Array Char}

theorem start : LineCount.Exact [] ⟨1, 0⟩ := ⟨Nat.le_refl 0, rfl⟩

theorem at_end (line : c.line = lineAfter before) (counted : c.counted = before.length) :
    c.Exact before := by
  refine ⟨Nat.le_of_eq counted, ?_⟩
  rw [line, counted, List.drop_length]
  rfl

theorem skip (exact : c.Exact before) (text : List Char) : c.Exact (before ++ text) := by
  constructor
  · rw [List.length_append]
    exact Nat.le_add_right_of_le exact.counted
  · rw [List.drop_append_of_le_length exact.counted, newlines_append, ← Nat.add_assoc, exact.line,
      lineAfter_append]

theorem lineAt_eq (exact : c.Exact before) (whole : content.toList = before ++ rest) :
    c.lineAt content before.length = lineAfter before := by
  have between : (content.extract c.counted before.length).toList = before.drop c.counted := by
    rw [Array.toList_extract, whole, List.extract_eq_take_drop,
      List.drop_append_of_le_length exact.counted, ← List.length_drop, List.take_left']
    rfl
  rw [LineCount.lineAt, between, exact.line]

theorem reach_eq (exact : c.Exact before) (kind : Kind)
    (whole : content.toList = before ++ (text ++ rest)) :
    c.reach content ⟨kind, text, before.length⟩ =
      if kind.isString then ⟨lineAfter (before ++ text), (before ++ text).length⟩
      else ⟨lineAfter before, before.length⟩ := by
  rw [LineCount.reach, exact.lineAt_eq whole, lineAfter_append, List.length_append]
  rfl

theorem line_reach (exact : c.Exact before) (kind : Kind)
    (whole : content.toList = before ++ (text ++ rest)) :
    (c.reach content ⟨kind, text, before.length⟩).line =
      if kind.isString then lineAfter (before ++ text) else lineAfter before := by
  rw [exact.reach_eq kind whole, apply_ite LineCount.line]

/-- The step of the scan. The counted place is the end of a string and the start of all else, and in
both cases the line breaks from there on are still ahead. -/
theorem reach (exact : c.Exact before) (kind : Kind)
    (whole : content.toList = before ++ (text ++ rest)) :
    (c.reach content ⟨kind, text, before.length⟩).Exact (before ++ text) := by
  rw [exact.reach_eq kind whole]
  split
  · exact at_end rfl rfl
  · exact (at_end rfl rfl).skip text

end LineCount.Exact

namespace Piece

theorem kind_of_first {c : Char} {cs text : List Char} {kind : Kind}
    (eq : (first c cs).1 = .token kind text) : kind ≠ .unterminatedString ∧ kind ≠ .unexpected := by
  unfold first at eq
  split at eq
  · cases eq
  · split at eq
    · unfold word at eq
      split at eq <;> cases eq <;> exact ⟨nofun, nofun⟩
    · split at eq
      · cases eq
        exact ⟨nofun, nofun⟩
      · split at eq
        · unfold splitString at eq
          split at eq
          · cases eq
            exact ⟨nofun, nofun⟩
          · cases eq
        · unfold splitSymbol at eq
          split at eq
          · cases eq
          · split at eq
            · cases eq
              exact ⟨nofun, nofun⟩
            · split at eq
              · cases eq
                exact ⟨nofun, nofun⟩
              · cases eq

theorem kind_of_mem_pieces {cs text : List Char} {kind : Kind}
    (member : .token kind text ∈ pieces cs) :
    kind ≠ .unterminatedString ∧ kind ≠ .unexpected := by
  fun_induction pieces cs with
  | case1 => cases member
  | case2 c cs step ih =>
    rcases List.mem_cons.mp member with eq | member
    · exact kind_of_first eq.symm
    · exact ih member

end Piece

namespace Scan

/-- The run of the scan. What it reports from a place on depends on the count there by its line
only. -/
theorem ofSpans_eq {before : List Char} {c : LineCount} (exact : c.Exact before)
    {content : Array Char} {ps : List Piece}
    (whole : content.toList = before ++ ps.flatMap Piece.text)
    (kinds : ∀ {kind text}, .token kind text ∈ ps →
      kind ≠ .unterminatedString ∧ kind ≠ .unexpected) :
    ofSpans content c (spans before.length ps) = ofPieces (lineAfter before) ps := by
  induction ps generalizing before c with
  | nil =>
    have size : content.size = before.length := by
      rw [← Array.length_toList, whole, List.flatMap_nil, List.append_nil]
    rw [spans, ofSpans, size, exact.lineAt_eq whole, ofPieces]
  | cons piece rest ih =>
    rw [List.flatMap_cons] at whole
    have later {c' : LineCount} (exact' : c'.Exact (before ++ piece.text)) :
        ofSpans content c' (spans (before.length + piece.text.length) rest) =
          ofPieces (lineAfter before + newlines piece.text) rest := by
      rw [← List.length_append, ← lineAfter_append]
      exact ih exact' (whole.trans (List.append_assoc _ _ _).symm)
        fun member => kinds (List.mem_cons_of_mem _ member)
    cases piece with
    | blank text | comment text => exact later (exact.skip text)
    | unterminated text =>
      have line := (exact.line_reach .unterminatedString whole).trans (lineAfter_append _ _)
      exact congrArg₂ (diagnostic · "Unterminated string.") line (later (exact.reach _ whole))
    | unexpected char =>
      have line := exact.line_reach .unexpected whole
      exact congrArg₂ (diagnostic · "Unexpected character.") line (later (exact.reach _ whole))
    | token kind text =>
      obtain ⟨closed, expected⟩ := kinds List.mem_cons_self
      have line := exact.line_reach kind whole
      have scan := later (exact.reach kind whole)
      cases kind with
      | unterminatedString => exact absurd rfl closed
      | unexpected => exact absurd rfl expected
      | string s =>
        have line := line.trans (lineAfter_append _ _)
        exact congrArg₂ (fun line => token ⟨.string s, String.ofList text, line⟩) line scan
      | _ => exact congrArg₂ (fun line => token ⟨_, String.ofList text, line⟩) line scan

theorem ofText_eq (source : String) : ofText source = ofPieces 1 (pieces source.toList) :=
  ofSpans_eq .start (flatMap_text_pieces _).symm Piece.kind_of_mem_pieces

end Scan

/-- Every stretch of the text in which the scan counts line breaks has its ends in order and within
the text. -/
def LineCount.InRange (content : Array Char) (c : LineCount) : List Span → Prop
  | [] => c.counted ≤ content.size
  | s :: later =>
    c.counted ≤ s.start ∧ s.stop ≤ content.size ∧ (c.reach content s).InRange content later

theorem LineCount.Exact.inRange {before : List Char} {c : LineCount} (exact : c.Exact before)
    {content : Array Char} {ps : List Piece}
    (whole : content.toList = before ++ ps.flatMap Piece.text) :
    c.InRange content (spans before.length ps) := by
  have inside {front rest : List Char} (whole : content.toList = front ++ rest) :
      front.length ≤ content.size := by
    rw [← Array.length_toList, whole, List.length_append]
    exact Nat.le_add_right _ _
  induction ps generalizing before c with
  | nil => exact Nat.le_trans exact.counted (inside whole)
  | cons piece rest ih =>
    rw [List.flatMap_cons] at whole
    have whole' := whole.trans (List.append_assoc _ _ _).symm
    have stop := inside whole'
    rw [List.length_append] at stop
    have later {c' : LineCount} (exact' : c'.Exact (before ++ piece.text)) :
        c'.InRange content (spans (before.length + piece.text.length) rest) := by
      rw [← List.length_append]
      exact ih exact' whole'
    rw [spans]
    cases piece.kind? with
    | none => exact later (exact.skip _)
    | some kind => exact ⟨exact.counted, stop, later (exact.reach kind whole)⟩

/-- No text makes the scan count outside of it. -/
theorem Scan.inRange (source : String) :
    LineCount.InRange source.toList.toArray ⟨1, 0⟩ (spans 0 (pieces source.toList)) :=
  LineCount.Exact.start.inRange (flatMap_text_pieces _).symm

end Lox
