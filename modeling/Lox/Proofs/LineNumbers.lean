import Lox.Proofs.Munch

/- Lines of tokens and diagnostics. Every piece of a text has its place there, and the line of what is
   said of it is one more than the line breaks before that place, or before the end of the piece for
   a string. Places come in order, so lines never go back. -/
namespace Lox

theorem lineAfter_mono {text more : List Char} (front : text <+: more) :
    lineAfter text ≤ lineAfter more := by
  obtain ⟨rest, rfl⟩ := front
  rw [lineAfter_append]
  exact Nat.le_add_right _ _

/-- A piece and the text before it. -/
structure Placed where
  before : List Char
  piece : Piece

namespace Placed

def through (p : Placed) : List Char := p.before ++ p.piece.text

/-- The token that the piece is. A string is on the line of its end, any other token on the line of
its first character. -/
def token? (p : Placed) : Option Token :=
  match p.piece with
  | .token (.string s) text => some ⟨.string s, String.ofList text, lineAfter p.through⟩
  | .token kind text => some ⟨kind, String.ofList text, lineAfter p.before⟩
  | _ => none

def diagnostic? (p : Placed) : Option Diagnostic :=
  match p.piece with
  | .unterminated _ => some ⟨lineAfter p.through, "", "Unterminated string."⟩
  | .unexpected _ => some ⟨lineAfter p.before, "", "Unexpected character."⟩
  | _ => none

def allAfter (before : List Char) : List Piece → List Placed
  | [] => []
  | piece :: later => ⟨before, piece⟩ :: allAfter (before ++ piece.text) later

variable {p : Placed}

theorem before_prefix_through (p : Placed) : p.before <+: p.through := List.prefix_append _ _

theorem line_of_token {t : Token} (eq : p.token? = some t) :
    lineAfter p.before ≤ t.line ∧ t.line ≤ lineAfter p.through := by
  have le := lineAfter_mono p.before_prefix_through
  unfold token? at eq
  split at eq
  · cases eq
    exact ⟨le, Nat.le_refl _⟩
  · cases eq
    exact ⟨Nat.le_refl _, le⟩
  · cases eq

theorem line_of_diagnostic {d : Diagnostic} (eq : p.diagnostic? = some d) :
    lineAfter p.before ≤ d.line ∧ d.line ≤ lineAfter p.through := by
  have le := lineAfter_mono p.before_prefix_through
  unfold diagnostic? at eq
  split at eq
  · cases eq
    exact ⟨le, Nat.le_refl _⟩
  · cases eq
    exact ⟨Nat.le_refl _, le⟩
  · cases eq

theorem mem_allAfter {before : List Char} {ps : List Piece} (member : p ∈ allAfter before ps) :
    before <+: p.before ∧ p.through <+: before ++ ps.flatMap Piece.text := by
  induction ps generalizing before with
  | nil => cases member
  | cons piece later ih =>
    rw [List.flatMap_cons, ← List.append_assoc]
    rcases List.mem_cons.mp member with rfl | member
    · exact ⟨List.prefix_rfl, List.prefix_append _ _⟩
    · obtain ⟨first, last⟩ := ih member
      exact ⟨(List.prefix_append _ _).trans first, last⟩

/-- A piece ends before the next one begins. -/
theorem pairwise_allAfter (before : List Char) (ps : List Piece) :
    (allAfter before ps).Pairwise fun p q => p.through <+: q.before := by
  induction ps generalizing before with
  | nil => exact .nil
  | cons piece later ih =>
    exact .cons (fun q member => (mem_allAfter member).1) (ih (before ++ piece.text))

/-- What stands on lines of its piece does not go back from piece to piece. -/
theorem pairwise_line {α : Type} {said? : Placed → Option α} {line : α → Nat}
    (within : ∀ {p a}, said? p = some a →
      lineAfter p.before ≤ line a ∧ line a ≤ lineAfter p.through)
    (before : List Char) (ps : List Piece) :
    ((allAfter before ps).filterMap said?).Pairwise fun a b => line a ≤ line b := by
  rw [List.pairwise_filterMap]
  refine (pairwise_allAfter before ps).imp ?_
  intro p q order a first b second
  calc line a ≤ lineAfter p.through := (within first).2
    _ ≤ lineAfter q.before := lineAfter_mono order
    _ ≤ line b := (within second).1

end Placed

/-- Lines counted on from piece to piece are those of the places. -/
theorem ofPieces_lineAfter (before : List Char) (ps : List Piece) :
    Scan.ofPieces (lineAfter before) ps =
      ⟨(Placed.allAfter before ps).filterMap Placed.token? ++
          [⟨.eof, "", lineAfter (before ++ ps.flatMap Piece.text)⟩],
        (Placed.allAfter before ps).filterMap Placed.diagnostic?⟩ := by
  induction ps generalizing before with
  | nil => simp [Scan.ofPieces, Placed.allAfter]
  | cons piece later ih =>
    have rest := ih (before ++ piece.text)
    rw [lineAfter_append, List.append_assoc, ← List.flatMap_cons] at rest
    simp only [Scan.ofPieces, Placed.allAfter, rest]
    cases piece with
    | blank | comment | unexpected => rfl
    | unterminated text =>
      have line := (lineAfter_append before text).symm
      exact congrArg (Scan.diagnostic · "Unterminated string." _) line
    | token kind text =>
      cases kind with
      | string s =>
        have line := (lineAfter_append before text).symm
        exact congrArg (fun line => Scan.token ⟨.string s, String.ofList text, line⟩ _) line
      | _ => rfl

theorem Scan.ofText_lineAfter (source : String) :
    Scan.ofText source =
      ⟨(Placed.allAfter [] (pieces source.toList)).filterMap Placed.token? ++
          [⟨.eof, "", lineAfter source.toList⟩],
        (Placed.allAfter [] (pieces source.toList)).filterMap Placed.diagnostic?⟩ := by
  have scan := (Scan.ofText_eq source).trans (ofPieces_lineAfter [] (pieces source.toList))
  rwa [List.nil_append, flatMap_text_pieces] at scan

/-- The lines of a scan are exact, though it counts from span to span. With the text cut at the longest
match, line breaks are counted within the text only, and the tokens and the diagnostics are those of
the pieces at their places: a string, closed or not, is on the line of its end, all else on the line
of its first character, and the end of the file on the last line. So lines never go back, neither
along the tokens nor along the diagnostics. -/
theorem scan_lines_exact (source : String) :
    ∃ cut, (∀ ps, Munches source.toList ps ↔ ps = cut) ∧
      LineCount.InRange source.toList.toArray ⟨1, 0⟩ (spans 0 cut) ∧
      (∀ p ∈ Placed.allAfter [] cut, p.through <+: source.toList) ∧
      (Scan.ofText source).tokens = (Placed.allAfter [] cut).filterMap Placed.token? ++
        [⟨.eof, "", lineAfter source.toList⟩] ∧
      (Scan.ofText source).diagnostics = (Placed.allAfter [] cut).filterMap Placed.diagnostic? ∧
      (Scan.ofText source).tokens.Pairwise (·.line ≤ ·.line) ∧
      (Scan.ofText source).diagnostics.Pairwise (·.line ≤ ·.line) := by
  have cut := munches_pieces source.toList
  have whole := flatMap_text_pieces source.toList
  have scan := Scan.ofText_lineAfter source
  have inside : ∀ p ∈ Placed.allAfter [] (pieces source.toList), p.through <+: source.toList := by
    intro p member
    have last := (Placed.mem_allAfter member).2
    rwa [List.nil_append, whole] at last
  refine ⟨pieces source.toList, ?_, Scan.inRange source, inside, ?_, ?_, ?_, ?_⟩
  · intro ps
    constructor
    · intro other
      exact other.unique cut
    · rintro rfl
      exact cut
  · rw [scan]
  · rw [scan]
  · rw [scan, List.pairwise_append]
    refine ⟨Placed.pairwise_line Placed.line_of_token [] _, List.pairwise_singleton _ _, ?_⟩
    intro t member last same
    cases List.mem_singleton.mp same
    obtain ⟨p, there, eq⟩ := List.mem_filterMap.mp member
    exact Nat.le_trans (Placed.line_of_token eq).2 (lineAfter_mono (inside p there))
  · rw [scan]
    exact Placed.pairwise_line Placed.line_of_diagnostic [] _

example : (Scan.ofText "a\n\"b\nc\" @\n").tokens.map (·.line) = [1, 3, 4] ∧
    (Scan.ofText "a\n\"b\nc\" @\n").diagnostics.map (·.line) = [3] := by decide +kernel

end Lox
