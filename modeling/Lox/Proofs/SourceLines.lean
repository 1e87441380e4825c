import Lox.Proofs.LineNumbers
import Lox.Proofs.Lines
import Lox.Proofs.Respelling
import Lox.Proofs.Trees

/- Lines of trees that were read from a source. Every token of a scan stands on a line that the source
   has, and a tree has no lines but those of the tokens that it was read from: a change of lines that
   leaves the tokens alone leaves the tree alone. -/
namespace Lox

/-- The number of lines of a text. A line break ends its line, so none begins after the last one. -/
def lineCount (text : List Char) : Nat :=
  newlines text + if text.getLast?.any (· ≠ '\n') then 1 else 0

theorem lineAfter_le_lineCount (before : List Char) (c : Char) (more : List Char) :
    lineAfter before ≤ lineCount (before ++ c :: more) := by
  have last : (before ++ c :: more).getLast? = (c :: more).getLast? := by
    rw [List.getLast?_append]
    simp [List.getLast?_cons]
  have count : newlines (before ++ c :: more) = newlines before + newlines (c :: more) :=
    List.count_append
  unfold lineCount lineAfter
  rw [last, count]
  split
  · omega
  · rename_i broken
    rw [List.getLast?_eq_some_getLast (List.cons_ne_nil c more)] at broken
    have member : '\n' ∈ c :: more := by
      have final : (c :: more).getLast (List.cons_ne_nil c more) = '\n' := by simpa using broken
      exact final ▸ List.getLast_mem _
    have some_break : 0 < newlines (c :: more) := List.count_pos_iff.mpr member
    omega

def OnLines (source : String) (line : Nat) : Prop := 1 ≤ line ∧ line ≤ lineCount source.toList

namespace Placed

variable {p : Placed} {t : Token}

theorem piece_mem_of_mem_allAfter {before : List Char} {ps : List Piece}
    (member : p ∈ allAfter before ps) : p.piece ∈ ps := by
  induction ps generalizing before with
  | nil => cases member
  | cons piece later ih =>
    rcases List.mem_cons.mp member with rfl | member
    · exact List.mem_cons_self
    · exact List.mem_cons_of_mem _ (ih member)

theorem line_eq_lineAfter {pattern : Pattern} {text : List Char} (spells : pattern.Spells text)
    (made : pattern.piece text = p.piece) (eq : p.token? = some t) :
    ∃ before c, before ++ [c] <+: p.through ∧ t.line = lineAfter before := by
  have same : p.piece.text = text := by rw [← made, Pattern.text_piece]
  have start : ∃ c, p.before ++ [c] <+: p.through := by
    obtain ⟨c, cs, rfl, -⟩ := spells.head
    exact ⟨c, cs, by simp [through, same]⟩
  unfold token? at eq
  rw [← made] at eq
  cases spells.fits with
  | blank | comment | unterminated => cases spells.token
  | @string cs body =>
    cases eq
    have quoted : p.through = p.before ++ '"' :: cs ++ ['"'] := by simp [through, same]
    refine ⟨p.before ++ '"' :: cs, '"', by rw [quoted], ?_⟩
    rw [quoted, lineAfter_append _ ['"']]
    rfl
  | _ =>
    obtain ⟨c, front⟩ := start
    cases eq
    exact ⟨p.before, c, front, rfl⟩

end Placed

namespace Scan

/-- Every token of a scan but the end of the file stands on a line of the source. -/
theorem onLines {source : String} {t : Token} (member : t ∈ (ofText source).tokens)
    (within : t.kind ≠ .eof) : OnLines source t.line := by
  have whole := flatMap_text_pieces source.toList
  rw [ofText_lineAfter] at member
  rcases List.mem_append.mp member with member | member
  · obtain ⟨p, there, eq⟩ := List.mem_filterMap.mp member
    have token : p.piece.token?.isSome = true := by
      unfold Placed.token? at eq
      cases piece : p.piece with
      | token kind text => rfl
      | _ => simp [piece] at eq
    obtain ⟨pattern, text, spells, made⟩ :=
      (munches_pieces source.toList).spelled _ (Placed.piece_mem_of_mem_allAfter there) token
    obtain ⟨before, c, front, line⟩ := Placed.line_eq_lineAfter spells made eq
    have inside := (Placed.mem_allAfter there).2
    rw [List.nil_append, whole] at inside
    obtain ⟨more, eq⟩ := front.trans inside
    rw [List.append_assoc] at eq
    rw [OnLines, line, ← eq]
    exact ⟨Nat.le_add_right 1 _, lineAfter_le_lineCount before c more⟩
  · cases List.mem_singleton.mp member
    exact absurd rfl within

end Scan

mutual
def Expr.nodes : Expr → List Expr
  | .literal l => [.literal l]
  | .grouping e => .grouping e :: e.nodes
  | .unary op e => .unary op e :: e.nodes
  | .binary a op b => .binary a op b :: (a.nodes ++ b.nodes)
  | .logical a op b => .logical a op b :: (a.nodes ++ b.nodes)
  | .reference name => [.reference name]
  | .assign name e => .assign name e :: e.nodes
  | .call f close args => .call f close args :: (f.nodes ++ Expr.nodesOf args)
def Expr.nodesOf : List Expr → List Expr
  | [] => []
  | e :: es => e.nodes ++ Expr.nodesOf es
end

mutual
def Stmt.nodes : Stmt → List Expr
  | .expression e | .print e => e.nodes
  | .declare _ value | .return_ _ value => value.elim [] Expr.nodes
  | .block body | .function _ _ body => Stmt.nodesOf body
  | .ifThen c s | .loop c s => c.nodes ++ s.nodes
  | .ifElse c s t => c.nodes ++ s.nodes ++ t.nodes
def Stmt.nodesOf : List Stmt → List Expr
  | [] => []
  | s :: ss => s.nodes ++ Stmt.nodesOf ss
end

section Nodes

variable {p : Expr → Prop}

mutual

theorem Expr.every_iff (e : Expr) : e.Every p ↔ ∀ x ∈ e.nodes, p x := by
  cases e with
  | literal | reference => simp [Expr.Every, Expr.nodes]
  | grouping e | unary _ e | assign _ e => simp [Expr.Every, Expr.nodes, e.every_iff]
  | binary a _ b | logical a _ b =>
    simp [Expr.Every, Expr.nodes, a.every_iff, b.every_iff, or_imp, forall_and]
  | call f _ args =>
    simp [Expr.Every, Expr.nodes, f.every_iff, Expr.everyOf_iff args, or_imp, forall_and]

theorem Expr.everyOf_iff (es : List Expr) : Expr.EveryOf p es ↔ ∀ x ∈ Expr.nodesOf es, p x := by
  cases es with
  | nil => simp [Expr.EveryOf, Expr.nodesOf]
  | cons e es =>
    simp [Expr.EveryOf, Expr.nodesOf, e.every_iff, Expr.everyOf_iff es, or_imp, forall_and]

end

mutual

theorem Stmt.every_iff (s : Stmt) : s.Every p ↔ ∀ x ∈ s.nodes, p x := by
  cases s with
  | expression e | print e => simp [Stmt.Every, Stmt.nodes, e.every_iff]
  | declare _ value | return_ _ value =>
    cases value <;> simp [Stmt.Every, Stmt.nodes, Expr.every_iff]
  | block body | function _ _ body => simp [Stmt.Every, Stmt.nodes, Stmt.everyOf_iff body]
  | ifThen c s | loop c s =>
    simp [Stmt.Every, Stmt.nodes, c.every_iff, s.every_iff, or_imp, forall_and]
  | ifElse c s t =>
    simp [Stmt.Every, Stmt.nodes, c.every_iff, s.every_iff, t.every_iff, or_imp, forall_and]

theorem Stmt.everyOf_iff (ss : List Stmt) : Stmt.EveryOf p ss ↔ ∀ x ∈ Stmt.nodesOf ss, p x := by
  cases ss with
  | nil => simp [Stmt.EveryOf, Stmt.nodesOf]
  | cons s ss =>
    simp [Stmt.EveryOf, Stmt.nodesOf, s.every_iff, Stmt.everyOf_iff ss, or_imp, forall_and]

end

theorem Expr.Every.mono {q : Expr → Prop} {e : Expr} (every : e.Every p) (imp : ∀ x, p x → q x) :
    e.Every q :=
  e.every_iff.mpr fun x member => imp x (e.every_iff.mp every x member)

theorem Stmt.Every.mono {q : Expr → Prop} {s : Stmt} (every : s.Every p) (imp : ∀ x, p x → q x) :
    s.Every q :=
  s.every_iff.mpr fun x member => imp x (s.every_iff.mp every x member)

end Nodes

def Expr.token? : Expr → Option Token
  | .unary op _ | .binary _ op _ | .logical _ op _ => some op
  | .reference name | .assign name _ => some name
  | .call _ close _ => some close
  | .literal _ | .grouping _ => none

def Expr.PointsTo (p : Nat → Prop) (e : Expr) : Prop := ∀ t ∈ e.token?, p t.line

section Fixed

variable {g : Nat → Nat}

mutual

theorem Expr.every_of_relabel_eq (e : Expr) (same : e.relabel g = e) :
    e.Every (Expr.PointsTo fun line => g line = line) := by
  have token {t : Token} (fixed : Lined.relabel g t = t) : ∀ t' ∈ some t, g t'.line = t'.line := by
    rintro _ ⟨⟩
    exact congrArg Token.line fixed
  cases e with
  | literal l => exact nofun
  | grouping e =>
    injection same with inner
    exact ⟨nofun, e.every_of_relabel_eq inner⟩
  | unary op e | assign op e =>
    injection same with fixed inner
    exact ⟨token fixed, e.every_of_relabel_eq inner⟩
  | binary a op b | logical a op b =>
    injection same with left fixed right
    exact ⟨token fixed, a.every_of_relabel_eq left, b.every_of_relabel_eq right⟩
  | reference name =>
    injection same with fixed
    exact token fixed
  | call f close args =>
    injection same with callee fixed inner
    exact ⟨token fixed, f.every_of_relabel_eq callee, Expr.everyOf_of_relabel_eq args inner⟩

theorem Expr.everyOf_of_relabel_eq (es : List Expr) (same : Expr.relabelAll g es = es) :
    Expr.EveryOf (Expr.PointsTo fun line => g line = line) es := by
  cases es with
  | nil => trivial
  | cons e es =>
    injection same with first later
    exact ⟨e.every_of_relabel_eq first, Expr.everyOf_of_relabel_eq es later⟩

end

theorem Expr.every_of_relabel_eq_option {value : Option Expr} (same : Lined.relabel g value = value) :
    ∀ e ∈ value, e.Every (Expr.PointsTo fun line => g line = line) := by
  rintro e ⟨⟩
  injection same with inner
  exact e.every_of_relabel_eq inner

mutual

theorem Stmt.every_of_relabel_eq (s : Stmt) (same : s.relabel g = s) :
    s.Every (Expr.PointsTo fun line => g line = line) := by
  cases s with
  | expression e | print e =>
    injection same with inner
    exact e.every_of_relabel_eq inner
  | declare name value | return_ keyword value =>
    injection same with _ inner
    exact Expr.every_of_relabel_eq_option inner
  | block body =>
    injection same with inner
    exact Stmt.everyOf_of_relabel_eq body inner
  | ifThen c s | loop c s =>
    injection same with condition inner
    exact ⟨c.every_of_relabel_eq condition, s.every_of_relabel_eq inner⟩
  | ifElse c s t =>
    injection same with condition first second
    exact ⟨c.every_of_relabel_eq condition, s.every_of_relabel_eq first,
      t.every_of_relabel_eq second⟩
  | function name params body =>
    injection same with _ _ inner
    exact Stmt.everyOf_of_relabel_eq body inner

theorem Stmt.everyOf_of_relabel_eq (ss : List Stmt) (same : Stmt.relabelAll g ss = ss) :
    Stmt.EveryOf (Expr.PointsTo fun line => g line = line) ss := by
  cases ss with
  | nil => trivial
  | cons s ss =>
    injection same with first later
    exact ⟨s.every_of_relabel_eq first, Stmt.everyOf_of_relabel_eq ss later⟩

end

end Fixed

def Cursor.Over (source : String) (c : Cursor) : Prop :=
  c.rest <:+ (Cursor.ofTokens (Scan.ofText source).tokens).rest

def Expr.ReadFrom (source : String) (e : Expr) : Prop :=
  ∃ c : Cursor, c.Over source ∧ c.expression.result = .ok e

/-- The statement was read from the source, alone or in a program, with or without errors. -/
def Stmt.ReadFrom (source : String) (s : Stmt) : Prop :=
  ∃ c : Cursor, c.Over source ∧
    (c.statement.result = .ok s ∨ c.declaration.result = some s ∨ s ∈ c.program.result)

namespace Cursor

theorem mem_rest_ofTokens {ts : List Token} {t : Token} (member : t ∈ (ofTokens ts).rest)
    (ended : ∃ t ∈ ts, t.kind = .eof) : t ∈ ts ∧ t.kind ≠ .eof := by
  unfold ofTokens at member
  split at member
  · exact ⟨(List.takeWhile_prefix _).mem member, by simpa using List.mem_takeWhile_imp member⟩
  · rename_i none
    obtain ⟨last, there, eof⟩ := ended
    have plain := List.dropWhile_eq_nil_iff.mp none last there
    simp [eof] at plain

theorem Over.mem_tokens {source : String} {c : Cursor} (placed : c.Over source) {t : Token}
    (member : t ∈ c.rest) : t ∈ (Scan.ofText source).tokens ∧ t.kind ≠ .eof :=
  mem_rest_ofTokens (placed.mem member) (Scan.exists_eof source)

theorem Over.onLines {source : String} {c : Cursor} (placed : c.Over source) {t : Token}
    (member : t ∈ c.rest) : OnLines source t.line := by
  obtain ⟨there, within⟩ := placed.mem_tokens member
  exact Scan.onLines there within

end Cursor

def awayFrom (source : String) (line : Nat) : Nat :=
  if 1 ≤ line ∧ line ≤ lineCount source.toList then line else line + 1

theorem onLines_of_awayFrom {source : String} {line : Nat} (fixed : awayFrom source line = line) :
    OnLines source line := by
  unfold awayFrom at fixed
  split at fixed
  · assumption
  · omega

theorem Expr.PointsTo.awayFrom {source : String} (e : Expr)
    (points : e.PointsTo fun line => Lox.awayFrom source line = line) :
    e.PointsTo (OnLines source) :=
  fun t member => onLines_of_awayFrom (points t member)

theorem Cursor.Over.relabel_eq {source : String} {c : Cursor} (placed : c.Over source) :
    relabel (awayFrom source) c.rest = c.rest := by
  have fixed (t : Token) (member : t ∈ c.rest) : relabel (awayFrom source) t = t := by
    have line : awayFrom source t.line = t.line := if_pos (placed.onLines member)
    show { t with line := awayFrom source t.line } = t
    rw [line]
  exact (List.map_congr_left fixed).trans (List.map_id _)

/-- Whatever was read from tokens that a change of lines leaves alone is left alone. -/
theorem Answer.relabel_eq_of_parsed {α : Type} [Lined α] {g : Nat → Nat} {a : Answer α} {value : α}
    {rest : List Token} (same : relabel g a = a) (eq : a.outcome = .parsed value rest) :
    relabel g value = value := by
  have outcome : relabel g a.outcome = a.outcome := congrArg Answer.outcome same
  rw [eq] at outcome
  injection outcome

theorem Expr.ReadFrom.onLines {source : String} {e : Expr} (read : e.ReadFrom source) :
    e.Every (Expr.PointsTo (OnLines source)) := by
  obtain ⟨c, placed, read⟩ := read
  obtain ⟨rest, parsed⟩ := Cursor.result_eq_ok read
  have same := Parse.expression_relabel (g := awayFrom source) c.rest
  rw [placed.relabel_eq] at same
  exact (e.every_of_relabel_eq (Answer.relabel_eq_of_parsed same.symm parsed)).mono
    Expr.PointsTo.awayFrom

theorem Stmt.ReadFrom.onLines {source : String} {s : Stmt} (read : s.ReadFrom source) :
    s.Every (Expr.PointsTo (OnLines source)) := by
  obtain ⟨c, placed, read⟩ := read
  have fixed : s.relabel (awayFrom source) = s := by
    rcases read with read | read | read
    · obtain ⟨rest, parsed⟩ := Cursor.result_eq_ok read
      have same := (Parse.statementsRelabel (awayFrom source) c.rest).statement false
      rw [placed.relabel_eq] at same
      exact Answer.relabel_eq_of_parsed same.symm parsed
    · have same := Parse.declaration_relabel (g := awayFrom source) false c.rest
      rw [placed.relabel_eq] at same
      have value : Lined.relabel (awayFrom source) (some s) = some s :=
        read ▸ Answer.relabel_eq_of_parsed same.symm rfl
      injection value
    · have same := congrArg Prod.fst (Parse.program_relabel (g := awayFrom source) c.rest)
      rw [placed.relabel_eq] at same
      exact List.map_inj_left.mp (same.symm.trans (List.map_id _).symm) s read
  exact (s.every_of_relabel_eq fixed).mono Expr.PointsTo.awayFrom

end Lox
