import Lox.Proofs.Munch
import Lox.Proofs.Relabel

/- Layout. Two texts with the same tokens differ in their lines only, and lines reach nothing but
   messages: the trees, the runs and the machines that are left agree once lines are gone. -/
namespace Lox

variable {g : Nat → Nat}

theorem unlined_eq_of_same {ts ts' : List Token}
    (same : ts.map (fun t => (t.kind, t.lexeme)) = ts'.map (fun t => (t.kind, t.lexeme))) :
    unlined ts = unlined ts' := by
  have through (us : List Token) :
      unlined us = (us.map fun t => (t.kind, t.lexeme)).map fun p => ⟨p.1, p.2, 0⟩ := by
    rw [List.map_map]
    rfl
  rw [through, through, same]

/-- The program of a text that scans without complaint is read from its tokens alone. -/
theorem Program.relabel_ofText {source : String} (scans : (Scan.ofText source).diagnostics = []) :
    relabel g (Program.ofText source) =
      let reading := (Cursor.ofTokens (relabel g (Scan.ofText source).tokens)).program
      ⟨reading.result, reading.diagnostics⟩ := by
  rw [Cursor.ofTokens_relabel (Scan.exists_eof source), Cursor.program_relabel]
  show Program.mk _ (relabel g ((Scan.ofText source).diagnostics ++ _)) = _
  rw [scans]
  rfl

theorem Program.unlined_eq {source source' : String}
    (scans : (Scan.ofText source).diagnostics = [])
    (scans' : (Scan.ofText source').diagnostics = [])
    (same : (Scan.ofText source).tokens.map (fun t => (t.kind, t.lexeme)) =
      (Scan.ofText source').tokens.map fun t => (t.kind, t.lexeme)) :
    unlined (Program.ofText source) = unlined (Program.ofText source') := by
  have tokens := unlined_eq_of_same same
  unfold unlined at tokens ⊢
  rw [Program.relabel_ofText scans, Program.relabel_ofText scans', tokens]

/-- Sessions that agree up to lines run programs that agree up to lines alike. -/
theorem Session.run_unlined {source source' : String} {a b : Session} (fuel : Nat)
    (program : unlined (Program.ofText source) = unlined (Program.ofText source'))
    (alike : unlined a = unlined b) (blind : ∀ f ∈ a.natives, f.LineBlind) :
    unlined (a.run fuel source) = unlined (b.run fuel source') := by
  have host : (unlined a).natives = (unlined b).natives := congrArg Session.natives alike
  calc unlined (a.run fuel source)
      = (unlined a).runProgram fuel (unlined (Program.ofText source)) :=
        (a.runProgram_relabel fuel (Program.ofText source) blind).symm
    _ = (unlined b).runProgram fuel (unlined (Program.ofText source')) := by rw [program, alike]
    _ = unlined (b.run fuel source') :=
        b.runProgram_relabel fuel (Program.ofText source') (host ▸ blind)

/-- Layout changes nothing but lines. Of two texts that scan without complaint to the same kinds and
lexemes, the trees and the diagnostics agree up to lines, and sessions that agree up to lines, as
any session does with itself, print the same, end alike and go on alike on both. -/
theorem layout_changes_lines_only (source source' : String)
    (scans : (Scan.ofText source).diagnostics = [])
    (scans' : (Scan.ofText source').diagnostics = [])
    (same : (Scan.ofText source).tokens.map (fun t => (t.kind, t.lexeme)) =
      (Scan.ofText source').tokens.map fun t => (t.kind, t.lexeme)) :
    unlined (Program.ofText source).statements = unlined (Program.ofText source').statements ∧
    unlined (Program.ofText source).diagnostics = unlined (Program.ofText source').diagnostics ∧
    ∀ a b : Session, unlined a = unlined b → (∀ f ∈ a.natives, f.LineBlind) → ∀ fuel,
      (a.run fuel source).2.machine.output = (b.run fuel source').2.machine.output ∧
      unlined (a.run fuel source).1 = unlined (b.run fuel source').1 ∧
      unlined (a.run fuel source).2 = unlined (b.run fuel source').2 := by
  have program := Program.unlined_eq scans scans' same
  refine ⟨congrArg Program.statements program, congrArg Program.diagnostics program, ?_⟩
  intro a b alike blind fuel
  have runs := Session.run_unlined fuel program alike blind
  have sessions : unlined (a.run fuel source).2 = unlined (b.run fuel source').2 :=
    congrArg Prod.snd runs
  have output := congrArg (fun s : Session => s.machine.output) sessions
  exact ⟨output, congrArg Prod.fst runs, sessions⟩

/-- A comment and a line break move a fault to another line and do no more. -/
theorem layout_changes_lines_only_comment :
    let source := "print nil; clock(nil);"
    let source' := "print nil; // once\nclock(nil\n);"
    let s := Session.start Native.standard
    ((s.run 20 source).1.mapError (·.render) =
      .error "Expected 0 arguments but got 1.\n[line 1]") ∧
    ((s.run 20 source').1.mapError (·.render) =
      .error "Expected 0 arguments but got 1.\n[line 3]") ∧
    (s.run 20 source).2.machine.output = (s.run 20 source').2.machine.output ∧
    unlined (s.run 20 source).1 = unlined (s.run 20 source').1 := by
  intro source source' s
  have changed := layout_changes_lines_only source source' (by decide +kernel) (by decide +kernel)
    (by decide +kernel)
  obtain ⟨output, ending, -⟩ := changed.2.2 s s rfl (Native.builtins_lineBlind _) 20
  exact ⟨by decide +kernel, by decide +kernel, output, ending⟩

end Lox
