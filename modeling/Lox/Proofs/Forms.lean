import Lox.Proofs.Patterns
import Lox.Tree.SExpr

/- Forms as texts. Words have no blank or parenthesis in them, so a form that stands first in a longer
   text ends at a known place, and no two forms are written the same. -/
namespace Lox

def isPlain (c : Char) : Bool := c != ' ' && c != '(' && c != ')'

theorem isPlain_of {q : Char → Bool} {c : Char} (holds : q c = true)
    (apart : [' ', '(', ')'].any q = false) : isPlain c = true := by
  simp only [isPlain, Bool.and_eq_true, bne_iff_ne]
  refine ⟨⟨?_, ?_⟩, ?_⟩
  all_goals
    rintro rfl
    simp [holds] at apart

namespace SExpr

mutual
def Clean : SExpr → Prop
  | .atom text => text.toList ≠ [] ∧ ∀ c ∈ text.toList, isPlain c = true
  | .list items => CleanAll items
def CleanAll : List SExpr → Prop
  | [] => True
  | s :: ss => s.Clean ∧ CleanAll ss
end

def later (items : List SExpr) : List Char := items.flatMap fun s => ' ' :: s.render.toList

theorem toList_renderAll_cons (s : SExpr) (ss : List SExpr) :
    (renderAll (s :: ss)).toList = s.render.toList ++ later ss := by
  induction ss generalizing s with
  | nil => simp [renderAll, later]
  | cons t ts ih => simp [renderAll, later, ih]

theorem toList_render_list (items : List SExpr) :
    (render (.list items)).toList = '(' :: ((renderAll items).toList ++ [')']) := by
  simp [render]

theorem Clean.word_head {text : String} (clean : (atom text).Clean) :
    ∃ c cs, text.toList = c :: cs ∧ isPlain c = true := by
  obtain ⟨c, cs, eq⟩ := List.exists_cons_of_ne_nil clean.1
  exact ⟨c, cs, eq, clean.2 c (eq ▸ List.mem_cons_self)⟩

theorem Clean.not_open {text : String} (clean : (atom text).Clean) (rest others : List Char) :
    text.toList ++ rest ≠ '(' :: others := by
  obtain ⟨c, cs, front, plain⟩ := clean.word_head
  rw [front]
  intro eq
  cases (List.cons.inj eq).1
  cases plain

theorem Clean.head {s : SExpr} (clean : s.Clean) :
    ∃ c cs, s.render.toList = c :: cs ∧ c ≠ ')' := by
  cases s with
  | atom text =>
    obtain ⟨c, cs, eq, plain⟩ := clean.word_head
    refine ⟨c, cs, eq, ?_⟩
    rintro rfl
    cases plain
  | list items => exact ⟨_, _, toList_render_list items, by decide⟩

def Ends (rest : List Char) : Prop := ∀ c ∈ rest.head?, isPlain c = false

theorem ends_nil : Ends [] := fun _ none => nomatch none

theorem ends_later (items : List SExpr) (rest : List Char) : Ends (later items ++ ')' :: rest) := by
  cases items with
  | nil => rintro c ⟨⟩; rfl
  | cons s ss => rintro c ⟨⟩; rfl

mutual

/-- What is written determines the form, and where it ends in a longer text. -/
theorem render_append_injective : ∀ {s t : SExpr}, s.Clean → t.Clean →
    ∀ {rest rest' : List Char}, Ends rest → Ends rest' →
      s.render.toList ++ rest = t.render.toList ++ rest' → s = t ∧ rest = rest'
  | .atom a, .atom b, clean, clean', rest, rest', ends, ends', eq => by
    have first := takeWhile_dropWhile_append clean.2 ends
    have second := takeWhile_dropWhile_append clean'.2 ends'
    simp only [render] at eq
    rw [eq, second.1, second.2] at first
    exact ⟨congrArg atom (String.toList_inj.mp first.1.symm), first.2.symm⟩
  | .atom a, .list items, clean, _, rest, rest', _, _, eq => by
    rw [toList_render_list] at eq
    exact absurd eq (clean.not_open rest _)
  | .list items, .atom b, _, clean', rest, rest', _, _, eq => by
    rw [toList_render_list] at eq
    exact absurd eq.symm (clean'.not_open rest' _)
  | .list [], .list [], _, _, _, _, _, _, eq => by
    simpa [render, renderAll] using eq
  | .list [], .list (t :: ts), _, clean', rest, rest', _, _, eq => by
    obtain ⟨c, cs, front, other⟩ := clean'.1.head
    rw [toList_render_list, toList_render_list, toList_renderAll_cons, front] at eq
    cases eq
    exact absurd rfl other
  | .list (s :: ss), .list [], clean, _, rest, rest', _, _, eq => by
    obtain ⟨c, cs, front, other⟩ := clean.1.head
    rw [toList_render_list, toList_render_list, toList_renderAll_cons, front] at eq
    cases eq
    exact absurd rfl other
  | .list (s :: ss), .list (t :: ts), clean, clean', rest, rest', _, _, eq => by
    rw [toList_render_list, toList_render_list, toList_renderAll_cons, toList_renderAll_cons] at eq
    obtain ⟨rfl, others⟩ := render_append_injective clean.1 clean'.1 (ends_later ss rest)
      (ends_later ts rest') (by simpa using eq)
    obtain ⟨rfl, left⟩ := later_append_injective clean.2 clean'.2 others
    exact ⟨rfl, left⟩

theorem later_append_injective : ∀ {ss ts : List SExpr}, CleanAll ss → CleanAll ts →
    ∀ {rest rest' : List Char}, later ss ++ ')' :: rest = later ts ++ ')' :: rest' →
      ss = ts ∧ rest = rest'
  | [], [], _, _, _, _, eq => ⟨rfl, (List.cons.inj eq).2⟩
  | [], t :: ts, _, _, _, _, eq => by cases eq
  | s :: ss, [], _, _, _, _, eq => by cases eq
  | s :: ss, t :: ts, clean, clean', rest, rest', eq => by
    obtain ⟨rfl, others⟩ := render_append_injective clean.1 clean'.1 (ends_later ss rest)
      (ends_later ts rest') (by simpa [later] using eq)
    obtain ⟨rfl, left⟩ := later_append_injective clean.2 clean'.2 others
    exact ⟨rfl, left⟩

end

theorem render_injective {s t : SExpr} (clean : s.Clean) (clean' : t.Clean)
    (eq : s.render = t.render) : s = t := by
  have texts : s.render.toList ++ [] = t.render.toList ++ [] := by rw [eq]
  exact (render_append_injective clean clean' ends_nil ends_nil texts).1

/-- Where forms are clean and can be read back, texts are equal exactly if what is read back is. -/
theorem render_eq_iff {α : Type} {form : α → SExpr} {seen : α → α} (read : SExpr → α)
    (keeps : ∀ x, form (seen x) = form x) {a b : α} (clean : (form a).Clean)
    (clean' : (form b).Clean) (back : read (form a) = seen a) (back' : read (form b) = seen b) :
    (form a).render = (form b).render ↔ seen a = seen b := by
  constructor
  · intro texts
    rw [← back, ← back', render_injective clean clean' texts]
  · intro same
    rw [← keeps a, same, keeps b]

end SExpr

end Lox
