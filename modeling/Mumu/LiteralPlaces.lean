import Mumu.PatternReading

namespace Mumu.LiteralPlaces

open Mumu.LogLevels Mumu.LogItems Mumu.PatternScanner Mumu.PatternGrammar Mumu.PatternReading
open Mumu.Words

/-! ### Directives left open -/

/-- The name that follows a percent sign opens a brace that is never closed. -/
def unclosed (q : Str) : Bool :=
  (q.dropWhile isName).head? = some '{' && !(q.dropWhile isName).contains '}'

/-- The first percent sign that is not followed by another one belongs to a
directive that is left open. -/
def opensUnclosed : Str → Bool
  | [] => false
  | c :: q => if c ≠ '%' ∨ q.head? = some '%' then opensUnclosed q else unclosed q

theorem directive_eq_none (q : Str) : directive q = none ↔ unclosed q = true := by
  rw [directive, unclosed]
  cases q.dropWhile isName with
  | nil => simp [close]
  | cons c g =>
    rw [close]
    by_cases hc : c = '{'
    · subst hc
      simp
    · simp [hc]

/-- Text is overtaken by an error only if the first directive is left open. -/
theorem errors_eq_zero (p : Str) : (reading p).errors = 0 ↔ opensUnclosed p = false := by
  induction p with
  | nil => simp [reading, opensUnclosed]
  | cons c q ih =>
    rw [opensUnclosed]
    split
    · rename_i hc
      rw [reading_literal hc]
      exact ih
    · rename_i hc
      obtain ⟨hc, hq⟩ := not_or.mp hc
      rw [not_not.mp hc]
      cases hd : directive q with
      | none => simp [reading_unclosed hq hd, (directive_eq_none q).mp hd]
      | some d =>
        have hnot : unclosed q = false := by
          rw [← Bool.not_eq_true, ← directive_eq_none, hd]
          simp
        simp [reading_directive hq hd, hnot]

/-! ### Literal text in front of a pattern -/

theorem errorText_unbordered : Unbordered errorText := by
  have h : ∀ s ∈ errorText.inits, s <:+ errorText → s = [] ∨ s = errorText := by decide
  exact fun s hs => h s ((List.mem_inits s errorText).mpr hs)

theorem isError_literal (L p : Str) (hL : '%' ∉ L) :
    (LogFormatter.new (L ++ p)).isError = (LogFormatter.new p).isError := by
  have hfalse : (LogFormatter.new (L ++ p)).isError = false ↔
      (LogFormatter.new p).isError = false := by
    rw [isError_new, isError_new, known_after, known_after, reading_append hL]
  rw [Bool.eq_iff_iff, ← not_iff_not, Bool.not_eq_true, Bool.not_eq_true]
  exact hfalse

section

variable (libc : Libc) (lvl : Level) (event : LogEvent)

/-- Formatting with the pattern `L ++ p` gives `L` and then what `p` gives. -/
def KeepsPlace (L p : Str) : Prop :=
  (LogFormatter.new (L ++ p)).format libc lvl event =
      L ++ (LogFormatter.new p).format libc lvl event ∧
    (LogFormatter.new (L ++ p)).isError = (LogFormatter.new p).isError

/-- The text stays behind the errors that it finds before the first directive. -/
theorem keepsPlace_iff_comm {L : Str} (hL : '%' ∉ L) (p : Str) :
    KeepsPlace libc lvl event L p ↔
      power errorText (reading p).errors ++ L = L ++ power errorText (reading p).errors := by
  rw [KeepsPlace, format_new, format_new, text_after, text_after, reading_append hL]
  simp only [List.nil_append, isError_literal L p hL, and_true]
  have hleft : ∀ e m w : Str, e ++ (L ++ m) ++ w = e ++ L ++ (m ++ w) := by simp
  have hright : ∀ e m w : Str, L ++ (e ++ m ++ w) = L ++ e ++ (m ++ w) := by simp
  rw [hleft, hright, List.append_cancel_right_eq]

/-- Literal text keeps its place exactly before a pattern whose first directive
is not left open, or if it is itself made of error texts: the error is entered
before the text that is pending at that point. -/
theorem literal_keepsPlace_iff (L p : Str) (hL : '%' ∉ L) :
    KeepsPlace libc lvl event L p ↔
      opensUnclosed p = false ∨ ∃ k, L = (List.replicate k errorText).flatten := by
  rw [keepsPlace_iff_comm libc lvl event hL, ← errors_eq_zero]
  cases hn : (reading p).errors with
  | zero => simp [power_zero]
  | succ n =>
    rw [power_comm_iff errorText_unbordered (by decide)]
    simp [power]

end

theorem literal_keepsPlace_date :
    KeepsPlace default .info default "at ".toList "%d{%Y}: %m%d\x7bx".toList :=
  (literal_keepsPlace_iff default .info default "at ".toList "%d{%Y}: %m%d\x7bx".toList
    (by decide)).mpr (.inl (by decide))

/-- The text comes out behind the error of the brace that is left open. -/
theorem literal_overtaken :
    '%' ∉ "a".toList ∧ ¬ KeepsPlace default .info default "a".toList "%d\x7bx".toList := by
  have hL : '%' ∉ "a".toList := by decide
  refine ⟨hL, ?_⟩
  rw [keepsPlace_iff_comm default .info default hL]
  decide +kernel

end Mumu.LiteralPlaces
