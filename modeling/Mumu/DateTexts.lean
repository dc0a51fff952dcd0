import Mumu.PatternGrammar
import Mathlib.Data.List.TakeWhile

namespace Mumu.DateTexts

open Mumu.LogLevels Mumu.LogItems Mumu.PatternScanner Mumu.PatternGrammar

/-! ### Directives and their items -/

/-- The `i`-th entry of a pattern is a directive for the date with the format `f`. -/
def IsDate (p : Str) (i : Nat) (f : Str) : Prop := (entries p)[i]? = some ("d".toList, f, 1)

instance (p : Str) (i : Nat) (f : Str) : Decidable (IsDate p i f) :=
  inferInstanceAs (Decidable (_ = _))

/-- Between its literal runs a well-formed pattern has a date where it says so. -/
theorem isDate_splits {p : Str} {segs : List Segment} (h : Splits p segs) {i : Nat} {f : Str}
    (hi : segs[i]? = some (.formatted 'd' f)) : IsDate p i f := by
  rw [IsDate, (entries_splits h).1, List.getElem?_map, hi]
  rfl

/-! ### The text of a date -/

/-- The format that the date item of a directive uses. -/
def dateFormat (f : Str) : Str := if f = [] then "%Y-%m-%d  %H:%M:%S".toList else f

/-- The text that the `i`-th item of a pattern's formatter emits. -/
def itemText (libc : Libc) (lvl : Level) (event : LogEvent) (p : Str) (i : Nat) : Option Str :=
  (LogFormatter.new p).items[i]?.map (FormatItem.format libc lvl event)

theorem itemText_date {p : Str} {i : Nat} {f : Str} (hf : IsDate p i f) (libc : Libc)
    (lvl : Level) (event : LogEvent) :
    itemText libc lvl event p i =
      some (cStr (libc.strftime 64 (cStr (dateFormat f)) event.time)) := by
  have hitem : (LogFormatter.new p).items[i]? = some (.dateTime (dateFormat f)) := by
    rw [LogFormatter.new_items, List.getElem?_map, hf]
    rfl
  rw [itemText, hitem]
  rfl

theorem cStr_eq_self {s : Str} (hs : '\x00' ∉ s) : cStr s = s := by
  rw [cStr, List.takeWhile_eq_self_iff]
  intro c hc
  exact decide_eq_true fun h => hs (h ▸ hc)

/-- The `i`-th item emits the whole expansion of its format, whatever a call that
fails leaves in the buffer. -/
def Complete (expansion : Str → Nat → Str) (lvl : Level) (event : LogEvent) (p : Str) (i : Nat)
    (f : Str) : Prop :=
  ∀ leftover, itemText ⟨expansion, leftover⟩ lvl event p i =
    some (expansion (cStr (dateFormat f)) event.time)

section

variable {expansion : Str → Nat → Str} {lvl : Level} {event : LogEvent} {p : Str} {i : Nat}
  {f : Str}

theorem complete_of_fits (hexp : ∀ f t, '\x00' ∉ expansion f t) (hf : IsDate p i f)
    (hfits : (expansion (cStr (dateFormat f)) event.time).length ≤ 63) :
    Complete expansion lvl event p i f := by
  intro leftover
  rw [itemText_date hf, Libc.strftime, if_pos hfits, cStr_eq_self (hexp _ _)]

/-- An expansion that does not fit is not emitted if there is a null byte left in
the buffer. -/
theorem cut_of_not_fits (hf : IsDate p i f)
    (hlong : 63 < (expansion (cStr (dateFormat f)) event.time).length) {leftover : Str → Nat → Str}
    (hnull : (cStr (leftover (cStr (dateFormat f)) event.time)).length ≤ 63) :
    itemText ⟨expansion, leftover⟩ lvl event p i ≠
      some (expansion (cStr (dateFormat f)) event.time) := by
  rw [itemText_date hf, Libc.strftime, if_neg (Nat.not_le.mpr hlong)]
  intro heq
  rw [Option.some.injEq] at heq
  dsimp only at heq
  rw [heq] at hnull
  omega

end

/-- A date is written in full exactly if its expansion, one byte for a character,
fits into the buffer. -/
theorem date_complete_iff (expansion : Str → Nat → Str) (hexp : ∀ f t, '\x00' ∉ expansion f t)
    (lvl : Level) (event : LogEvent) (p : Str) (i : Nat) (f : Str) (hf : IsDate p i f) :
    Complete expansion lvl event p i f ↔
      (expansion (cStr (dateFormat f)) event.time).length ≤ 63 := by
  constructor
  · intro hcomplete
    by_contra hlong
    exact cut_of_not_fits hf (Nat.not_le.mp hlong) (Nat.zero_le _) (hcomplete fun _ _ => [])
  · exact complete_of_fits hexp hf

/-- A format without conversions stands for itself. -/
def plainExpansion (f : Str) (_time : Nat) : Str := cStr f

theorem date_complete_plain :
    Complete plainExpansion .info default "[%d\x7bnow\x7d] %m".toList 1 "now".toList := by
  have hnull : ∀ f t, '\x00' ∉ plainExpansion f t := fun f _ h =>
    absurd (List.mem_takeWhile_imp h) (by decide)
  exact (date_complete_iff plainExpansion hnull .info default _ 1 _ (by decide +kernel)).mpr
    (by decide)

/-- Sixty-four letters are one too many. -/
theorem date_cutOff :
    let f := List.replicate 64 'x'
    let p := '%' :: 'd' :: '{' :: (f ++ ['}'])
    (LogFormatter.new p).isError = false ∧ IsDate p 0 f ∧
      ¬ Complete plainExpansion .info default p 0 f := by
  intro f p
  have hp : Splits p [.formatted 'd' f] := .formatted (by decide) (by decide) .nil
  have hf : IsDate p 0 f := isDate_splits hp rfl
  refine ⟨(init_splits hp).2, hf, fun hcomplete => ?_⟩
  exact cut_of_not_fits hf (by decide) (Nat.zero_le _) (hcomplete fun _ _ => [])

end Mumu.DateTexts
