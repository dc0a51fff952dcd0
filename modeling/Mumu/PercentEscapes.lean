import Mumu.PatternReading
import Mathlib.Tactic.FinCases

namespace Mumu.PercentEscapes

open Mumu.LogLevels Mumu.LogItems Mumu.PatternScanner Mumu.PatternGrammar Mumu.PatternReading
open Mumu.Words

/-! ### Doubled percent signs -/

/-- Every percent sign doubled. -/
def esc (s : Str) : Str := s.flatMap (fun c => if c = '%' then ['%', '%'] else [c])

theorem esc_cons (c : Char) (s : Str) :
    esc (c :: s) = (if c = '%' then ['%', '%'] else [c]) ++ esc s := List.flatMap_cons ..

theorem esc_append (s t : Str) : esc (s ++ t) = esc s ++ esc t := List.flatMap_append ..

theorem esc_of_not_mem {s : Str} (hs : '%' ∉ s) : esc s = s := by
  induction s with
  | nil => rfl
  | cons c s ih =>
    have hc : c ≠ '%' := fun h => hs (by simp [h])
    rw [esc_cons, if_neg hc, ih (fun h => hs (by simp [h]))]
    rfl

theorem esc_signs (n : Nat) : esc (List.replicate n '%') = List.replicate (2 * n) '%' := by
  induction n with
  | zero => rfl
  | succ n ih =>
    rw [List.replicate_succ, esc_cons, ih, show 2 * (n + 1) = 2 * n + 1 + 1 by omega]
    rfl

theorem head?_esc (s : Str) : (esc s).head? = s.head? := by
  cases s with
  | nil => rfl
  | cons c s =>
    rw [esc_cons]
    split <;> simp [*]

theorem reading_signs (n : Nat) (q : Str) :
    reading (List.replicate n '%' ++ '%' :: q) =
      { reading ('%' :: q) with text := List.replicate n '%' ++ (reading ('%' :: q)).text } := by
  induction n with
  | zero => rfl
  | succ n ih =>
    have hhead : (List.replicate n '%' ++ '%' :: q).head? = some '%' := by
      cases n <;> rfl
    rw [List.replicate_succ, List.cons_append, reading_literal (.inr hhead), ih]
    rfl

/-- A text with percent signs, at its first run of them. -/
theorem exists_signs {s : Str} (hs : '%' ∈ s) :
    ∃ u n v, s = u ++ (List.replicate (n + 1) '%' ++ v) ∧ '%' ∉ u ∧ v.head? ≠ some '%' := by
  obtain ⟨u, t, rfl, hu, ht⟩ := exists_span (· != '%') s
  obtain ⟨r, v, rfl, hr, hv⟩ := exists_span (· == '%') t
  have hu' : '%' ∉ u := fun h => absurd (hu '%' h) (by decide)
  have hr' : r = List.replicate r.length '%' :=
    List.eq_replicate_of_mem fun c hc => beq_iff_eq.mp (hr c hc)
  have hv' : v.head? ≠ some '%' := fun h => absurd (hv '%' h) (by decide)
  cases hl : r.length with
  | zero =>
    obtain rfl := List.length_eq_zero_iff.mp hl
    rw [List.nil_append] at hs ht
    cases v with
    | nil => exact absurd hs (by simpa using hu')
    | cons c v =>
      have hc : c = '%' := by simpa using ht c rfl
      exact absurd (by rw [hc]; rfl) hv'
  | succ n =>
    rw [hl] at hr'
    exact ⟨u, n, v, by rw [hr'], hu', hv'⟩

/-! ### Printing an escaped text -/

/-- The formatter has no error, and prints `s` whatever it is asked to format. -/
def PrintsExactly (f : LogFormatter) (s : Str) : Prop :=
  f.isError = false ∧ ∀ libc lvl event, f.format libc lvl event = s

/-- An event that no directive prints as its own letter. -/
def plainEvent : LogEvent := ⟨['x'], 0, 0, 0, 0, 0, ['x'], ['x']⟩

def plainLibc : Libc := ⟨fun _ _ => ['x'], fun _ _ => ['x']⟩

theorem head_of_item {str f : Str} {item : Str → FormatItem} (h : findItem str = some item) :
    ∃ x t, (item f).format plainLibc .debug plainEvent = x :: t ∧ x ∉ keys := by
  have hall : ∀ e ∈ formatItems, ∃ x t,
      (e.2 f).format plainLibc .debug plainEvent = x :: t ∧ x ∉ keys := by
    intro e he
    fin_cases he <;> exact ⟨_, _, rfl, by decide⟩
  obtain ⟨e, he, rfl⟩ := Option.map_eq_some_iff.mp h
  exact hall e (List.mem_of_find?_eq_some he)

/-- What the formatter of an escaped text prints up to its first directive, which
the last sign of the first run begins. -/
theorem format_esc {u v : Str} {n : Nat} (hu : '%' ∉ u) (hv : v.head? ≠ some '%')
    (herr : (LogFormatter.new (esc (u ++ (List.replicate (n + 1) '%' ++ v)))).isError = false) :
    ∃ x t rest, (LogFormatter.new (esc (u ++ (List.replicate (n + 1) '%' ++ v)))).format
        plainLibc .debug plainEvent =
          u ++ (List.replicate (2 * n + 1) '%' ++ (x :: t ++ rest)) ∧
      v.head? ≠ some x := by
  have hesc : esc (u ++ (List.replicate (n + 1) '%' ++ v)) =
      u ++ (List.replicate (2 * n + 1) '%' ++ '%' :: esc v) := by
    rw [esc_append, esc_append, esc_of_not_mem hu, esc_signs,
      show 2 * (n + 1) = 2 * n + 1 + 1 by omega, List.replicate_succ', List.append_assoc]
    rfl
  have hq : (esc v).head? ≠ some '%' := by rwa [head?_esc]
  obtain ⟨hread, hknown⟩ := (isError_new _).mp herr
  rw [hesc, reading_append hu, reading_signs] at hread
  rw [hesc, reading_append hu, reading_signs, known_after] at hknown
  cases hd : directive (esc v) with
  | none =>
    rw [reading_unclosed hq hd] at hread
    cases hread
  | some d =>
    rw [reading_directive hq hd] at hknown
    obtain ⟨k, hk, hname⟩ := hknown (d.name, d.fmt, 1) (by simp) Nat.one_ne_zero
    obtain ⟨item, hitem⟩ := Option.isSome_iff_exists.mp ((findItem_isSome d.name).mpr ⟨k, hk, hname⟩)
    obtain ⟨x, t, hx, hxk⟩ := head_of_item (f := d.fmt) hitem
    have hentry : entryText plainLibc .debug plainEvent (d.name, d.fmt, 1) = x :: t := by
      simp [entryText, addItem, hitem, hx]
    refine ⟨x, t, ((reading d.rest).after []).flatMap (entryText plainLibc .debug plainEvent), ?_, ?_⟩
    · rw [hesc, format_new, text_after, reading_append hu, reading_signs, reading_directive hq hd]
      simp [hentry, power_zero]
    · intro hvx
      rw [← head?_esc] at hvx
      obtain ⟨v', hv'⟩ := List.head?_eq_some_iff.mp hvx
      rw [directive_name hd, hv', List.takeWhile_cons] at hname
      split at hname
      · rw [List.cons.injEq] at hname
        exact hxk (hname.1 ▸ hk)
      · cases hname

/-- An escaped text is printed as the text exactly if there was nothing to escape. -/
theorem printsExactly_esc_iff (s : Str) : PrintsExactly (.new (esc s)) s ↔ '%' ∉ s := by
  constructor
  · rintro ⟨herr, hformat⟩ hs
    obtain ⟨u, n, v, rfl, hu, hv⟩ := exists_signs hs
    obtain ⟨x, t, rest, hout, hvx⟩ := format_esc hu hv herr
    have hcount : List.replicate (2 * n + 1) '%' =
        List.replicate (n + 1) '%' ++ List.replicate n '%' := by
      rw [← List.replicate_add]
      congr 1
      omega
    rw [hformat, hcount, List.append_assoc, List.append_cancel_left_eq,
      List.append_cancel_left_eq] at hout
    cases n with
    | zero => exact hvx (by rw [hout]; rfl)
    | succ n => exact hv (by rw [hout]; rfl)
  · intro hs
    rw [esc_of_not_mem hs]
    have hread := reading_append hs []
    rw [List.append_nil] at hread
    refine ⟨?_, fun libc lvl event => ?_⟩
    · rw [isError_new, known_after, hread, reading]
      simp
    · rw [format_new, text_after, hread, reading]
      simp [power_zero]

/-! ### Consuming the two signs -/

/-- Two percent signs at `i` are consumed for one in the text, and what is after
them is scanned as if they were not there. -/
def Consumed (p : Str) (i : Nat) (st : Init) : Prop :=
  (initLoop p i st).flush = (initLoop p (i + 2) { st with nstr := st.nstr ++ ['%'] }).flush

/-- The entries after pending text that ends in a percent sign. -/
theorem after_sign (r : Reading) (a : Str) :
    r.after (a ++ ['%']) =
      List.replicate r.errors errorEntry ++ (a ++ ['%'] ++ r.text, [], 0) :: r.entries := by
  rw [Reading.after, literalEntry, if_neg (by simp), List.append_assoc, List.singleton_append]

/-- With text pending, the second sign cannot be left out. -/
theorem after_signs_ne (a q : Str) :
    (reading ('%' :: q)).after (a ++ ['%']) ≠ (reading q).after (a ++ ['%']) := by
  rw [after_sign, after_sign]
  intro h
  by_cases hq : q.head? = some '%'
  · rw [reading_literal (.inr hq), List.append_cancel_left_eq, List.cons.injEq] at h
    have hlen := congrArg (List.length ∘ Prod.fst) h.1
    simp at hlen
  · cases hd : directive q with
    | none =>
      rw [reading_unclosed hq hd] at h
      have hlen := congrArg List.length h
      simp at hlen
    | some d =>
      rw [reading_directive hq hd] at h
      cases hn : (reading q).errors with
      | zero =>
        -- the text would have to end here, but then so does the pattern
        rw [hn] at h
        simp only [List.replicate_zero, List.nil_append, List.append_nil, List.cons.injEq,
          Prod.mk.injEq, List.self_eq_append_right, and_true] at h
        cases q with
        | nil =>
          rw [reading] at h
          simp at h
        | cons c q =>
          rw [reading_literal (.inl (by simpa using hq))] at h
          simp at h
      | succ n =>
        rw [hn, List.replicate_succ] at h
        simp only [List.replicate_zero, List.nil_append, List.append_nil, List.cons_append,
          List.cons.injEq, Prod.mk.injEq, errorEntry] at h
        have hmem : '%' ∈ errorText := by
          rw [← h.1.1]
          simp
        exact absurd hmem (by decide)

theorem not_consumed {p : Str} {i : Nat} (h : ['%', '%'] <+: p.drop i) (st : Init) :
    ¬ Consumed p i st := by
  obtain ⟨q, hq⟩ := h
  have hd : p.drop i = '%' :: '%' :: q := hq.symm
  have hd' : p.drop (i + 2) = q := by
    rw [← List.drop_drop, hd]
    rfl
  rw [Consumed, (initLoop_reading p i st).1, (initLoop_reading p (i + 2) _).1, hd, hd',
    List.append_cancel_left_eq, reading_literal (.inr rfl)]
  intro hafter
  apply after_signs_ne st.nstr q
  rw [← hafter]
  simp [Reading.after]

/-- An escaped text is printed as it should be exactly if it has no percent sign,
and no two signs are ever consumed together: the scanner takes the first one for
the text, and begins a directive or another pair with the second. -/
theorem esc_printed_iff (s p : Str) (i : Nat) (st : Init) :
    (PrintsExactly (.new (esc s)) s ↔ '%' ∉ s) ∧
      (['%', '%'] <+: p.drop i → ¬ Consumed p i st) :=
  ⟨printsExactly_esc_iff s, fun h => not_consumed h st⟩

theorem esc_printed_half :
    ¬ PrintsExactly (.new (esc "50%".toList)) "50%".toList ∧
      ¬ Consumed "50%%d".toList 2 ⟨"50".toList, [], false⟩ := by
  have h := esc_printed_iff "50%".toList "50%%d".toList 2 ⟨"50".toList, [], false⟩
  refine ⟨fun hprints => ?_, h.2 (by decide)⟩
  exact absurd (h.1.mp hprints) (by decide)

/-- A lone percent sign, escaped, is an error. -/
theorem esc_sign_isError : esc "%".toList = "%%".toList ∧
    (LogFormatter.new (esc "%".toList)).isError = true ∧
      ¬ PrintsExactly (.new (esc "%".toList)) "%".toList := by
  have herr : (LogFormatter.new (esc "%".toList)).isError = true := by decide +kernel
  refine ⟨rfl, herr, fun h => ?_⟩
  rw [PrintsExactly, herr] at h
  exact absurd h.1 (by decide)

end Mumu.PercentEscapes
