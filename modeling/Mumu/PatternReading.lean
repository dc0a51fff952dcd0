import Mumu.PatternGrammar
import Mumu.Words
import Mathlib.Data.List.TakeWhile

namespace Mumu.PatternReading

open Mumu.LogLevels Mumu.LogItems Mumu.PatternScanner Mumu.PatternGrammar Mumu.Words

/-! ### Directives on the rest of a pattern -/

structure Directive where
  name : Str
  fmt : Str
  rest : Str

/-- What follows the name of a directive: a format up to the closing brace, which
may be missing, or text that is not the directive's. -/
def close (name : Str) : Str → Option Directive
  | [] => some ⟨name, [], []⟩
  | c :: g =>
    if c ≠ '{' then some ⟨name, [], c :: g⟩
    else if '}' ∈ g then
      some ⟨name, g.takeWhile (· != '}'), (g.dropWhile (· != '}')).tail⟩
    else none

/-- The directive after a percent sign, and the text that it leaves; there is
none if its brace stays open. -/
def directive (q : Str) : Option Directive := close (q.takeWhile isName) (q.dropWhile isName)

theorem split_names (q : Str) : q.takeWhile isName ++ q.dropWhile isName = q :=
  List.takeWhile_append_dropWhile

theorem mem_names {q : Str} : ∀ c ∈ q.takeWhile isName, isName c := fun _ hc =>
  List.mem_takeWhile_imp hc

theorem split_brace {g : Str} (hg : '}' ∈ g) :
    g = g.takeWhile (· != '}') ++ '}' :: (g.dropWhile (· != '}')).tail ∧
      '}' ∉ g.takeWhile (· != '}') := by
  constructor
  · obtain ⟨f, rest, rfl, hf⟩ := List.eq_append_cons_of_mem hg
    have hall : ∀ c ∈ f, (c != '}') = true := by
      intro c hc
      rw [bne_iff_ne]
      rintro rfl
      exact hf hc
    rw [List.takeWhile_append_of_pos hall, List.dropWhile_append_of_pos hall]
    simp
  · intro hmem
    exact absurd (List.mem_takeWhile_imp hmem) (by decide)

/-- The run of names of a bare directive ends where the pattern does, or at a
character that does not continue it. -/
theorem not_continues (q : Str) (hq : (q.dropWhile isName).head? ≠ some '{') :
    ∀ c ∈ (q.dropWhile isName).head?, ¬ continues c := by
  intro c hc
  have hn := List.head?_dropWhile_not isName q
  rw [Option.mem_def.mp hc] at hn hq
  rintro (ha | rfl | rfl)
  · simp [isName, ha] at hn
  · exact hq rfl
  · exact absurd hn (by decide)

/-- The inner loop of the scanner finds the directive. -/
theorem scan_directive {p : Str} {i : Nat} {q : Str} (h : p.drop i = '%' :: q) :
    match directive q with
    | none => (scan p i (.start i)).fmtStatus = 1 ∧ (scan p i (.start i)).fmt = []
    | some d =>
      (scan p i (.start i)).fmtStatus = 0 ∧ (scan p i (.start i)).str = d.name ∧
        (scan p i (.start i)).fmt = d.fmt ∧ p.drop (scan p i (.start i)).n = d.rest := by
  have hnext : ∀ u t : Str, q = u ++ t → p.drop (i + 1 + u.length) = t := by
    rintro u t rfl
    rw [← List.drop_drop, ← List.drop_drop, h, List.drop_one, List.tail_cons, List.drop_left]
  have hbare : ∀ t, q.dropWhile isName = t → t.head? ≠ some '{' →
      scan p i (.start i) = ⟨i + 1 + (q.takeWhile isName).length, 0, 0, q.takeWhile isName, []⟩ ∧
        p.drop (i + 1 + (q.takeWhile isName).length) = t := by
    rintro t rfl ht
    refine ⟨scan_bare mem_names (not_continues q ht) (by rw [h, split_names]), ?_⟩
    exact hnext _ _ (split_names q).symm
  rw [directive]
  cases hq : q.dropWhile isName with
  | nil =>
    obtain ⟨hscan, hrest⟩ := hbare _ hq (by simp)
    rw [hscan]
    exact ⟨rfl, rfl, rfl, hrest⟩
  | cons c g =>
    rw [close]
    by_cases hc : c = '{'
    · subst hc
      have hsplit := split_names q
      rw [hq] at hsplit
      rw [if_neg (by simp)]
      by_cases hg : '}' ∈ g
      · obtain ⟨hbrace, hf⟩ := split_brace hg
        rw [if_pos hg]
        have hd : p.drop i = '%' :: (q.takeWhile isName ++
            '{' :: (g.takeWhile (· != '}') ++ '}' :: (g.dropWhile (· != '}')).tail)) := by
          rw [← hbrace, hsplit, h]
        rw [scan_formatted mem_names hf hd]
        refine ⟨rfl, rfl, rfl, ?_⟩
        have hrest := hnext (q.takeWhile isName ++ '{' :: (g.takeWhile (· != '}') ++ ['}']))
          (g.dropWhile (· != '}')).tail (by
            rw [List.append_assoc, List.cons_append, List.append_assoc, List.singleton_append,
              ← hbrace, hsplit])
        rw [← hrest]
        congr 1
        simp only [List.length_append, List.length_cons, List.length_nil]
        omega
      · have hinside := hnext (q.takeWhile isName ++ ['{']) g (by
          rw [List.append_assoc, List.singleton_append, hsplit])
        rw [List.length_append, List.length_singleton, ← Nat.add_assoc] at hinside
        rw [if_neg hg, scan_brace mem_names (by rw [h, hsplit])]
        exact scan_unclosed g hg hinside
    · obtain ⟨hscan, hrest⟩ := hbare _ hq (by simpa using hc)
      rw [if_pos hc, hscan]
      exact ⟨rfl, rfl, rfl, hrest⟩

theorem directive_name {q : Str} {d : Directive} (h : directive q = some d) :
    d.name = q.takeWhile isName := by
  rw [directive] at h
  cases ht : q.dropWhile isName with
  | nil =>
    rw [ht, close, Option.some.injEq] at h
    rw [← h]
  | cons c g =>
    rw [ht, close] at h
    split at h
    · rw [← Option.some.inj h]
    · split at h
      · rw [← Option.some.inj h]
      · cases h

theorem directive_rest {q : Str} {d : Directive} (h : directive q = some d) :
    d.rest.length ≤ q.length := by
  have hq : (q.dropWhile isName).length ≤ q.length := (List.dropWhile_suffix isName).length_le
  rw [directive] at h
  cases ht : q.dropWhile isName with
  | nil =>
    rw [ht, close, Option.some.injEq] at h
    rw [← h]
    exact Nat.zero_le _
  | cons c g =>
    rw [ht] at hq
    have hg : (g.dropWhile (· != '}')).tail.length ≤ g.length :=
      ((List.tail_suffix _).trans (List.dropWhile_suffix _)).length_le
    rw [List.length_cons] at hq
    rw [ht, close] at h
    split at h
    · obtain rfl := Option.some.inj h
      exact hq
    · split at h
      · obtain rfl := Option.some.inj h
        dsimp only
        omega
      · cases h

/-! ### The rest of a pattern -/

/-- An entry of the scanner's result, as `Init.vec` has it. -/
abbrev Entry := Str × Str × Nat

def errorText : Str := "<<pattern_error>>".toList

def errorEntry : Entry := (errorText, [], 0)

def literalEntry (s : Str) : List Entry := if s = [] then [] else [(s, [], 0)]

/-- What the rest of a pattern means to the scanner. Literal text stays pending
until the first directive that is closed: errors before it overtake the text. -/
structure Reading where
  errors : Nat
  text : Str
  entries : List Entry
  error : Bool

/-- The entries for the rest of a pattern, with pending text before it. -/
def Reading.after (r : Reading) (nstr : Str) : List Entry :=
  List.replicate r.errors errorEntry ++ literalEntry (nstr ++ r.text) ++ r.entries

def reading : Str → Reading
  | [] => ⟨0, [], [], false⟩
  | c :: q =>
    if c ≠ '%' ∨ q.head? = some '%' then { reading q with text := c :: (reading q).text }
    else
      match _h : directive q with
      | none => { reading q with errors := (reading q).errors + 1, error := true }
      | some d => ⟨0, [], (d.name, d.fmt, 1) :: (reading d.rest).after [], (reading d.rest).error⟩
termination_by q => q.length
decreasing_by
  all_goals simp only [List.length_cons]
  all_goals first
    | omega
    | exact Nat.lt_succ_of_le (directive_rest _h)

theorem reading_literal {c : Char} {q : Str} (h : c ≠ '%' ∨ q.head? = some '%') :
    reading (c :: q) = { reading q with text := c :: (reading q).text } := by
  rw [reading, if_pos h]

theorem reading_unclosed {q : Str} (hq : q.head? ≠ some '%') (h : directive q = none) :
    reading ('%' :: q) = { reading q with errors := (reading q).errors + 1, error := true } := by
  rw [reading, if_neg (by simpa using hq)]
  split
  · rfl
  · rename_i hd
    rw [h] at hd
    cases hd

theorem reading_directive {q : Str} (hq : q.head? ≠ some '%') {d : Directive}
    (h : directive q = some d) :
    reading ('%' :: q) =
      ⟨0, [], (d.name, d.fmt, 1) :: (reading d.rest).after [], (reading d.rest).error⟩ := by
  rw [reading, if_neg (by simpa using hq)]
  split
  · rename_i hd
    rw [h] at hd
    cases hd
  · rename_i d' hd
    rw [h, Option.some.injEq] at hd
    rw [hd]

theorem reading_append {s : Str} (hs : '%' ∉ s) (q : Str) :
    reading (s ++ q) = { reading q with text := s ++ (reading q).text } := by
  induction s with
  | nil => rfl
  | cons c s ih =>
    have hc : c ≠ '%' := fun h => hs (by simp [h])
    rw [List.cons_append, reading_literal (.inl hc), ih (fun h => hs (by simp [h]))]
    rfl

theorem flush_eq (st : Init) : st.flush = st.vec ++ literalEntry st.nstr := by
  rw [Init.flush, literalEntry]
  split
  · rw [List.append_nil]
  · rfl

/-- The outer loop of the scanner reads the rest of the pattern. -/
theorem initLoop_reading (p : Str) (i : Nat) (st : Init) :
    (initLoop p i st).flush = st.vec ++ (reading (p.drop i)).after st.nstr ∧
      (initLoop p i st).error = (st.error || (reading (p.drop i)).error) := by
  fun_induction initLoop p i st with
  | case1 i st hi hc ih =>
    rw [ih.1, ih.2, List.drop_eq_getElem_cons hi, reading_literal (.inl hc)]
    simp [Reading.after]
  | case2 i st hi hc hd ih =>
    have hhead : (p.drop (i + 1)).head? = some '%' := by rw [List.head?_drop, hd]
    rw [not_not] at hc
    rw [ih.1, ih.2, List.drop_eq_getElem_cons hi, hc, reading_literal (.inr hhead)]
    simp [Reading.after]
  | case3 i st hi hc hd hn s hs ih =>
    have hhead : (p.drop (i + 1)).head? ≠ some '%' := by rwa [List.head?_drop]
    have hdrop : p.drop i = '%' :: p.drop (i + 1) := by
      rw [List.drop_eq_getElem_cons hi, not_not.mp hc]
    have hscan := scan_directive hdrop
    split at hscan
    · exact absurd (hs.symm.trans hscan.1) (by decide)
    · rename_i d hdir
      obtain ⟨-, hstr, hfmt, hrest⟩ := hscan
      have hnext : (scan p i (.start i)).n - 1 + 1 = (scan p i (.start i)).n := by omega
      rw [ih.1, ih.2, hdrop, reading_directive hhead hdir, hnext, hrest, hstr, hfmt, flush_eq]
      simp [Reading.after]
  | case4 i st hi hc hd hn s hs ih =>
    have hhead : (p.drop (i + 1)).head? ≠ some '%' := by rwa [List.head?_drop]
    have hdrop : p.drop i = '%' :: p.drop (i + 1) := by
      rw [List.drop_eq_getElem_cons hi, not_not.mp hc]
    have hscan := scan_directive hdrop
    split at hscan
    · rename_i hdir
      have hfmt : s.fmt = [] := hscan.2
      have hentry : (("<<pattern_error>>".toList, s.fmt, 0) : Entry) = errorEntry := by
        exact congrArg (fun f => (errorText, f, 0)) hfmt
      rw [hentry] at ih
      rw [hentry, ih.1, ih.2, hdrop, reading_unclosed hhead hdir]
      simp [Reading.after, List.replicate_succ]
    · exact absurd hscan.1 hs
  | case5 i st hi =>
    rw [List.drop_eq_nil_of_le (by omega), reading, flush_eq]
    simp [Reading.after]

theorem entries_reading (p : Str) : entries p = (reading p).after [] :=
  (initLoop_reading p 0 ⟨[], [], false⟩).1

/-! ### What is formatted -/

section

variable (libc : Libc) (lvl : Level) (event : LogEvent)

def entryText (e : Entry) : Str := (addItem ([], false) e).1.flatMap (FormatItem.format libc lvl event)

theorem entryText_item (e : Entry) :
    entryText libc lvl event e = (itemOf e).format libc lvl event := by
  rw [entryText, addItem_item]
  simp

theorem format_new (p : Str) :
    (LogFormatter.new p).format libc lvl event =
      ((reading p).after []).flatMap (entryText libc lvl event) := by
  rw [LogFormatter.format, LogFormatter.new_items, entries_reading, List.flatMap_map]
  exact List.flatMap_congr fun e _ => (entryText_item libc lvl event e).symm

theorem text_literal (s : Str) : (literalEntry s).flatMap (entryText libc lvl event) = s := by
  rw [literalEntry]
  split
  · rename_i h
    rw [h]
    rfl
  · simp [entryText, addItem, FormatItem.format]

theorem text_errors (n : Nat) :
    (List.replicate n errorEntry).flatMap (entryText libc lvl event) = power errorText n := by
  induction n with
  | zero => rfl
  | succ n ih =>
    rw [List.replicate_succ, List.flatMap_cons, ih, power_succ]
    simp [entryText, addItem, FormatItem.format, errorEntry]

theorem text_after (r : Reading) (nstr : Str) :
    (r.after nstr).flatMap (entryText libc lvl event) =
      power errorText r.errors ++ (nstr ++ r.text) ++
        r.entries.flatMap (entryText libc lvl event) := by
  rw [Reading.after, List.flatMap_append, List.flatMap_append, text_errors, text_literal]

end

theorem isError_new (p : Str) :
    (LogFormatter.new p).isError = false ↔
      (reading p).error = false ∧ ∀ e ∈ (reading p).after [], Known e := by
  rw [← entries_reading, LogFormatter.new_isError]
  have herr : (initLoop p 0 ⟨[], [], false⟩).error = (reading p).error :=
    (initLoop_reading p 0 ⟨[], [], false⟩).2
  rw [← herr]
  exact foldl_addItem_error (entries p) _

theorem known_literal (s : Str) : ∀ e ∈ literalEntry s, Known e := by
  intro e he h
  rw [literalEntry] at he
  split at he
  · cases he
  · rw [List.mem_singleton.mp he] at h
    exact absurd rfl h

theorem known_after (r : Reading) (nstr : Str) :
    (∀ e ∈ r.after nstr, Known e) ↔ ∀ e ∈ r.entries, Known e := by
  constructor
  · intro h e he
    exact h e (List.mem_append_right _ he)
  · intro h e he
    obtain he | he := List.mem_append.mp he
    · obtain he | he := List.mem_append.mp he
      · rw [List.eq_of_mem_replicate he]
        exact fun hne => absurd rfl hne
      · exact known_literal _ e he
    · exact h e he

end Mumu.PatternReading
