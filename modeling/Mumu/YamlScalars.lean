import Mathlib.Data.List.Basic
import Mumu.Decimal

namespace Mumu.YamlScalars

/-! ### Plain scalars -/

def isWordChar (c : Char) : Bool := c.isAlphanum || c == '_' || c == '.'

def isWord : List Char → Bool
  | [] => false
  | c :: s => c.isAlphanum && s.all isWordChar

def nullWords : List (List Char) :=
  ["null".toList, "Null".toList, "NULL".toList]

/-- The scalars that are written as they are: words and signed words, but not
the words that read as null. -/
def isPlain (s : List Char) : Bool :=
  !nullWords.contains s && match s with
    | '-' :: s => isWord s
    | s => isWord s

def isPlainChar (c : Char) : Bool := isWordChar c || c == '-'

theorem isPlainChar_of_isWord {s : List Char} (h : isWord s = true) :
    ∀ c ∈ s, isPlainChar c = true := by
  cases s with
  | nil => simp
  | cons d s =>
    simp only [isWord, Bool.and_eq_true, List.all_eq_true] at h
    intro c hc
    obtain rfl | hc := List.mem_cons.mp hc
    · simp [isPlainChar, isWordChar, h.1]
    · simp [isPlainChar, h.2 c hc]

/-- How a plain scalar begins. -/
theorem isPlain_cases {s : List Char} (h : isPlain s = true) :
    s ∉ nullWords ∧ ((∃ s', s = '-' :: s' ∧ isWord s' = true) ∨ isWord s = true) := by
  simp only [isPlain, Bool.and_eq_true, Bool.not_eq_true', List.contains_eq_mem,
    decide_eq_false_iff_not] at h
  refine ⟨h.1, ?_⟩
  have hrest := h.2
  split at hrest
  · rename_i s'
    exact .inl ⟨s', rfl, hrest⟩
  · exact .inr hrest

theorem isPlainChar_of_isPlain {s : List Char} (h : isPlain s = true) :
    ∀ c ∈ s, isPlainChar c = true := by
  obtain ⟨s', rfl, hw⟩ | hw := (isPlain_cases h).2
  · intro c hc
    obtain rfl | hc := List.mem_cons.mp hc
    · decide
    · exact isPlainChar_of_isWord hw c hc
  · exact isPlainChar_of_isWord hw

/-! ### Quoted scalars -/

def escape (c : Char) : List Char :=
  if c = '"' then ['\\', '"']
  else if c = '\\' then ['\\', '\\']
  else if c = '\n' then ['\\', 'n']
  else if c = '\t' then ['\\', 't']
  else if c = '\r' then ['\\', 'r']
  else [c]

def unescape (c : Char) : Char :=
  if c = 'n' then '\n' else if c = 't' then '\t' else if c = 'r' then '\r' else c

def quote (s : List Char) : List Char := '"' :: (s.flatMap escape ++ ['"'])

/-- Read up to the closing quote. -/
def readQuoted : List Char → Option (List Char × List Char)
  | [] => none
  | '"' :: s => some ([], s)
  | ['\\'] => none
  | '\\' :: c :: s => (readQuoted s).map (fun r => (unescape c :: r.1, r.2))
  | c :: s => (readQuoted s).map (fun r => (c :: r.1, r.2))

theorem readQuoted_escape (c : Char) (s : List Char) :
    readQuoted (escape c ++ s) = (readQuoted s).map (fun r => (c :: r.1, r.2)) := by
  rw [escape]
  split_ifs with h₁ h₂ h₃ h₄ h₅
  · simp [readQuoted, unescape, h₁]
  · simp [readQuoted, unescape, h₂]
  · simp [readQuoted, unescape, h₃]
  · simp [readQuoted, unescape, h₄]
  · simp [readQuoted, unescape, h₅]
  · simp only [List.singleton_append]
    cases s <;> simp [readQuoted, h₂]

theorem readQuoted_body (s rest : List Char) :
    readQuoted (s.flatMap escape ++ '"' :: rest) = some (s, rest) := by
  induction s with
  | nil => simp [readQuoted]
  | cons c s ih => rw [List.flatMap_cons, List.append_assoc, readQuoted_escape, ih, Option.map_some]

theorem length_lt_quote (s : List Char) : s.length < (quote s).length := by
  have hescape : ∀ c, 1 ≤ (escape c).length := fun c => by
    rw [escape]
    split_ifs <;> simp
  have hbody : s.length ≤ (s.flatMap escape).length := by
    induction s with
    | nil => exact Nat.le_refl 0
    | cons c s ih =>
      have hc := hescape c
      rw [List.flatMap_cons, List.length_append, List.length_cons]
      omega
  rw [quote, List.length_cons, List.length_append]
  omega

theorem newline_not_mem_escape (c : Char) : '\n' ∉ escape c := by
  rw [escape]
  split_ifs with h₁ h₂ h₃ h₄ h₅ <;> simp
  exact fun h => h₃ h.symm

/-! ### Scalars -/

def scalarText (s : List Char) : List Char := if isPlain s then s else quote s

theorem scalarText_self_or_longer (s : List Char) :
    scalarText s = s ∨ s.length < (scalarText s).length := by
  rw [scalarText]
  split
  · exact .inl rfl
  · exact .inr (length_lt_quote s)

theorem newline_not_mem_scalarText (s : List Char) : '\n' ∉ scalarText s := by
  rw [scalarText]
  split
  · rename_i h
    exact fun hmem => absurd (isPlainChar_of_isPlain h '\n' hmem) (by decide)
  · intro hmem
    simp only [quote, List.mem_cons, List.mem_append, List.mem_flatMap] at hmem
    obtain h | ⟨c, _, h⟩ | h := hmem
    · exact absurd h (by decide)
    · exact newline_not_mem_escape c h
    · simp at h

/-- A scalar at the front of a text, where a plain one goes as far as its
characters do. -/
def readScalar (text : List Char) : Option (List Char × List Char) :=
  match text with
  | '"' :: s => readQuoted s
  | s =>
    if isPlain (s.takeWhile isPlainChar) then
      some (s.takeWhile isPlainChar, s.dropWhile isPlainChar)
    else none

theorem readScalar_text (s rest : List Char) (hrest : ∀ c ∈ rest.head?, isPlainChar c = false) :
    readScalar (scalarText s ++ rest) = some (s, rest) := by
  rw [scalarText]
  split
  · rename_i h
    have hall := isPlainChar_of_isPlain h
    have htake : (s ++ rest).takeWhile isPlainChar = s := by
      rw [List.takeWhile_append_of_pos hall]
      cases rest with
      | nil => simp
      | cons c rest => simp [hrest c rfl]
    have hdrop : (s ++ rest).dropWhile isPlainChar = rest := by
      rw [List.dropWhile_append_of_pos hall]
      cases rest with
      | nil => simp
      | cons c rest => simp [hrest c rfl]
    unfold readScalar
    split
    · rename_i heq
      cases s with
      | nil => exact absurd h (by decide)
      | cons c s =>
        obtain ⟨rfl, _⟩ := List.cons.inj heq
        exact absurd (hall '"' (by simp)) (by decide)
    · rw [htake, hdrop, if_pos h]
  · simp only [quote, List.cons_append, List.append_assoc, readScalar]
    exact readQuoted_body s rest

theorem isWord_toDigits (n : Nat) : isWord (Nat.toDigits 10 n) = true := by
  have hall := Decimal.isDigit_toDigits n
  cases hd : Nat.toDigits 10 n with
  | nil => exact absurd hd Nat.toDigits_ne_nil
  | cons c s =>
    rw [hd] at hall
    simp only [isWord, Bool.and_eq_true, List.all_eq_true]
    refine ⟨by simp [Char.isAlphanum, hall c (by simp)], fun d hm => ?_⟩
    simp [isWordChar, Char.isAlphanum, hall d (by simp [hm])]

theorem isPlain_of_head {c : Char} {s : List Char} (hn : c ≠ 'n') (hN : c ≠ 'N')
    (h : isWord (c :: s) = true ∨ (c = '-' ∧ isWord s = true)) : isPlain (c :: s) = true := by
  have hnull : nullWords.contains (c :: s) = false := by simp [nullWords, hn, hN]
  unfold isPlain
  rw [hnull]
  obtain h | ⟨rfl, h⟩ := h
  · split
    · rename_i heq
      obtain ⟨rfl, rfl⟩ := List.cons.inj heq
      exact absurd h (by simp [isWord])
    · simpa using h
  · simpa using h

/-- The decimal text of an integer needs no quotes. -/
theorem scalarText_print (i : Int) : scalarText (Decimal.print i) = Decimal.print i := by
  have hplain : isPlain (Decimal.print i) = true := by
    cases i with
    | ofNat n =>
      have hword := isWord_toDigits n
      have hall := Decimal.isDigit_toDigits n
      rw [Decimal.print]
      cases hd : Nat.toDigits 10 n with
      | nil => exact absurd hd Nat.toDigits_ne_nil
      | cons c s =>
        rw [hd] at hword hall
        have hc := hall c (by simp)
        apply isPlain_of_head _ _ (.inl hword)
        · rintro rfl
          exact absurd hc (by decide)
        · rintro rfl
          exact absurd hc (by decide)
    | negSucc n =>
      exact isPlain_of_head (by decide) (by decide) (.inr ⟨rfl, isWord_toDigits (n + 1)⟩)
  rw [scalarText, if_pos hplain]

end Mumu.YamlScalars
