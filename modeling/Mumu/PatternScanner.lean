import Mumu.LogItems
import Mathlib.Tactic.Common

namespace Mumu.PatternScanner

open Mumu.LogLevels Mumu.LogItems

def substr (s : Str) (pos count : Nat) : Str := (s.drop pos).take count

/-- The scanner's locals while it reads one directive. -/
structure Scan where
  n : Nat
  fmtStatus : Nat
  fmtBegin : Nat
  str : Str
  fmt : Str

def Scan.start (i : Nat) : Scan := ⟨i + 1, 0, 0, [], []⟩

/-- The inner loop of the scanner, entered at the percent sign at `i`. -/
def scan (pattern : Str) (i : Nat) (s : Scan) : Scan :=
  if h : s.n < pattern.length then
    let c := pattern[s.n]
    if s.fmtStatus = 0 ∧ !c.isAlpha ∧ c ≠ '{' ∧ c ≠ '}' then
      { s with str := substr pattern (i + 1) (s.n - i - 1) }
    else if s.fmtStatus = 0 ∧ c = '{' then
      scan pattern i { s with
        str := substr pattern (i + 1) (s.n - i - 1)
        fmtStatus := 1
        fmtBegin := s.n
        n := s.n + 1 }
    else if s.fmtStatus = 1 ∧ c = '}' then
      { s with
        fmt := substr pattern (s.fmtBegin + 1) (s.n - s.fmtBegin - 1)
        fmtStatus := 0
        n := s.n + 1 }
    else
      -- the end of the pattern closes a bare directive
      scan pattern i { s with
        n := s.n + 1
        str := if s.n + 1 = pattern.length ∧ s.str = [] then pattern.drop (i + 1) else s.str }
  else s
termination_by pattern.length - s.n

theorem le_scan (pattern : Str) (i : Nat) (s : Scan) : s.n ≤ (scan pattern i s).n := by
  fun_induction scan pattern i s <;> simp_all <;> omega

theorem lt_scan_start (pattern : Str) (i : Nat) : i < (scan pattern i (.start i)).n :=
  le_scan pattern i (.start i)

/-- The locals of the outer loop; an entry of `vec` is a text, a format and a
type, where type 0 is literal text and type 1 a directive. -/
structure Init where
  nstr : Str
  vec : List (Str × Str × Nat)
  error : Bool

def Init.flush (st : Init) : List (Str × Str × Nat) :=
  if st.nstr = [] then st.vec else st.vec ++ [(st.nstr, [], 0)]

def initLoop (pattern : Str) (i : Nat) (st : Init) : Init :=
  if h : i < pattern.length then
    if pattern[i] ≠ '%' then
      initLoop pattern (i + 1) { st with nstr := st.nstr ++ [pattern[i]] }
    else if pattern[i + 1]? = some '%' then
      -- only one of the two signs is consumed here
      initLoop pattern (i + 1) { st with nstr := st.nstr ++ ['%'] }
    else
      have hn := lt_scan_start pattern i
      let s := scan pattern i (.start i)
      if s.fmtStatus = 0 then
        initLoop pattern (s.n - 1 + 1)
          { st with nstr := [], vec := st.flush ++ [(s.str, s.fmt, 1)] }
      else
        initLoop pattern (i + 1)
          { st with vec := st.vec ++ [("<<pattern_error>>".toList, s.fmt, 0)], error := true }
  else st
termination_by pattern.length - i

/-- The last loop of the parser: one item per entry, and the error flag. -/
def addItem (acc : List FormatItem × Bool) (e : Str × Str × Nat) : List FormatItem × Bool :=
  if e.2.2 = 0 then (acc.1 ++ [.string e.1], acc.2)
  else
    match findItem e.1 with
    | none => (acc.1 ++ [.string ("<<error_format %".toList ++ e.1 ++ ">>".toList)], true)
    | some item => (acc.1 ++ [item e.2.1], acc.2)

def init (pattern : Str) : List FormatItem × Bool :=
  let st := initLoop pattern 0 ⟨[], [], false⟩
  st.flush.foldl addItem ([], st.error)

/-! ### The items of a pattern -/

/-- The entries that the outer loop leaves for the last one. -/
def entries (pattern : Str) : List (Str × Str × Nat) := (initLoop pattern 0 ⟨[], [], false⟩).flush

/-- The item that an entry is given. -/
def itemOf (e : Str × Str × Nat) : FormatItem :=
  if e.2.2 = 0 then .string e.1
  else
    match findItem e.1 with
    | none => .string ("<<error_format %".toList ++ e.1 ++ ">>".toList)
    | some item => item e.2.1

theorem addItem_item (acc : List FormatItem × Bool) (e : Str × Str × Nat) :
    (addItem acc e).1 = acc.1 ++ [itemOf e] := by
  rw [addItem, itemOf]
  split
  · rfl
  · cases findItem e.1 <;> rfl

theorem foldl_addItem_items (vec : List (Str × Str × Nat)) (acc : List FormatItem × Bool) :
    (vec.foldl addItem acc).1 = acc.1 ++ vec.map itemOf := by
  induction vec generalizing acc with
  | nil => simp
  | cons e vec ih =>
    rw [List.foldl_cons, ih, addItem_item, List.append_assoc, List.map_cons, List.singleton_append]

/-- A formatter is what its constructor makes of its pattern. -/
structure LogFormatter where
  pattern : Str
  items : List FormatItem
  error : Bool
  built : init pattern = (items, error)
  deriving DecidableEq

def LogFormatter.new (pattern : Str) : LogFormatter :=
  ⟨pattern, (init pattern).1, (init pattern).2, rfl⟩

def LogFormatter.isError (f : LogFormatter) : Bool := f.error

theorem LogFormatter.new_items (p : Str) : (new p).items = (entries p).map itemOf :=
  foldl_addItem_items (entries p) _

theorem LogFormatter.new_isError (p : Str) : (new p).isError = (init p).2 := rfl

def LogFormatter.format (libc : Libc) (f : LogFormatter) (lvl : Level) (event : LogEvent) : Str :=
  f.items.flatMap (FormatItem.format libc lvl event)

theorem LogFormatter.eq_new (f : LogFormatter) : f = .new f.pattern := by
  obtain ⟨pattern, items, error, built⟩ := f
  simp [LogFormatter.new, built]

end Mumu.PatternScanner
