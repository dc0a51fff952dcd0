import Mathlib.Data.Char
import Mathlib.Data.List.Lex
import Mumu.Decimal
import Mumu.HashedSets
import Mumu.KeyedSets
import Mumu.YamlNodes

namespace Mumu.LexcalCasts

open Mumu.LogLevels Mumu.KeyedSets Mumu.HashedSets Mumu.YamlNodes

/-- The conversions of a type from a text and to a text, and what its values
are compared by. -/
structure LexcalCast (T : Type) where
  fromStr : Str → Except Exn T
  toStr : T → Except Exn Str
  eq : T → T → Prop

/-- A value that its own text converts back to. -/
def LexcalCast.RoundTrips {T : Type} (C : LexcalCast T) (x : T) : Prop :=
  ∃ t y, C.toStr x = .ok t ∧ C.fromStr t = .ok y ∧ C.eq y x

/-! ### Integers -/

structure IntType where
  signed : Bool
  bits : Nat

namespace IntType

variable (k : IntType)

def lo : Int := if k.signed then -2 ^ (k.bits - 1) else 0

def hi : Int := if k.signed then 2 ^ (k.bits - 1) - 1 else 2 ^ k.bits - 1

abbrev Val := {i : Int // k.lo ≤ i ∧ i ≤ k.hi}

theorem wrapped {i : Int} (h : k.signed = false ∧ -k.hi ≤ i ∧ i < 0) :
    k.lo ≤ i + 2 ^ k.bits ∧ i + 2 ^ k.bits ≤ k.hi := by
  obtain ⟨hs, hi, hneg⟩ := h
  simp only [lo, IntType.hi, hs, Bool.false_eq_true, if_false] at hi ⊢
  omega

/-- The integer of a text, which may have a sign also for an unsigned type, where a
negative number wraps around. -/
def parse (s : Str) : Except Exn k.Val :=
  match Decimal.read s with
  | none => .error .badLexicalCast
  | some i =>
    if h : k.lo ≤ i ∧ i ≤ k.hi then .ok ⟨i, h⟩
    else if h : k.signed = false ∧ -k.hi ≤ i ∧ i < 0 then .ok ⟨i + 2 ^ k.bits, k.wrapped h⟩
    else .error .badLexicalCast

theorem parse_print (x : k.Val) : k.parse (Decimal.print x.val) = .ok x := by
  rw [parse, Decimal.read_print]
  exact dif_pos x.property

def int : IntType := ⟨true, 32⟩

end IntType

/-- What the program uses of boost: the conversions of an integer from a text and to a
text. -/
structure Boost where
  fromText : (k : IntType) → Str → Except Exn k.Val
  toText : (k : IntType) → k.Val → Str

namespace Boost

/-- The integers of a type convert to their decimal texts, and these texts back to
them. Types of eight bits are characters to boost. -/
def Lawful (boost : Boost) (k : IntType) : Prop :=
  ∀ x, boost.toText k x = Decimal.print x.val ∧
    boost.fromText k (Decimal.print x.val) = .ok x

def decimal : Boost := ⟨IntType.parse, fun _ x => Decimal.print x.val⟩

theorem decimal_lawful (k : IntType) : decimal.Lawful k := fun x => ⟨rfl, k.parse_print x⟩

end Boost

def integer (boost : Boost) (k : IntType) : LexcalCast k.Val where
  fromStr := boost.fromText k
  toStr x := .ok (boost.toText k x)
  eq := Eq

/-- The general conversion, which copies a text. -/
def string : LexcalCast Str where
  fromStr v := .ok v
  toStr v := .ok v
  eq := Eq

/-! ### Sequences -/

section

variable {T : Type} (yaml : Yaml) (C : LexcalCast T)

/-- The loop of the four conversions from a sequence. -/
def readElements (v : Str) : Except Exn (List T) := do
  let node ← yaml.load v
  (node.elementTexts yaml).mapM C.fromStr

/-- The node that a value's text stands for. -/
def valueNode (i : T) : Except Exn Node := do
  let text ← C.toStr i
  yaml.load text

/-- The loop of the conversions to a sequence that push the elements' texts. -/
def writeTexts (xs : List T) : Except Exn Str := do
  let texts ← xs.mapM C.toStr
  return yaml.emit (.seq (texts.map .scalar))

def vector : LexcalCast (List T) where
  fromStr := readElements yaml C
  toStr vec := do
    let nodes ← vec.mapM (valueNode yaml C)
    return yaml.emit (.seq nodes)
  eq := List.Forall₂ C.eq

def list : LexcalCast (List T) where
  fromStr := readElements yaml C
  toStr := writeTexts yaml C
  eq := List.Forall₂ C.eq

def set [LinearOrder T] : LexcalCast (KeyedSet (id : T → T)) where
  fromStr v := do
    let xs ← readElements yaml C v
    return xs.foldl KeyedSet.insert .empty
  toStr s := writeTexts yaml C s.toList
  eq := Eq

def unorderedSet [DecidableEq T] : LexcalCast (HashedSet (id : T → T)) where
  fromStr v := do
    let xs ← readElements yaml C v
    return xs.foldl HashedSet.insert .empty
  toStr s := writeTexts yaml C s.toList
  eq s t := ∀ a, a ∈ s ↔ a ∈ t

/-! ### Maps -/

def readEntry (it : Node × Node) : Except Exn (Str × T) := do
  let x ← C.fromStr (yaml.emit it.2)
  return (it.1.scalarText, x)

/-- The loop of the two conversions from a map. The elements of a sequence are
no pairs. -/
def readEntries (v : Str) : Except Exn (List (Str × T)) := do
  let node ← yaml.load v
  match node with
  | .map entries => entries.mapM (readEntry yaml C)
  | .seq (_ :: _) => .error .invalidNode
  | _ => .ok []

def writeEntry (node : Node) (i : Str × T) : Except Exn Node := do
  let value ← valueNode yaml C i.2
  node.set i.1 value

/-- The loop of the two conversions to a map, from a node that is a sequence at
first. -/
def writeEntries (entries : List (Str × T)) : Except Exn Str := do
  let node ← entries.foldlM (writeEntry yaml C) (.seq [])
  return yaml.emit node

def map : LexcalCast (KeyedMap Str T) where
  fromStr v := do
    let entries ← readEntries yaml C v
    return entries.foldl KeyedSet.insert .empty
  toStr m := writeEntries yaml C m.toList
  eq m m' := List.Forall₂ (fun e e' => e.1 = e'.1 ∧ C.eq e.2 e'.2) m.toList m'.toList

def unorderedMap : LexcalCast (HashedMap Str T) where
  fromStr v := do
    let entries ← readEntries yaml C v
    return entries.foldl HashedSet.insert .empty
  toStr m := writeEntries yaml C m.toList
  eq m m' := ∀ k, Option.Rel C.eq (m.get? k) (m'.get? k)

/-! ### The conversions by their loops -/

/-- The conversion that copies a text, with what it makes of it. -/
inductive TextCast : {S : Type} → LexcalCast S → (Str → S) → Prop
  | string : TextCast string id

/-- The conversions from a sequence, each with what it makes of the elements. -/
inductive SequenceCast : {S : Type} → LexcalCast S → (List T → S) → Prop
  | vector : SequenceCast (vector yaml C) id
  | list : SequenceCast (list yaml C) id
  | set [LinearOrder T] : SequenceCast (set yaml C) (fun xs => xs.foldl KeyedSet.insert .empty)
  | unorderedSet [DecidableEq T] :
    SequenceCast (unorderedSet yaml C) (fun xs => xs.foldl HashedSet.insert .empty)

/-- The conversions from a map, each with what it makes of the entries. -/
inductive MapCast : {S : Type} → LexcalCast S → (List (Str × T) → S) → Prop
  | map : MapCast (map yaml C) (fun entries => entries.foldl KeyedSet.insert .empty)
  | unorderedMap :
    MapCast (unorderedMap yaml C) (fun entries => entries.foldl HashedSet.insert .empty)

variable {yaml C} {S : Type} {D : LexcalCast S}

theorem SequenceCast.fromStr_eq {collect : List T → S} (h : SequenceCast yaml C D collect)
    (v : Str) : D.fromStr v = do
      let xs ← readElements yaml C v
      return collect xs := by
  cases h with
  | vector | list => exact (bind_pure (readElements yaml C v)).symm
  | set | unorderedSet => rfl

theorem SequenceCast.fromStr_eq_ok {collect : List T → S} (h : SequenceCast yaml C D collect)
    {v : Str} {y : S} :
    D.fromStr v = .ok y ↔ ∃ xs, readElements yaml C v = .ok xs ∧ collect xs = y := by
  simp [h.fromStr_eq, bind_eq_ok]

theorem MapCast.fromStr_eq {collect : List (Str × T) → S} (h : MapCast yaml C D collect)
    (v : Str) : D.fromStr v = do
      let entries ← readEntries yaml C v
      return collect entries := by
  cases h with
  | map | unorderedMap => rfl

theorem MapCast.fromStr_eq_ok {collect : List (Str × T) → S} (h : MapCast yaml C D collect)
    {v : Str} {y : S} :
    D.fromStr v = .ok y ↔ ∃ entries, readEntries yaml C v = .ok entries ∧ collect entries = y := by
  simp [h.fromStr_eq, bind_eq_ok]

end

end Mumu.LexcalCasts
