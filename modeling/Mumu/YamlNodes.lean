import Mumu.Decimal
import Mumu.LogLevels

namespace Mumu.YamlNodes

open Mumu.LogLevels

/-- A document tree; the entries of a map stand in the order of the document. -/
inductive Node where
  | null
  | scalar (s : Str)
  | seq (items : List Node)
  | map (entries : List (Node × Node))

/-- The exceptions that a conversion can leave with. -/
inductive Exn where
  | parser
  | invalidNode
  | badSubscript
  | badPushback
  | badConversion
  | badLexicalCast
  | logicError (what : Str)
  deriving DecidableEq

section

variable {α β : Type}

@[simp] theorem ok_bind (a : α) (f : α → Except Exn β) : (Except.ok a >>= f) = f a := rfl

@[simp] theorem error_bind (e : Exn) (f : α → Except Exn β) :
    (Except.error e >>= f) = Except.error e := rfl

@[simp] theorem pure_eq_ok (a : α) : (pure a : Except Exn α) = .ok a := rfl

theorem bind_eq_ok {x : Except Exn α} {f : α → Except Exn β} {b : β} :
    (x >>= f) = .ok b ↔ ∃ a, x = .ok a ∧ f a = .ok b := by
  cases x <;> simp

end

/-- What the program uses of the YAML library: the reader, the emitter, the
index that a map key stands for, and the text that a node converts to. -/
structure Yaml where
  load : Str → Except Exn Node
  emit : Node → Str
  keyIndex : Node → Option Nat
  asString : Node → Except Exn Str

/-- The emitted text of a node reads back as the node. -/
def Yaml.Lawful (yaml : Yaml) : Prop := ∀ n, yaml.load (yaml.emit n) = .ok n

namespace Node

def isScalar : Node → Bool
  | scalar _ => true
  | _ => false

/-- The text of a scalar; other nodes have none. -/
def scalarText : Node → Str
  | scalar s => s
  | _ => []

def size : Node → Nat
  | seq items => items.length
  | map entries => entries.length
  | _ => 0

/-- The element at an index, where a map is searched for a key that is one. -/
def at? (yaml : Yaml) (node : Node) (i : Nat) : Option Node :=
  match node with
  | seq items => items[i]?
  | map entries => (entries.find? (fun e => yaml.keyIndex e.1 = some i)).map Prod.snd
  | _ => none

/-- The text of an element; one that is not there has none. -/
def text (yaml : Yaml) : Option Node → Str
  | some n => yaml.emit n
  | none => []

/-- The elements, as a loop over the indices finds them. -/
def elements (yaml : Yaml) (node : Node) : List (Option Node) :=
  (List.range node.size).map (node.at? yaml)

def elementTexts (yaml : Yaml) (node : Node) : List Str := (node.elements yaml).map (text yaml)

theorem elements_seq (yaml : Yaml) (items : List Node) :
    elements yaml (seq items) = items.map some := by
  apply List.ext_getElem
  · simp [elements, size]
  · intro i h₁ h₂
    have hi : i < items.length := by simpa using h₂
    simp [elements, at?, List.getElem?_eq_getElem hi]

theorem elementTexts_seq (yaml : Yaml) (items : List Node) :
    elementTexts yaml (seq items) = items.map yaml.emit := by
  rw [elementTexts, elements_seq, List.map_map]
  rfl

theorem elementTexts_scalar (yaml : Yaml) (s : Str) : elementTexts yaml (scalar s) = [] := rfl

/-! ### Subscripts with a text -/

def isKey (key : Str) : Node → Bool
  | scalar s => s == key
  | _ => false

/-- The entries that a text is looked up in. A null counts as an empty map, and
a sequence as a map from the texts of its indices. -/
def asEntries : Node → Except Exn (List (Node × Node))
  | null => .ok []
  | scalar _ => .error .badSubscript
  | seq items => .ok (items.zipIdx.map (fun e => (scalar (Decimal.print e.2), e.1)))
  | map entries => .ok entries

def field? (node : Node) (key : Str) : Except Exn (Option Node) := do
  let entries ← node.asEntries
  return (entries.find? (fun e => isKey key e.1)).map Prod.snd

def setEntry (key : Str) (value : Node) : List (Node × Node) → List (Node × Node)
  | [] => [(scalar key, value)]
  | e :: entries => if isKey key e.1 then (e.1, value) :: entries else e :: setEntry key value entries

/-- Assignment through a subscript, which leaves a map in any case. -/
def set (node : Node) (key : Str) (value : Node) : Except Exn Node := do
  let entries ← node.asEntries
  return map (setEntry key value entries)

def pushBack (node value : Node) : Except Exn Node :=
  match node with
  | null => .ok (seq [value])
  | seq items => .ok (seq (items ++ [value]))
  | _ => .error .badPushback

theorem isKey_scalar (key s : Str) : isKey key (scalar s) = true ↔ s = key := beq_iff_eq

theorem setEntry_of_new {key : Str} {value : Node} {entries : List (Node × Node)}
    (h : ∀ e ∈ entries, isKey key e.1 = false) :
    setEntry key value entries = entries ++ [(scalar key, value)] := by
  induction entries with
  | nil => rfl
  | cons e entries ih =>
    have hrest := ih (fun e' he' => h e' (by simp [he']))
    simp [setEntry, h e (by simp), hrest]

end Node

end Mumu.YamlNodes
