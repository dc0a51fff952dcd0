import Mathlib.Order.Basic

namespace Mumu.LogLevels

abbrev Str := List Char

inductive Level where
  | unkonw | debug | info | warn | error | fatal
  deriving DecidableEq, Repr

namespace Level

def toNat : Level → Nat
  | unkonw => 0
  | debug => 1
  | info => 2
  | warn => 3
  | error => 4
  | fatal => 5

instance : LE Level := ⟨fun a b => a.toNat ≤ b.toNat⟩

instance (a b : Level) : Decidable (a ≤ b) := inferInstanceAs (Decidable (a.toNat ≤ b.toNat))

def toString : Level → Str
  | debug => "DEBUG".toList
  | info => "INFO".toList
  | warn => "WARN".toList
  | error => "ERROR".toList
  | fatal => "FATAL".toList
  | unkonw => "UNKNOW".toList

def fromString (str : Str) : Level :=
  if str = "debug".toList then debug
  else if str = "info".toList then info
  else if str = "warn".toList then warn
  else if str = "error".toList then error
  else if str = "fatal".toList then fatal
  else if str = "DEBUG".toList then debug
  else if str = "INFO".toList then info
  else if str = "WARN".toList then warn
  else if str = "ERROR".toList then error
  else if str = "FATAL".toList then fatal
  else unkonw

/-- The upper-case spellings read back; the unknown level's own text does so
only because no spelling claims it. -/
theorem fromString_toString (l : Level) : fromString l.toString = l := by
  cases l <;> decide

theorem fromString_nil : fromString [] = unkonw := by decide

end Level

end Mumu.LogLevels
