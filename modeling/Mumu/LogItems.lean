import Mumu.Decimal
import Mumu.LogLevels

namespace Mumu.LogItems

open Mumu.LogLevels

/-- The fields of a log event that the formatter reads. The logger's name
stands for the logger, whose name never changes after construction. -/
structure LogEvent where
  filename : Str
  line : Int
  elapse : Int
  threadId : Int
  fiberId : Int
  time : Nat
  content : Str
  loggerName : Str
  deriving Inhabited

/-- The C library's date formatting: the full expansion of a format, and what
is left in the buffer by a call whose expansion does not fit. -/
structure Libc where
  expansion : Str → Nat → Str
  leftover : Str → Nat → Str
  deriving Inhabited

def cStr (s : Str) : Str := s.takeWhile (fun c => c ≠ '\x00')

def Libc.strftime (libc : Libc) (size : Nat) (format : Str) (time : Nat) : Str :=
  if (libc.expansion format time).length ≤ size - 1 then libc.expansion format time
  else libc.leftover format time

inductive FormatItem where
  | message
  | level
  | name
  | elapse
  | threadId
  | fiberId
  | dateTime (format : Str)
  | filename
  | line
  | newLine
  | string (str : Str)
  | tab (str : Str)
  deriving DecidableEq

/-- The constructor of the date item replaces an empty format by its default. -/
def dateTimeFormatItem (format : Str) : FormatItem :=
  .dateTime (if format = [] then "%Y-%m-%d  %H:%M:%S".toList else format)

def FormatItem.format (libc : Libc) (lvl : Level) (event : LogEvent) : FormatItem → Str
  | message => event.content
  | level => lvl.toString
  | name => event.loggerName
  | elapse => Decimal.print event.elapse
  | threadId => Decimal.print event.threadId
  | fiberId => Decimal.print event.fiberId
  | dateTime format => cStr (libc.strftime 64 (cStr format) event.time)
  | filename => event.filename
  | line => Decimal.print event.line
  | newLine => ['\n']
  | string str => str
  | tab _ => ['\t']

/-- The table from a directive's name to the constructor of its item. -/
def formatItems : List (Str × (Str → FormatItem)) :=
  [("m".toList, fun _ => .message),
   ("p".toList, fun _ => .level),
   ("r".toList, fun _ => .elapse),
   ("c".toList, fun _ => .name),
   ("t".toList, fun _ => .threadId),
   ("n".toList, fun _ => .newLine),
   ("d".toList, dateTimeFormatItem),
   ("f".toList, fun _ => .filename),
   ("l".toList, fun _ => .line),
   ("T".toList, .tab),
   ("F".toList, fun _ => .fiberId),
   ("N".toList, fun _ => .threadId)]

def findItem (str : Str) : Option (Str → FormatItem) :=
  (formatItems.find? (fun e => e.1 = str)).map Prod.snd

def keys : List Char := "mprctndflTFN".toList

theorem formatItems_fst : formatItems.map Prod.fst = keys.map (fun k => [k]) := by decide

theorem findItem_isSome (str : Str) : (findItem str).isSome ↔ ∃ k ∈ keys, str = [k] := by
  have hm : (findItem str).isSome ↔ str ∈ formatItems.map Prod.fst := by
    simp [findItem]
  rw [hm, formatItems_fst]
  simp [eq_comm]

end Mumu.LogItems
