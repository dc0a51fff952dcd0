import Mumu.PatternScanner

namespace Mumu.LogAppenders

open Mumu.LogLevels Mumu.LogItems Mumu.PatternScanner

/-- What the program gets from outside: the C library, and for each moment at
which it asks whether a file opens, whether a write succeeds, the time and the
thread. -/
structure Env where
  libc : Libc
  opens : Nat → Bool
  writes : Nat → Bool
  time : Nat → Nat
  threadId : Nat → Int
  deriving Inhabited

inductive Fault where
  | nullFormatter
  | badPointer
  | endless
  deriving DecidableEq

/-- An output file stream: whether its file is open, and its error bits. -/
structure FileStream where
  isOpen : Bool
  failbit : Bool
  badbit : Bool
  deriving DecidableEq

namespace FileStream

def closed : FileStream := ⟨false, false, false⟩

def good (s : FileStream) : Bool := !s.failbit && !s.badbit

def close (s : FileStream) : FileStream :=
  if s.isOpen then { s with isOpen := false } else { s with failbit := true }

def openFile (ok : Bool) (s : FileStream) : FileStream :=
  if s.isOpen then { s with failbit := true }
  else if ok then ⟨true, false, false⟩
  else { s with failbit := true }

def write (ok : Bool) (s : FileStream) : FileStream :=
  if !s.good then s
  else if s.isOpen && ok then s
  else { s with badbit := true }

end FileStream

inductive Kind where
  | stdout
  | file (filename : Str) (filestream : FileStream) (lastTime : Nat)
  deriving DecidableEq

structure LogAppender where
  kind : Kind
  level : Level
  formatter : Option LogFormatter
  hasFormatter : Bool
  deriving DecidableEq

namespace LogAppender

/-- The stream is closed only when it has no error bit set. -/
def reopen (ok : Bool) (s : FileStream) : FileStream × Bool :=
  let s := if s.good then s.close else s
  let s := s.openFile ok
  (s, s.good)

def newStdout : LogAppender := ⟨.stdout, .debug, none, false⟩

def newFile (filename : Str) (ok : Bool) : LogAppender :=
  ⟨.file filename (reopen ok .closed).1 0, .debug, none, false⟩

def setLevel (a : LogAppender) (val : Level) : LogAppender := { a with level := val }

def setFormatter (a : LogAppender) (val : Option LogFormatter) : LogAppender :=
  { a with formatter := val, hasFormatter := val.isSome }

/-- Bring the stream up to date before a write, at most every three seconds. -/
def refresh (ok : Bool) (now : Nat) : Kind → Kind
  | .stdout => .stdout
  | .file filename s lastTime =>
    if (lastTime + 3) % 2 ^ 64 ≤ now then .file filename (reopen ok s).1 now
    else .file filename s lastTime

def emit (ok : Bool) : Kind → Kind
  | .stdout => .stdout
  | .file filename s lastTime => .file filename (s.write ok) lastTime

/-- The `log` function of both appenders: the appender afterwards, and the text
it wrote if the level passed. -/
def log (env : Env) (tick : Nat) (a : LogAppender) (lvl : Level) (event : LogEvent) :
    Except Fault (LogAppender × Option Str) :=
  if a.level ≤ lvl then
    match a.formatter with
    | none => .error .nullFormatter
    | some f =>
      .ok ({ a with kind := emit (env.writes tick) (refresh (env.opens tick) event.time a.kind) },
        some (f.format env.libc lvl event))
  else .ok (a, none)

end LogAppender

end Mumu.LogAppenders
