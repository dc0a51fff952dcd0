import Mumu.KeyedSets
import Mumu.LogAppenders
import Mumu.PointerHeap
import Mathlib.Data.Char
import Mathlib.Data.List.Lex

namespace Mumu.Loggers

open Mumu.LogLevels Mumu.LogItems Mumu.PatternScanner Mumu.LogAppenders
open Mumu.PointerHeap Mumu.KeyedSets

structure Logger where
  name : Str
  level : Level
  appenders : List Ptr
  formatter : Option LogFormatter
  root : Option Ptr
  deriving DecidableEq

def defaultPattern : Str := "%d{%Y-%m-%d %H:%M:%S}%T%t%T%F%T[%p]%T[%c]%T%f:%l%T%m%n".toList

def Logger.new (name : Str) : Logger :=
  ⟨name, .debug, [], some (.new defaultPattern), none⟩

/-- The objects of the logging system, and the manager's map and root. The
ticks count the questions put to the environment. -/
structure World where
  loggers : Heap Logger
  appenders : Heap LogAppender
  managed : KeyedMap Str Ptr
  root : Ptr
  ticks : Nat

namespace World

variable (w : World)

/-! ### Logger -/

def setLevel (p : Ptr) (level : Level) : World :=
  { w with loggers := w.loggers.modify p (fun l => { l with level := level }) }

def inherit (val : Option LogFormatter) (a : LogAppender) : LogAppender :=
  if a.hasFormatter then a else { a with formatter := val }

theorem inherit_idem (val : Option LogFormatter) (a : LogAppender) :
    inherit val (inherit val a) = inherit val a := by
  cases hf : a.hasFormatter <;> simp [inherit, hf]

def setFormatter (p : Ptr) (val : Option LogFormatter) : World :=
  match w.loggers.get? p with
  | none => w
  | some l =>
    { w with
      loggers := w.loggers.modify p (fun l => { l with formatter := val })
      appenders := w.appenders.modifyAll l.appenders (inherit val) }

/-- The overload that takes a pattern ignores a pattern with an error. -/
def setFormatterPattern (p : Ptr) (val : Str) : World :=
  if (LogFormatter.new val).isError then w else w.setFormatter p (some (.new val))

def addAppender (p a : Ptr) : World :=
  match w.loggers.get? p, w.appenders.get? a with
  | some l, some _ =>
    { w with
      loggers := w.loggers.modify p (fun l => { l with appenders := l.appenders ++ [a] })
      appenders := w.appenders.modify a
        (fun ap => if ap.formatter = none then { ap with formatter := l.formatter } else ap) }
  | _, _ => w

/-- Only the first occurrence goes. -/
def delAppender (p a : Ptr) : World :=
  { w with loggers := w.loggers.modify p (fun l => { l with appenders := l.appenders.erase a }) }

def clearAppender (p : Ptr) : World :=
  { w with loggers := w.loggers.modify p (fun l => { l with appenders := [] }) }

/-! ### LogAppender -/

def newAppender (a : LogAppender) : World × Ptr :=
  ({ w with appenders := w.appenders.alloc a }, w.appenders.fresh)

def newStdoutAppender : World × Ptr := w.newAppender .newStdout

def newFileAppender (env : Env) (filename : Str) : World × Ptr :=
  { w with ticks := w.ticks + 1 }.newAppender (.newFile filename (env.opens w.ticks))

def setAppenderLevel (a : Ptr) (val : Level) : World :=
  { w with appenders := w.appenders.modify a (fun ap => ap.setLevel val) }

def setAppenderFormatter (a : Ptr) (val : Option LogFormatter) : World :=
  { w with appenders := w.appenders.modify a (fun ap => ap.setFormatter val) }

/-! ### Logging -/

/-- One event handed to one appender, with the text it wrote if any. -/
structure Handed where
  appender : Ptr
  written : Option Str
  deriving DecidableEq

def appenderLog (env : Env) (a : Ptr) (lvl : Level) (event : LogEvent) :
    Except Fault (World × Handed) :=
  match w.appenders.get? a with
  | none => .error .badPointer
  | some ap =>
    match ap.log env w.ticks lvl event with
    | .error e => .error e
    | .ok (ap', text) =>
      .ok ({ w with appenders := w.appenders.modify a (fun _ => ap'), ticks := w.ticks + 1 },
        ⟨a, text⟩)

def appendersLog (env : Env) (lvl : Level) (event : LogEvent) :
    List Ptr → World → Except Fault (World × List Handed)
  | [], w => .ok (w, [])
  | a :: as, w =>
    match w.appenderLog env a lvl event with
    | .error e => .error e
    | .ok (w, h) =>
      match appendersLog env lvl event as w with
      | .error e => .error e
      | .ok (w, hs) => .ok (w, h :: hs)

/-- The delegation through the root pointer is a recursion of the source, cut
off here after a number of hops. -/
def log (env : Env) (lvl : Level) (event : LogEvent) :
    Nat → World → Ptr → Except Fault (World × List Handed)
  | 0, _, _ => .error .endless
  | hops + 1, w, p =>
    match w.loggers.get? p with
    | none => .error .badPointer
    | some l =>
      if l.level ≤ lvl then
        if l.appenders ≠ [] then appendersLog env lvl event l.appenders w
        else
          match l.root with
          | some r => log env lvl event hops w r
          | none => .ok (w, [])
      else .ok (w, [])

/-- The place in the source of a logging statement, and what is streamed into it. -/
structure Site where
  filename : Str
  line : Int
  content : Str

def eventAt (env : Env) (site : Site) (loggerName : Str) : LogEvent :=
  { filename := site.filename, line := site.line, elapse := 0,
    threadId := env.threadId w.ticks, fiberId := 0, time := env.time w.ticks,
    content := site.content, loggerName := loggerName }

/-- The logging macro: the level is tested, then the event is made and logged
when its wrapper is destroyed. -/
def logLevel (env : Env) (hops : Nat) (p : Ptr) (lvl : Level) (site : Site) :
    Except Fault (World × List Handed) :=
  match w.loggers.get? p with
  | none => .error .badPointer
  | some l =>
    if l.level ≤ lvl then
      log env lvl (w.eventAt env site l.name) hops { w with ticks := w.ticks + 1 } p
    else .ok (w, [])

/-! ### LoggerManager -/

def getLogger (name : Str) : World × Ptr :=
  match KeyedMap.get? w.managed name with
  | some p => (w, p)
  | none =>
    let logger := { Logger.new name with root := some w.root }
    ({ w with
        loggers := w.loggers.alloc logger
        managed := w.managed.insert (name, w.loggers.fresh) }, w.loggers.fresh)

def rootName : Str := "root".toList

/-- The manager's constructor: the root logger with one appender to the
standard output, under its own name. -/
def initial : World :=
  let w : World := ⟨⟨[Logger.new rootName]⟩, ⟨[]⟩, .empty, 0, 0⟩
  let (w, a) := w.newStdoutAppender
  let w := w.addAppender 0 a
  { w with managed := w.managed.insert (rootName, 0) }

end World

end Mumu.Loggers
