import Mumu.ConfigVars
import Mumu.Executions
import Mumu.Loggers

namespace Mumu.LogIniter

open Mumu.LogLevels Mumu.LogItems Mumu.PatternScanner Mumu.LogAppenders Mumu.Loggers
open Mumu.PointerHeap Mumu.KeyedSets Mumu.ConfigVars Mumu.Executions

/-- The configuration of an appender; type 1 is a file, type 2 the standard output. -/
structure LogAppenderDefine where
  type : Int
  level : Level
  formatter : Str
  file : Str
  deriving DecidableEq

structure LogDefine where
  name : Str
  level : Level
  formatter : Str
  appenders : List LogAppenderDefine
  deriving DecidableEq

/-- Definitions are ordered by name and compared field by field. -/
abbrev LogDefines := KeyedSet LogDefine.name

/-- Set up a new appender as defined, and give it to the logger. -/
def attach (p : Ptr) (a : LogAppenderDefine) (w : World) (ap : Ptr) : World :=
  let w := w.setAppenderLevel ap a.level
  let w :=
    if a.formatter ≠ [] ∧ (LogFormatter.new a.formatter).isError = false then
      w.setAppenderFormatter ap (some (.new a.formatter))
    else w
  w.addAppender p ap

def addDefined (env : Env) (p : Ptr) (w : World) (a : LogAppenderDefine) : World :=
  if a.type = 1 then
    let (w, ap) := w.newFileAppender env a.file
    attach p a w ap
  else if a.type = 2 then
    let (w, ap) := w.newStdoutAppender
    attach p a w ap
  else w

/-- The part of the listener for a definition that is new or has changed. -/
def applyDefine (env : Env) (w : World) (i : LogDefine) : World :=
  let (w, p) := w.getLogger i.name
  let w := w.setLevel p i.level
  let w := if i.formatter ≠ [] then w.setFormatterPattern p i.formatter else w
  let w := w.clearAppender p
  i.appenders.foldl (addDefined env p) w

/-- The part of the listener for a definition that is gone. -/
def removeDefine (w : World) (i : LogDefine) : World :=
  let (w, p) := w.getLogger i.name
  let w := w.setLevel p .unkonw
  w.clearAppender p

def applyNew (env : Env) (oldValue : LogDefines) (w : World) (i : LogDefine) : World :=
  match oldValue.find? i.name with
  | none => applyDefine env w i
  | some d => if i = d then w else applyDefine env w i

def removeOld (newValue : LogDefines) (w : World) (i : LogDefine) : World :=
  match newValue.find? i.name with
  | none => removeDefine w i
  | some _ => w

/-- The two loops of the listener. -/
def reload (env : Env) (oldValue newValue : LogDefines) (w : World) : World :=
  let w := newValue.toList.foldl (applyNew env oldValue) w
  oldValue.toList.foldl (removeOld newValue) w

/-- The build gives `__FILE__` the path from the directory of the project. -/
def site : World.Site := ⟨"mumu/log.cc".toList, 836, "on_logger_conf_changed".toList⟩

/-- The listener that the static initialiser installs. A chain of delegations
longer than the number of loggers would meet one of them twice. -/
def onLogConfChanged (env : Env) : Listener World Fault LogDefines :=
  fun oldValue newValue w =>
    match w.logLevel env (w.loggers.fresh + 1) w.root .info site with
    | .error e => (.error e, w)
    | .ok (w, _) => (.ok (), reload env oldValue newValue w)

/-- The program's state as far as logging goes. -/
structure System where
  world : World
  logDefines : ConfigVar World Fault LogDefines

instance : BEq LogDefines := instBEqOfDecidableEq

def System.initial (env : Env) : System :=
  ⟨World.initial,
    (ConfigVar.addListener ⟨"logs".toList, "logs config".toList, .empty, .empty⟩
      (onLogConfChanged env) 0).2⟩

/-- `setValue` on the variable; a fault of the listener ends the program. -/
def System.setLogDefines (sys : System) (v : LogDefines) : Except Fault System :=
  let (r, var) := sys.logDefines.setValue v sys.world
  match r.outcome with
  | .error e => .error e
  | .ok () => .ok ⟨r.state, var⟩

def reconfigure (sys : System) (vs : List LogDefines) : Except Fault System :=
  exec System.setLogDefines sys vs

end Mumu.LogIniter
