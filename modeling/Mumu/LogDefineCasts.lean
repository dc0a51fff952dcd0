import Mumu.LogIniter
import Mumu.YamlNodes

namespace Mumu.LogDefineCasts

open Mumu.LogLevels Mumu.KeyedSets Mumu.LogIniter Mumu.YamlNodes

def nameKey : Str := "name".toList

def levelKey : Str := "level".toList

def formatterKey : Str := "formatter".toList

def appendersKey : Str := "appenders".toList

def typeKey : Str := "type".toList

def fileKey : Str := "file".toList

def fileType : Str := "FileLogAppender".toList

def stdoutType : Str := "StdoutLogAppender".toList

variable (yaml : Yaml)

/-- The text in a field, if the field is there. -/
def fieldText (node : Node) (key : Str) : Except Exn (Option Str) := do
  let field ← node.field? key
  match field with
  | none => return none
  | some value =>
    let text ← yaml.asString value
    return some text

/-- The entry for an appender. One without a type, of another type, or for a
file that it does not name, is left out. -/
def readAppender (a : Node) : Except Exn (Option LogAppenderDefine) := do
  let type ← fieldText yaml a typeKey
  match type with
  | none => return none
  | some type =>
    if type = fileType then
      let file ← fieldText yaml a fileKey
      match file with
      | none => return none
      | some file =>
        let formatter ← fieldText yaml a formatterKey
        return some ⟨1, .unkonw, formatter.getD [], file⟩
    else if type = stdoutType then
      let formatter ← fieldText yaml a formatterKey
      return some ⟨2, .unkonw, formatter.getD [], []⟩
    else return none

/-- An index without an element gives an undefined node, which has no fields. -/
def readAppenders (n : Node) : Except Exn (List LogAppenderDefine) := do
  let field ← n.field? appendersKey
  match field with
  | none => return []
  | some appenders =>
    let entries ← (appenders.elements yaml).mapM (fun a => readAppender yaml (a.getD .null))
    return entries.filterMap id

def readLogDefine (v : Str) : Except Exn LogDefine := do
  let n ← yaml.load v
  let name ← fieldText yaml n nameKey
  match name with
  | none => .error (.logicError "log config name is null".toList)
  | some name =>
    let level ← fieldText yaml n levelKey
    let formatter ← fieldText yaml n formatterKey
    let appenders ← readAppenders yaml n
    return ⟨name, Level.fromString (level.getD []), formatter.getD [], appenders⟩

/-- The loop over the elements of a text that holds several definitions. -/
def readEach (v : Str) : Except Exn (List LogDefine) := do
  let node ← yaml.load v
  (node.elementTexts yaml).mapM (readLogDefine yaml)

def readLogDefines (v : Str) : Except Exn LogDefines := do
  let ds ← readEach yaml v
  return ds.foldl KeyedSet.insert .empty

end Mumu.LogDefineCasts
