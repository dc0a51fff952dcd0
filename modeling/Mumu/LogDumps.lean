import Mumu.LogDefineCasts
import Mumu.LoggerViews
import Mumu.YamlFields

namespace Mumu.LogDumps

open Mumu.LogLevels Mumu.PatternScanner Mumu.LogAppenders Mumu.Loggers Mumu.PointerHeap
open Mumu.KeyedSets Mumu.LogIniter Mumu.YamlNodes Mumu.YamlFields Mumu.LogDefineCasts

/-! ### Writing -/

section

variable (yaml : Yaml)

def setText (node : Node) (key text : Str) : Except Exn Node := node.set key (.scalar text)

/-- The level is written unless it is the unknown one. -/
def setLevelField (node : Node) (level : Level) : Except Exn Node :=
  if level ≠ .unkonw then setText node levelKey level.toString else .ok node

def setFormatterField (node : Node) : Option LogFormatter → Except Exn Node
  | none => .ok node
  | some f => setText node formatterKey f.pattern

/-- The formatter that an appender does not have from its logger. -/
def ownFormatter (a : LogAppender) : Option LogFormatter :=
  if a.hasFormatter then a.formatter else none

def fileToYamlString (filename : Str) (a : LogAppender) : Except Exn Str := do
  let node ← setText .null typeKey fileType
  let node ← setText node fileKey filename
  let node ← setLevelField node a.level
  let node ← setFormatterField node (ownFormatter a)
  return yaml.emit node

def stdoutToYamlString (a : LogAppender) : Except Exn Str := do
  let node ← setText .null typeKey stdoutType
  let node ← setLevelField node a.level
  let node ← setFormatterField node (ownFormatter a)
  return yaml.emit node

def appenderToYamlString (a : LogAppender) : Except Exn Str :=
  match a.kind with
  | .stdout => stdoutToYamlString yaml a
  | .file filename _ _ => fileToYamlString yaml filename a

def attachedTo (w : World) (l : Logger) : List LogAppender := l.appenders.filterMap w.appenders.get?

/-- The node that an appender's or a logger's own text stands for. -/
def textNode (toYamlString : Except Exn Str) : Except Exn Node := do
  let text ← toYamlString
  yaml.load text

def loggerToYamlString (w : World) (l : Logger) : Except Exn Str := do
  let node ← setText .null nameKey l.name
  let node ← setLevelField node l.level
  let node ← setFormatterField node l.formatter
  let node ← (attachedTo w l).foldlM (fun node i => do
    let value ← textNode yaml (appenderToYamlString yaml i)
    pushField node appendersKey value) node
  return yaml.emit node

/-- The loggers of the manager, in the order of their names. -/
def managedLoggers (w : World) : List Logger :=
  w.managed.toList.filterMap (fun i => w.loggers.get? i.2)

def toYamlString (w : World) : Except Exn Str := do
  let node ← (managedLoggers w).foldlM (fun node i => do
    let value ← textNode yaml (loggerToYamlString yaml w i)
    node.pushBack value) .null
  return yaml.emit node

end

/-! ### What is written -/

def levelFields (level : Level) : List (Str × Node) :=
  if level ≠ .unkonw then [(levelKey, .scalar level.toString)] else []

def formatterFields : Option LogFormatter → List (Str × Node)
  | none => []
  | some f => [(formatterKey, .scalar f.pattern)]

def typeFields : Kind → List (Str × Node)
  | .stdout => [(typeKey, .scalar stdoutType)]
  | .file filename _ _ => [(typeKey, .scalar fileType), (fileKey, .scalar filename)]

def appenderFields (a : LogAppender) : List (Str × Node) :=
  typeFields a.kind ++ levelFields a.level ++ formatterFields (ownFormatter a)

def loggerFields (l : Logger) : List (Str × Node) :=
  [(nameKey, .scalar l.name)] ++ levelFields l.level ++ formatterFields l.formatter

/-- A logger's fields, with an entry for each of the given appenders. -/
def fieldsNode (l : Logger) (as : List LogAppender) : Node :=
  ofFields (loggerFields l ++ seqField appendersKey (as.map (fun a => ofFields (appenderFields a))))

def loggerNode (w : World) (l : Logger) : Node := fieldsNode l (attachedTo w l)

theorem setText_null (key text : Str) : setText .null key text = .ok (ofFields [(key, .scalar text)]) :=
  rfl

theorem setText_of_new {fields : List (Str × Node)} {key : Str} (hkey : key ∉ keysOf fields)
    (text : Str) : setText (ofFields fields) key text = .ok (ofFields (fields ++ [(key, .scalar text)])) :=
  set_of_new hkey _

theorem setLevelField_eq {fields : List (Str × Node)} (hkey : levelKey ∉ keysOf fields)
    (level : Level) :
    setLevelField (ofFields fields) level = .ok (ofFields (fields ++ levelFields level)) := by
  unfold setLevelField levelFields
  split
  · exact setText_of_new hkey _
  · rw [List.append_nil]

theorem setFormatterField_eq {fields : List (Str × Node)}
    (hkey : formatterKey ∉ keysOf fields) (f : Option LogFormatter) :
    setFormatterField (ofFields fields) f = .ok (ofFields (fields ++ formatterFields f)) := by
  cases f with
  | none => rw [setFormatterField, formatterFields, List.append_nil]
  | some f => exact setText_of_new hkey _

/-- No other field is added under the key of a level. -/
theorem not_mem_levelFields {key : Str} (hkey : key ≠ levelKey) (level : Level) :
    key ∉ keysOf (levelFields level) := by
  rw [levelFields]
  split <;> simp [keysOf, hkey]

theorem not_mem_formatterFields {key : Str} (hkey : key ≠ formatterKey)
    (f : Option LogFormatter) : key ∉ keysOf (formatterFields f) := by
  cases f <;> simp [keysOf, formatterFields, hkey]

theorem keysOf_append (fields fields' : List (Str × Node)) :
    keysOf (fields ++ fields') = keysOf fields ++ keysOf fields' := List.map_append

/-- The formatter is written after the level. -/
theorem setFormatterField_levelled {fields : List (Str × Node)}
    (hkey : formatterKey ∉ keysOf fields) (level : Level) (f : Option LogFormatter) :
    setFormatterField (ofFields (fields ++ levelFields level)) f =
      .ok (ofFields (fields ++ levelFields level ++ formatterFields f)) := by
  apply setFormatterField_eq
  rw [keysOf_append, List.mem_append, not_or]
  exact ⟨hkey, not_mem_levelFields (by decide) _⟩

theorem not_mem_typeFields {key : Str} (htype : key ≠ typeKey) (hfile : key ≠ fileKey)
    (k : Kind) : key ∉ keysOf (typeFields k) := by
  cases k <;> simp [keysOf, typeFields, htype, hfile]

theorem setFile_eq (filename : Str) (s : FileStream) (lastTime : Nat) :
    setText (ofFields [(typeKey, .scalar fileType)]) fileKey filename =
      .ok (ofFields (typeFields (.file filename s lastTime))) :=
  setText_of_new (by simp [keysOf, show fileKey ≠ typeKey by decide]) _

theorem setLevelField_type (k : Kind) (level : Level) :
    setLevelField (ofFields (typeFields k)) level =
      .ok (ofFields (typeFields k ++ levelFields level)) :=
  setLevelField_eq (not_mem_typeFields (by decide) (by decide) _) _

theorem setFormatterField_type (k : Kind) (level : Level) (f : Option LogFormatter) :
    setFormatterField (ofFields (typeFields k ++ levelFields level)) f =
      .ok (ofFields (typeFields k ++ levelFields level ++ formatterFields f)) :=
  setFormatterField_levelled (not_mem_typeFields (by decide) (by decide) _) _ _

theorem appenderToYamlString_eq (yaml : Yaml) (a : LogAppender) :
    appenderToYamlString yaml a = .ok (yaml.emit (ofFields (appenderFields a))) := by
  have hrest : (do
      let node ← setLevelField (ofFields (typeFields a.kind)) a.level
      let node ← setFormatterField node (ownFormatter a)
      return yaml.emit node) = .ok (yaml.emit (ofFields (appenderFields a))) := by
    rw [setLevelField_type, ok_bind, setFormatterField_type]
    rfl
  rw [appenderToYamlString]
  cases hk : a.kind with
  | stdout =>
    rw [hk] at hrest
    exact hrest
  | file filename s lastTime =>
    rw [hk] at hrest
    dsimp only
    rw [fileToYamlString, setText_null, ok_bind, setFile_eq filename s lastTime]
    exact hrest

/-- A loop that pushes the texts of some objects, read again. -/
theorem foldlM_textNode {α : Type} {yaml : Yaml} (hyaml : yaml.Lawful)
    {toYamlString : α → Except Exn Str} {toNode : α → Node}
    (hnode : ∀ i, toYamlString i = .ok (yaml.emit (toNode i))) (push : Node → Node → Except Exn Node)
    (is : List α) (node : Node) :
    is.foldlM (fun node i => do
      let value ← textNode yaml (toYamlString i)
      push node value) node = (is.map toNode).foldlM push node := by
  have htext : ∀ i, textNode yaml (toYamlString i) = .ok (toNode i) := fun i => by
    rw [textNode, hnode, ok_bind, hyaml]
  rw [List.foldlM_map]
  simp only [htext, ok_bind]

theorem not_mem_nameField {key : Str} (hkey : key ≠ nameKey) (name : Str) :
    key ∉ keysOf [(nameKey, .scalar name)] := by
  simp [keysOf, hkey]

theorem appenders_not_mem_loggerFields (l : Logger) : appendersKey ∉ keysOf (loggerFields l) := by
  rw [loggerFields, keysOf_append, keysOf_append, List.mem_append, List.mem_append, not_or, not_or]
  exact ⟨⟨not_mem_nameField (by decide) _, not_mem_levelFields (by decide) _⟩,
    not_mem_formatterFields (by decide) _⟩

theorem setLevelField_name (name : Str) (level : Level) :
    setLevelField (ofFields [(nameKey, .scalar name)]) level =
      .ok (ofFields ([(nameKey, .scalar name)] ++ levelFields level)) :=
  setLevelField_eq (not_mem_nameField (by decide) _) _

theorem setFormatterField_name (l : Logger) :
    setFormatterField (ofFields ([(nameKey, .scalar l.name)] ++ levelFields l.level)) l.formatter =
      .ok (ofFields (loggerFields l)) :=
  setFormatterField_levelled (not_mem_nameField (by decide) _) _ _

theorem pushAppenders_eq (l : Logger) (as : List LogAppender) :
    (as.map (fun a => ofFields (appenderFields a))).foldlM
      (fun node value => pushField node appendersKey value) (ofFields (loggerFields l)) =
        .ok (fieldsNode l as) :=
  pushFields_ofFields (appenders_not_mem_loggerFields l) _

theorem loggerToYamlString_eq {yaml : Yaml} (hyaml : yaml.Lawful) (w : World) (l : Logger) :
    loggerToYamlString yaml w l = .ok (yaml.emit (loggerNode w l)) := by
  rw [loggerToYamlString, setText_null, ok_bind, setLevelField_name, ok_bind,
    setFormatterField_name, ok_bind,
    foldlM_textNode hyaml (appenderToYamlString_eq yaml) (fun node => pushField node appendersKey),
    pushAppenders_eq]
  rfl

theorem toYamlString_eq {yaml : Yaml} (hyaml : yaml.Lawful) (w : World) :
    ∃ node, toYamlString yaml w = .ok (yaml.emit node) ∧
      node.elementTexts yaml = (managedLoggers w).map (fun l => yaml.emit (loggerNode w l)) := by
  refine ⟨if (managedLoggers w).map (loggerNode w) = [] then .null
    else .seq ((managedLoggers w).map (loggerNode w)), ?_, ?_⟩
  · rw [toYamlString, foldlM_textNode hyaml (loggerToYamlString_eq hyaml w), pushBack_seq]
    rfl
  · split
    · rename_i hnil
      rw [List.map_eq_nil_iff] at hnil
      rw [hnil]
      rfl
    · rw [Node.elementTexts_seq, List.map_map]
      rfl

/-! ### What is read -/

def patternOf (f : Option LogFormatter) : Str := (f.map LogFormatter.pattern).getD []

/-- The entry that describes an appender. -/
def appenderDefine (a : LogAppender) : LogAppenderDefine :=
  match a.kind with
  | .stdout => ⟨2, a.level, patternOf (ownFormatter a), []⟩
  | .file filename _ _ => ⟨1, a.level, patternOf (ownFormatter a), filename⟩

/-- The definition that describes a logger. -/
def loggerDefine (w : World) (l : Logger) : LogDefine :=
  ⟨l.name, l.level, patternOf l.formatter, (attachedTo w l).map appenderDefine⟩

/-- The conversion does not look for the level of an appender. -/
def withoutLevel (a : LogAppenderDefine) : LogAppenderDefine := { a with level := .unkonw }

theorem withoutLevel_eq_self (a : LogAppenderDefine) : withoutLevel a = a ↔ a.level = .unkonw := by
  cases a
  simp [withoutLevel, eq_comm]

/-- The entries keep their levels only where there is none to keep. -/
theorem map_withoutLevel_eq_self (as : List LogAppenderDefine) :
    as.map withoutLevel = as ↔ ∀ a ∈ as, a.level = .unkonw := by
  conv_lhs => rhs; rw [← as.map_id]
  rw [List.map_inj_left]
  exact forall₂_congr fun a _ => withoutLevel_eq_self a

section

variable {yaml : Yaml} (hstring : ∀ s, yaml.asString (.scalar s) = .ok s)

include hstring

theorem fieldText_ofFields {fields : List (Str × Node)} {key : Str} {text : Option Str}
    (h : lookup fields key = text.map .scalar) :
    fieldText yaml (ofFields fields) key = .ok text := by
  rw [fieldText, field?_ofFields, h]
  cases text with
  | none => rfl
  | some s => simp [hstring s]

omit hstring in
theorem lookup_levelFields (level : Level) :
    lookup (levelFields level) levelKey =
      (if level ≠ .unkonw then some level.toString else none).map .scalar := by
  rw [levelFields]
  split
  · exact lookup_singleton _ _
  · rfl

omit hstring in
theorem lookup_formatterFields (f : Option LogFormatter) :
    lookup (formatterFields f) formatterKey = (f.map LogFormatter.pattern).map .scalar := by
  cases f with
  | none => rfl
  | some f => exact lookup_singleton _ _

omit hstring in
theorem fromString_written (level : Level) :
    Level.fromString ((if level ≠ .unkonw then some level.toString else none).getD []) = level := by
  split
  · exact Level.fromString_toString level
  · rename_i h
    rw [not_not.mp h]
    exact Level.fromString_nil

theorem readAppender_eq (a : LogAppender) :
    readAppender yaml (ofFields (appenderFields a)) =
      .ok (some (withoutLevel (appenderDefine a))) := by
  have hformatter : fieldText yaml (ofFields (appenderFields a)) formatterKey =
      .ok ((ownFormatter a).map LogFormatter.pattern) := by
    apply fieldText_ofFields hstring
    rw [appenderFields, lookup_append, lookup_append,
      lookup_of_new (not_mem_typeFields (by decide) (by decide) _),
      lookup_of_new (not_mem_levelFields (by decide) _), lookup_formatterFields]
    rfl
  unfold readAppender appenderDefine
  rw [hformatter]
  cases hk : a.kind with
  | stdout =>
    have htype : fieldText yaml (ofFields (appenderFields a)) typeKey = .ok (some stdoutType) := by
      apply fieldText_ofFields hstring
      rw [appenderFields, hk, lookup_append, lookup_append, typeFields, lookup_singleton]
      rfl
    rw [htype]
    rfl
  | file filename s lastTime =>
    have htype : fieldText yaml (ofFields (appenderFields a)) typeKey = .ok (some fileType) := by
      apply fieldText_ofFields hstring
      rw [appenderFields, hk, lookup_append, lookup_append]
      rfl
    have hfile : fieldText yaml (ofFields (appenderFields a)) fileKey = .ok (some filename) := by
      apply fieldText_ofFields hstring
      rw [appenderFields, hk, lookup_append, lookup_append]
      rfl
    rw [htype, hfile]
    rfl

omit hstring in
/-- The fields of a logger before its appenders. -/
theorem lookup_loggerFields {key : Str} (hkey : key ≠ appendersKey) (l : Logger) (items : List Node) :
    lookup (loggerFields l ++ seqField appendersKey items) key =
      ((lookup [(nameKey, .scalar l.name)] key).or (lookup (levelFields l.level) key)).or
        (lookup (formatterFields l.formatter) key) := by
  have hseq : key ∉ keysOf (seqField appendersKey items) := by
    cases items <;> simp [keysOf, seqField, hkey]
  rw [loggerFields, lookup_append, lookup_append, lookup_append, lookup_of_new hseq, Option.or_none]

theorem readAppenders_eq (l : Logger) (as : List LogAppender) :
    readAppenders yaml (fieldsNode l as) =
      .ok (as.map (fun a => withoutLevel (appenderDefine a))) := by
  have hread : (as.map (fun a => some (ofFields (appenderFields a)))).mapM
      (fun a => readAppender yaml (a.getD .null)) =
        .ok (as.map (fun a => some (withoutLevel (appenderDefine a)))) := by
    induction as with
    | nil => rfl
    | cons a as ih =>
      rw [List.map_cons, List.mapM_cons, Option.getD_some, readAppender_eq hstring, ok_bind, ih]
      rfl
  rw [readAppenders, fieldsNode, field?_ofFields, lookup_append,
    lookup_of_new (appenders_not_mem_loggerFields l), Option.none_or, lookup_seqField, ok_bind]
  by_cases hnil : as = []
  · rw [hnil]
    rfl
  · rw [if_neg (fun h => hnil (List.map_eq_nil_iff.mp h))]
    dsimp only
    rw [Node.elements_seq, List.map_map]
    simp only [Function.comp_def, hread, ok_bind, pure_eq_ok, List.filterMap_map, id]
    rw [List.filterMap_eq_map']

theorem readLogDefine_eq (hyaml : yaml.Lawful) (l : Logger) (as : List LogAppender) :
    readLogDefine yaml (yaml.emit (fieldsNode l as)) =
      .ok ⟨l.name, l.level, patternOf l.formatter,
        as.map (fun a => withoutLevel (appenderDefine a))⟩ := by
  have hname : fieldText yaml (fieldsNode l as) nameKey = .ok (some l.name) := by
    apply fieldText_ofFields hstring
    rw [lookup_loggerFields (by decide), lookup_singleton]
    rfl
  have hlevel : fieldText yaml (fieldsNode l as) levelKey =
      .ok (if l.level ≠ .unkonw then some l.level.toString else none) := by
    apply fieldText_ofFields hstring
    rw [lookup_loggerFields (by decide), lookup_of_new (not_mem_nameField (by decide) _),
      lookup_levelFields, lookup_of_new (not_mem_formatterFields (by decide) _), Option.none_or,
      Option.or_none]
  have hformatter : fieldText yaml (fieldsNode l as) formatterKey =
      .ok (l.formatter.map LogFormatter.pattern) := by
    apply fieldText_ofFields hstring
    rw [lookup_loggerFields (by decide), lookup_of_new (not_mem_nameField (by decide) _),
      lookup_of_new (not_mem_levelFields (by decide) _), lookup_formatterFields]
    rfl
  rw [readLogDefine, hyaml, ok_bind, hname, ok_bind]
  dsimp only
  rw [hlevel, ok_bind, hformatter, ok_bind, readAppenders_eq hstring, ok_bind, fromString_written]
  rfl

/-- The definitions that the conversion finds in the text of the manager. -/
theorem readEach_toYamlString (hyaml : yaml.Lawful) (w : World) :
    ∃ t, toYamlString yaml w = .ok t ∧ readEach yaml t = .ok ((managedLoggers w).map (fun l =>
      { loggerDefine w l with appenders := (loggerDefine w l).appenders.map withoutLevel })) := by
  obtain ⟨node, hwrite, htexts⟩ := toYamlString_eq hyaml w
  refine ⟨_, hwrite, ?_⟩
  rw [readEach, hyaml, ok_bind, htexts]
  induction managedLoggers w with
  | nil => rfl
  | cons l ls ih =>
    rw [List.map_cons, List.mapM_cons, loggerNode, readLogDefine_eq hstring hyaml, ok_bind, ih]
    simp [loggerDefine, Function.comp_def]

end

end Mumu.LogDumps
