import Mumu.LogDumps
import Mumu.YamlBlocks

namespace Mumu.LogDefineTexts

open Mumu.LogLevels Mumu.PatternScanner Mumu.LogAppenders Mumu.Loggers Mumu.LogIniter
open Mumu.YamlNodes Mumu.YamlFields Mumu.LogDefineCasts Mumu.LogDumps

/-! ### Writing a definition -/

def setFormatterText (node : Node) (formatter : Str) : Except Exn Node :=
  if formatter ≠ [] then setText node formatterKey formatter else .ok node

/-- The type of an entry; the file belongs to the first type only. -/
def setType (na : Node) (a : LogAppenderDefine) : Except Exn Node :=
  if a.type = 1 then do
    let na ← setText na typeKey fileType
    setText na fileKey a.file
  else if a.type = 2 then setText na typeKey stdoutType
  else .ok na

def writeAppender (a : LogAppenderDefine) : Except Exn Node := do
  let na ← setType .null a
  let na ← setLevelField na a.level
  setFormatterText na a.formatter

def writeLogDefine (yaml : Yaml) (i : LogDefine) : Except Exn Str := do
  let n ← setText .null nameKey i.name
  let n ← setLevelField n i.level
  let n ← setFormatterText n i.formatter
  let n ← i.appenders.foldlM (fun n a => do
    let na ← writeAppender a
    pushField n appendersKey na) n
  return yaml.emit n

/-! ### What a definition describes -/

/-- An entry for a file, or one for the standard output, which has no file. -/
def Typed (a : LogAppenderDefine) : Prop := a.type = 1 ∨ (a.type = 2 ∧ a.file = [])

instance (a : LogAppenderDefine) : Decidable (Typed a) :=
  inferInstanceAs (Decidable (_ ∨ _))

def formatterOf (formatter : Str) : Option LogFormatter :=
  if formatter ≠ [] then some (.new formatter) else none

/-- An appender as an entry describes it. -/
def appenderOf (a : LogAppenderDefine) : LogAppender :=
  ⟨if a.type = 1 then .file a.file .closed 0 else .stdout, a.level, formatterOf a.formatter, true⟩

/-- A logger as a definition describes it, but for its appenders. -/
def loggerOf (i : LogDefine) : Logger :=
  { Logger.new i.name with level := i.level, formatter := formatterOf i.formatter }

theorem patternOf_formatterOf (formatter : Str) : patternOf (formatterOf formatter) = formatter := by
  rw [formatterOf]
  split
  · rfl
  · rename_i h
    rw [not_not.mp h]
    rfl

theorem appenderDefine_appenderOf {a : LogAppenderDefine} (ha : Typed a) :
    appenderDefine (appenderOf a) = a := by
  obtain ⟨type, level, formatter, file⟩ := a
  obtain rfl | ⟨rfl, rfl⟩ := ha <;>
    simp [appenderDefine, appenderOf, ownFormatter, patternOf_formatterOf]

theorem setFormatterText_eq (node : Node) (formatter : Str) :
    setFormatterText node formatter = setFormatterField node (formatterOf formatter) := by
  rw [setFormatterText, formatterOf]
  split <;> rfl

theorem writeAppender_eq {a : LogAppenderDefine} (ha : Typed a) :
    writeAppender a = .ok (ofFields (appenderFields (appenderOf a))) := by
  have htype : setType .null a = .ok (ofFields (typeFields (appenderOf a).kind)) := by
    obtain h | ⟨h, -⟩ := ha
    · simp only [setType, appenderOf, h, if_true, setText_null, ok_bind]
      exact setFile_eq a.file .closed 0
    · simp only [setType, appenderOf, h]
      rfl
  rw [writeAppender, htype, ok_bind, setLevelField_type, ok_bind, setFormatterText_eq]
  exact setFormatterField_type _ _ _

theorem writeLogDefine_eq (yaml : Yaml) {i : LogDefine} (hi : ∀ a ∈ i.appenders, Typed a) :
    writeLogDefine yaml i =
      .ok (yaml.emit (fieldsNode (loggerOf i) (i.appenders.map appenderOf))) := by
  have hpush : ∀ (as : List LogAppenderDefine) (n : Node), (∀ a ∈ as, Typed a) →
      as.foldlM (fun n a => do
        let na ← writeAppender a
        pushField n appendersKey na) n =
          ((as.map appenderOf).map (fun a => ofFields (appenderFields a))).foldlM
            (fun node value => pushField node appendersKey value) n := by
    intro as
    induction as with
    | nil => exact fun _ _ => rfl
    | cons a as ih =>
      intro n has
      rw [List.foldlM_cons, writeAppender_eq (has a (by simp)), ok_bind]
      apply bind_congr
      exact fun n' => ih n' fun b hb => has b (by simp [hb])
  have hformatter : setFormatterText (ofFields ([(nameKey, .scalar i.name)] ++ levelFields i.level))
      i.formatter = .ok (ofFields (loggerFields (loggerOf i))) := by
    rw [setFormatterText_eq]
    exact setFormatterField_name (loggerOf i)
  rw [writeLogDefine, setText_null, ok_bind, setLevelField_name, ok_bind, hformatter, ok_bind,
    hpush i.appenders _ hi, pushAppenders_eq]
  rfl

/-! ### Round trips -/

/-- The text of a definition is read as that definition. -/
def RoundTrips (yaml : Yaml) (d : LogDefine) : Prop :=
  ∃ t, writeLogDefine yaml d = .ok t ∧ readLogDefine yaml t = .ok d

/-- What comes back is the definition without the levels of its appenders. -/
theorem readLogDefine_write {yaml : Yaml} (hyaml : yaml.Lawful)
    (hstring : ∀ s, yaml.asString (.scalar s) = .ok s) {d : LogDefine}
    (hd : ∀ a ∈ d.appenders, Typed a) :
    ∃ t, writeLogDefine yaml d = .ok t ∧
      readLogDefine yaml t = .ok { d with appenders := d.appenders.map withoutLevel } := by
  refine ⟨_, writeLogDefine_eq yaml hd, ?_⟩
  have happenders : (d.appenders.map appenderOf).map (fun a => withoutLevel (appenderDefine a)) =
      d.appenders.map withoutLevel := by
    rw [List.map_map]
    apply List.map_congr_left
    intro a ha
    rw [Function.comp_apply, appenderDefine_appenderOf (hd a ha)]
  rw [readLogDefine_eq hstring hyaml, happenders]
  simp [loggerOf, Logger.new, patternOf_formatterOf]

theorem roundTrips_iff_withoutLevel {yaml : Yaml} (hyaml : yaml.Lawful)
    (hstring : ∀ s, yaml.asString (.scalar s) = .ok s) {d : LogDefine}
    (hd : ∀ a ∈ d.appenders, Typed a) :
    RoundTrips yaml d ↔ d.appenders.map withoutLevel = d.appenders := by
  obtain ⟨t, hwrite, hread⟩ := readLogDefine_write hyaml hstring hd
  have hsame : { d with appenders := d.appenders.map withoutLevel } = d ↔
      d.appenders.map withoutLevel = d.appenders := by
    rw [LogDefine.mk.injEq]
    simp
  rw [← hsame]
  constructor
  · rintro ⟨t', hwrite', hread'⟩
    rw [hwrite, Except.ok.injEq] at hwrite'
    rw [← hwrite', hread, Except.ok.injEq] at hread'
    exact hread'
  · intro h
    rw [h] at hread
    exact ⟨t, hwrite, hread⟩

/-- A definition survives the codec exactly when its appenders have no levels:
the levels are written, but not read. -/
theorem logDefine_roundTrips_iff (yaml : Yaml) (hyaml : yaml.Lawful)
    (hstring : ∀ s, yaml.asString (.scalar s) = .ok s) (d : LogDefine)
    (hd : ∀ a ∈ d.appenders, Typed a) :
    RoundTrips yaml d ↔ ∀ a ∈ d.appenders, a.level = .unkonw := by
  rw [roundTrips_iff_withoutLevel hyaml hstring hd]
  exact map_withoutLevel_eq_self d.appenders

/-- A logger with a file and the standard output. -/
def twoAppenders (level : Level) : LogDefine :=
  ⟨"system".toList, .info, "%m%n".toList,
    [⟨1, .unkonw, "%d%n".toList, "system.txt".toList⟩, ⟨2, level, [], []⟩]⟩

theorem twoAppenders_roundTrips : RoundTrips YamlBlocks.yaml (twoAppenders .unkonw) :=
  (logDefine_roundTrips_iff YamlBlocks.yaml YamlBlocks.yaml_lawful (fun _ => rfl)
    (twoAppenders .unkonw) (by decide)).mpr (by decide)

theorem appender_level_lost : (∀ a ∈ (twoAppenders .debug).appenders, Typed a) ∧
    ¬ RoundTrips YamlBlocks.yaml (twoAppenders .debug) := by
  have htyped : ∀ a ∈ (twoAppenders .debug).appenders, Typed a := by decide
  refine ⟨htyped, ?_⟩
  rw [roundTrips_iff_withoutLevel YamlBlocks.yaml_lawful (fun _ => rfl) htyped]
  decide

end Mumu.LogDefineTexts
