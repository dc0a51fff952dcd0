import Mumu.LogDelivery
import Mumu.LogIniter

namespace Mumu.ReloadFrames

open Mumu.LogLevels Mumu.PatternScanner Mumu.LogAppenders Mumu.Loggers Mumu.PointerHeap
open Mumu.KeyedSets Mumu.LogDelivery Mumu.LogIniter

/-- A property of worlds that every call keeps, if the formatters given to the
setters satisfy a condition that all but the null one do. -/
structure Closed (Q : Option LogFormatter → Prop) (P : World → Prop) : Prop where
  some : ∀ f, Q (some f)
  sameConf : ∀ {v w}, SameConf v w → P v → P w
  getLogger : ∀ {w} (name : Str), P w → P (w.getLogger name).1
  newLogger : ∀ {w} (name : Str), P w → P { w with loggers := w.loggers.alloc (Logger.new name) }
  setLevel : ∀ {w} (p : Ptr) (level : Level), P w → P (w.setLevel p level)
  setFormatter : ∀ {w} (p : Ptr) {val : Option LogFormatter}, Q val → P w → P (w.setFormatter p val)
  clearAppender : ∀ {w} (p : Ptr), P w → P (w.clearAppender p)
  addAppender : ∀ {w} (p a : Ptr), P w → P (w.addAppender p a)
  delAppender : ∀ {w} (p a : Ptr), P w → P (w.delAppender p a)
  newAppender : ∀ {w} (a : LogAppender), P w → P (w.newAppender a).1
  setAppenderLevel : ∀ {w} (a : Ptr) (val : Level), P w → P (w.setAppenderLevel a val)
  setAppenderFormatter : ∀ {w} (a : Ptr) {val : Option LogFormatter}, Q val → P w →
    P (w.setAppenderFormatter a val)

namespace Closed

variable {Q : Option LogFormatter → Prop} {P : World → Prop} (hP : Closed Q P)

include hP

theorem newFileAppender (env : Env) (filename : Str) {w : World} (hw : P w) :
    P (w.newFileAppender env filename).1 :=
  hP.newAppender _ (hP.sameConf (v := w) ⟨rfl, rfl, rfl, rfl⟩ hw)

theorem setFormatterPattern (p : Ptr) (val : Str) {w : World} (hw : P w) :
    P (w.setFormatterPattern p val) := by
  rw [World.setFormatterPattern]
  split
  · exact hw
  · exact hP.setFormatter p (hP.some _) hw

theorem attach (p : Ptr) (a : LogAppenderDefine) (ap : Ptr) {w : World} (hw : P w) :
    P (attach p a w ap) := by
  rw [LogIniter.attach]
  apply hP.addAppender
  split
  · exact hP.setAppenderFormatter ap (hP.some _) (hP.setAppenderLevel ap _ hw)
  · exact hP.setAppenderLevel ap _ hw

theorem addDefined (env : Env) (p : Ptr) (a : LogAppenderDefine) {w : World} (hw : P w) :
    P (addDefined env p w a) := by
  rw [LogIniter.addDefined]
  split
  · exact hP.attach p a _ (hP.newFileAppender env a.file hw)
  · split
    · exact hP.attach p a _ (hP.newAppender _ hw)
    · exact hw

omit hP in
theorem foldl {α : Type} {step : World → α → World} (hstep : ∀ w a, P w → P (step w a))
    (as : List α) {w : World} (hw : P w) : P (as.foldl step w) := by
  induction as generalizing w with
  | nil => exact hw
  | cons a as ih => exact ih (hstep w a hw)

theorem applyDefine (env : Env) (i : LogDefine) {w : World} (hw : P w) :
    P (applyDefine env w i) := by
  rw [LogIniter.applyDefine]
  have hlevel := hP.setLevel (w.getLogger i.name).2 i.level (hP.getLogger i.name hw)
  apply foldl (fun _ a hw => hP.addDefined env _ a hw)
  apply hP.clearAppender
  split
  · exact hP.setFormatterPattern _ _ hlevel
  · exact hlevel

theorem removeDefine (i : LogDefine) {w : World} (hw : P w) : P (removeDefine w i) :=
  hP.clearAppender _ (hP.setLevel _ _ (hP.getLogger i.name hw))

theorem reload (env : Env) (oldValue newValue : LogDefines) {w : World} (hw : P w) :
    P (reload env oldValue newValue w) := by
  rw [LogIniter.reload]
  apply foldl
  · intro w i hw
    rw [removeOld]
    split
    · exact hP.removeDefine i hw
    · exact hw
  · apply foldl _ _ hw
    intro w i hw
    rw [applyNew]
    split
    · exact hP.applyDefine env i hw
    · split
      · exact hw
      · exact hP.applyDefine env i hw

end Closed

end Mumu.ReloadFrames
