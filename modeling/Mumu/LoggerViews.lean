import Mumu.LogIniter
import Mumu.LogDelivery
import Mumu.LoggerFrames

namespace Mumu.LoggerViews

open Mumu.LogLevels Mumu.LogItems Mumu.PatternScanner Mumu.LogAppenders Mumu.Loggers
open Mumu.PointerHeap Mumu.KeyedSets Mumu.LogDelivery Mumu.LogIniter Mumu.LoggerFrames

/-! ### The configuration of one logger -/

/-- What a reload of the configuration is about: a logger without its streams
and its place in memory. -/
structure LoggerConf where
  level : Level
  formatter : Option LogFormatter
  appenders : List (Option AppenderConf)
  deriving DecidableEq

/-- A pattern that the configuration gives and the formatter takes. -/
def Accepted (pattern : Str) : Prop :=
  pattern ≠ [] ∧ (LogFormatter.new pattern).isError = false

instance (pattern : Str) : Decidable (Accepted pattern) :=
  inferInstanceAs (Decidable (_ ∧ _))

def formatterAfter (d : LogDefine) (f : Option LogFormatter) : Option LogFormatter :=
  if Accepted d.formatter then some (.new d.formatter) else f

def destinationOf (a : LogAppenderDefine) : Option Destination :=
  if a.type = 1 then some (.file a.file)
  else if a.type = 2 then some .stdout
  else none

/-- The appender that an entry asks for, under the formatter of its logger. -/
def entryConf (f : Option LogFormatter) (a : LogAppenderDefine) : Option AppenderConf :=
  (destinationOf a).map fun d =>
    if Accepted a.formatter then ⟨d, a.level, some (.new a.formatter), true⟩
    else ⟨d, a.level, f, false⟩

def entryConfs (f : Option LogFormatter) (as : List LogAppenderDefine) : List AppenderConf :=
  as.filterMap (entryConf f)

def defined (d : LogDefine) (f : Option LogFormatter) : LoggerConf :=
  ⟨d.level, f, (entryConfs f d.appenders).map some⟩

def removed (f : Option LogFormatter) : LoggerConf := ⟨.unkonw, f, []⟩

/-- The effect of a reload on one name, given its old and its new definition. -/
def reloaded (old new : Option LogDefine) (c : LoggerConf) : LoggerConf :=
  match old, new with
  | old, some d => if old = some d then c else defined d (formatterAfter d c.formatter)
  | some _, none => removed c.formatter
  | none, none => c

theorem reloaded_self (o : Option LogDefine) (c : LoggerConf) : reloaded o o c = c := by
  cases o <;> simp [reloaded]

theorem formatterAfter_idem (d : LogDefine) (f : Option LogFormatter) :
    formatterAfter d (formatterAfter d f) = formatterAfter d f := by
  unfold formatterAfter
  split <;> rfl

/-! ### The view of a name -/

def loggerConf (w : World) (l : Logger) : LoggerConf :=
  ⟨l.level, l.formatter, l.appenders.map (confOf w)⟩

/-- A name that is not managed shows the logger that asking for it would make. -/
def view (w : World) (n : Str) : LoggerConf :=
  match (KeyedMap.get? w.managed n).bind w.loggers.get? with
  | some l => loggerConf w l
  | none => loggerConf w (Logger.new n)

theorem view_eq {w : World} {n : Str} {p : Ptr} {l : Logger}
    (hn : KeyedMap.get? w.managed n = some p) (hl : w.loggers.get? p = some l) :
    view w n = loggerConf w l := by
  rw [view, hn, Option.bind_some, hl]

theorem view_unmanaged {w : World} {n : Str} (hn : KeyedMap.get? w.managed n = none) :
    view w n = ⟨.debug, some (.new defaultPattern), []⟩ := by
  rw [view, hn]
  rfl

/-- All loggers but those of some names are left as they are, down to the
appenders they hold. -/
structure Spares (N : Str → Prop) (w w' : World) : Prop where
  managed : ∀ m, ¬ N m → KeyedMap.get? w'.managed m = KeyedMap.get? w.managed m
  loggers : ∀ m p l, ¬ N m → KeyedMap.get? w.managed m = some p → w.loggers.get? p = some l →
    w'.loggers.get? p = some l ∧ ∀ a ∈ l.appenders, confOf w' a = confOf w a

section

variable {N : Str → Prop} {u v w : World}

theorem Spares.of_sameConf (h : SameConf u v) : Spares N u v :=
  ⟨fun m _ => by rw [h.managed], fun m p l _ _ hl =>
    ⟨by rwa [h.loggers], fun a _ => by rw [h.confs]⟩⟩

theorem Spares.trans (h : Spares N u v) (h' : Spares N v w) : Spares N u w := by
  refine ⟨fun m hm => (h'.managed m hm).trans (h.managed m hm), fun m p l hm hp hl => ?_⟩
  obtain ⟨hl', hc⟩ := h.loggers m p l hm hp hl
  obtain ⟨hl'', hc'⟩ := h'.loggers m p l hm ((h.managed m hm).trans hp) hl'
  exact ⟨hl'', fun a ha => (hc' a ha).trans (hc a ha)⟩

theorem Spares.mono {M : Str → Prop} (h : Spares N u v) (hM : ∀ m, N m → M m) : Spares M u v :=
  ⟨fun m hm => h.managed m fun hn => hm (hM m hn), fun m p l hm =>
    h.loggers m p l fun hn => hm (hM m hn)⟩

theorem Spares.view_eq (h : Spares N u v) (hu : WellFormed u) {m : Str} (hm : ¬ N m) :
    view v m = view u m := by
  cases hp : KeyedMap.get? u.managed m with
  | none => rw [view_unmanaged hp, view_unmanaged ((h.managed m hm).trans hp)]
  | some p =>
    obtain ⟨l, hl, _⟩ := hu.bound m p hp
    obtain ⟨hl', hc⟩ := h.loggers m p l hm hp hl
    rw [LoggerViews.view_eq hp hl, LoggerViews.view_eq ((h.managed m hm).trans hp) hl',
      loggerConf, loggerConf, List.map_congr_left hc]

end

theorem view_sameConf {u v : World} (h : SameConf u v) (n : Str) : view v n = view u n := by
  have hconf : ∀ l, loggerConf v l = loggerConf u l := fun l => by
    rw [loggerConf, loggerConf, h.confs]
  unfold view
  rw [h.managed, h.loggers]
  simp only [hconf]

/-! ### No appender is shared -/

structure Separate (w : World) : Prop where
  nodup : ∀ p l, w.loggers.get? p = some l → l.appenders.Nodup
  disjoint : ∀ p q l m a, w.loggers.get? p = some l → w.loggers.get? q = some m →
    a ∈ l.appenders → a ∈ m.appenders → p = q

theorem Separate.congr {u v : World} (h : SameConf u v) (hu : Separate u) : Separate v := by
  refine ⟨?_, ?_⟩
  · rw [h.loggers]
    exact hu.nodup
  · rw [h.loggers]
    exact hu.disjoint

/-- What is attached was allocated before. -/
theorem attached_lt {w : World} (hw : WellFormed w) {p : Ptr} {l : Logger}
    (hl : w.loggers.get? p = some l) {a : Ptr} (ha : a ∈ l.appenders) : a < w.appenders.fresh := by
  obtain ⟨ap, hap, _⟩ := ready_iff.mp (hw.ready p l hl a ha)
  exact Heap.lt_fresh hap

/-- An update that gives one logger no appender of another. -/
theorem Separate.update {w : World} (hs : Separate w) (p : Ptr) (f : Logger → Logger)
    (h : Heap LogAppender) (ticks : Nat)
    (hnodup : ∀ l, w.loggers.get? p = some l → (f l).appenders.Nodup)
    (hnew : ∀ l, w.loggers.get? p = some l → ∀ a ∈ (f l).appenders, a ∈ l.appenders ∨
      ∀ q m, w.loggers.get? q = some m → a ∉ m.appenders) :
    Separate { w with loggers := w.loggers.modify p f, appenders := h, ticks := ticks } := by
  have own : ∀ q l m a, q ≠ p → w.loggers.get? p = some l → w.loggers.get? q = some m →
      a ∈ (f l).appenders → a ∉ m.appenders := by
    intro q l m a hq hl hm ha ham
    obtain hold | hfree := hnew l hl a ha
    · exact hq (hs.disjoint q p m l a hm hl ham hold)
    · exact hfree q m hm ham
  refine ⟨fun q m' hm' => ?_, fun q r l' m' a hl' hm' hal ham => ?_⟩
  · obtain ⟨m, hm, rfl⟩ := Heap.exists_of_modify hm'
    split
    · rename_i hpq
      exact hnodup m (hpq ▸ hm)
    · exact hs.nodup q m hm
  · obtain ⟨l, hl, rfl⟩ := Heap.exists_of_modify hl'
    obtain ⟨m, hm, rfl⟩ := Heap.exists_of_modify hm'
    by_cases hq : p = q <;> by_cases hr : p = r
    · exact hq.symm.trans hr
    · subst hq
      rw [if_pos rfl] at hal
      rw [if_neg hr] at ham
      exact absurd ham (own r l m a (Ne.symm hr) hl hm hal)
    · subst hr
      rw [if_neg hq] at hal
      rw [if_pos rfl] at ham
      exact absurd hal (own q m l a (Ne.symm hq) hm hl ham)
    · rw [if_neg hq] at hal
      rw [if_neg hr] at ham
      exact hs.disjoint q r l m a hl hm hal ham

/-- An update of the logger of one name spares the others, if their appenders
keep their configuration. -/
theorem spares_update {w : World} (hw : WellFormed w) {n : Str} {p : Ptr}
    (hn : KeyedMap.get? w.managed n = some p) (f : Logger → Logger) (h : Heap LogAppender)
    (ticks : Nat)
    (hh : ∀ q l a, q ≠ p → w.loggers.get? q = some l → a ∈ l.appenders →
      (h.get? a).map conf = confOf w a) :
    Spares (fun m => m = n) w
      { w with loggers := w.loggers.modify p f, appenders := h, ticks := ticks } := by
  refine ⟨fun _ _ => rfl, fun m q l hm hq hl => ?_⟩
  have hne : q ≠ p := fun hqp => hm (hw.injective hq (hqp ▸ hn))
  exact ⟨(Heap.get?_modify_of_ne f hne.symm).trans hl, fun a ha => hh q l a hne hl ha⟩

end Mumu.LoggerViews
