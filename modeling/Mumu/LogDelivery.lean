import Mumu.Loggers

namespace Mumu.LogDelivery

open Mumu.LogLevels Mumu.LogItems Mumu.PatternScanner Mumu.LogAppenders Mumu.Loggers
open Mumu.PointerHeap Mumu.KeyedSets

/-! ### What logging leaves alone -/

inductive Destination where
  | stdout
  | file (filename : Str)
  deriving DecidableEq

/-- An appender without the state of its stream. -/
structure AppenderConf where
  destination : Destination
  level : Level
  formatter : Option LogFormatter
  hasFormatter : Bool
  deriving DecidableEq

def destination : Kind → Destination
  | .stdout => .stdout
  | .file filename _ _ => .file filename

def conf (a : LogAppender) : AppenderConf :=
  ⟨destination a.kind, a.level, a.formatter, a.hasFormatter⟩

def confOf (w : World) (a : Ptr) : Option AppenderConf := (w.appenders.get? a).map conf

/-- Nothing but the streams and the clock differ. -/
structure SameConf (w w' : World) : Prop where
  loggers : w'.loggers = w.loggers
  managed : w'.managed = w.managed
  root : w'.root = w.root
  confs : confOf w' = confOf w

theorem SameConf.refl (w : World) : SameConf w w := ⟨rfl, rfl, rfl, rfl⟩

theorem SameConf.trans {u v w : World} (h : SameConf u v) (h' : SameConf v w) : SameConf u w :=
  ⟨h'.loggers.trans h.loggers, h'.managed.trans h.managed, h'.root.trans h.root,
    h'.confs.trans h.confs⟩

@[simp] theorem destination_refresh (ok : Bool) (now : Nat) (k : Kind) :
    destination (LogAppender.refresh ok now k) = destination k := by
  cases k with
  | stdout => rfl
  | file filename s lastTime =>
    simp only [LogAppender.refresh]
    split <;> rfl

@[simp] theorem destination_emit (ok : Bool) (k : Kind) :
    destination (LogAppender.emit ok k) = destination k := by
  cases k <;> rfl

/-! ### The appenders of one logger -/

section

variable (env : Env) (lvl : Level) (event : LogEvent)

/-- An appender that an event can be handed to. -/
def Ready (w : World) (a : Ptr) : Prop := ∃ c f, confOf w a = some c ∧ c.formatter = some f

/-- The event is written by an appender whose level lets it pass. -/
def handed (w : World) (a : Ptr) : World.Handed :=
  ⟨a, (confOf w a).bind (fun c =>
    if c.level ≤ lvl then c.formatter.map (fun f => f.format env.libc lvl event) else none)⟩

variable {env lvl event}

theorem handed_congr {w w' : World} (h : SameConf w w') (a : Ptr) :
    handed env lvl event w' a = handed env lvl event w a := by
  rw [handed, handed, h.confs]

theorem Ready.congr {w w' : World} (h : SameConf w w') {a : Ptr} (ha : Ready w a) : Ready w' a := by
  rwa [Ready, h.confs]

/-- Replacing an appender by one of the same configuration. -/
theorem sameConf_modify {w : World} {a : Ptr} {ap ap' : LogAppender}
    (hap : w.appenders.get? a = some ap) (hconf : conf ap' = conf ap) (ticks : Nat) :
    SameConf w { w with appenders := w.appenders.modify a (fun _ => ap'), ticks := ticks } := by
  refine ⟨rfl, rfl, rfl, funext fun b => ?_⟩
  change ((w.appenders.modify a (fun _ => ap')).get? b).map conf = (w.appenders.get? b).map conf
  rw [Heap.get?_modify]
  split
  · rename_i hb
    subst hb
    simp [hap, hconf]
  · rfl

variable (env lvl event)

theorem appenderLog_spec {w : World} {a : Ptr} {ap : LogAppender}
    (hap : w.appenders.get? a = some ap) :
    (ap.level ≤ lvl ∧ ap.formatter = none ∧
        w.appenderLog env a lvl event = .error .nullFormatter) ∨
      ∃ w', w.appenderLog env a lvl event = .ok (w', handed env lvl event w a) ∧
        SameConf w w' := by
  unfold World.appenderLog LogAppender.log
  rw [hap, handed, confOf, hap, Option.map_some, Option.bind_some]
  dsimp only
  by_cases hl : ap.level ≤ lvl
  · rw [if_pos hl, if_pos (show (conf ap).level ≤ lvl from hl)]
    cases hf : ap.formatter with
    | none => exact .inl ⟨hl, rfl, rfl⟩
    | some f =>
      rw [show (conf ap).formatter = some f from hf]
      exact .inr ⟨_, rfl, sameConf_modify hap (by simp [conf, hf]) _⟩
  · rw [if_neg hl, if_neg (show ¬ (conf ap).level ≤ lvl from hl)]
    exact .inr ⟨_, rfl, sameConf_modify hap rfl _⟩

theorem appenderLog_ready {w : World} {a : Ptr} (ha : Ready w a) :
    ∃ w', w.appenderLog env a lvl event = .ok (w', handed env lvl event w a) ∧ SameConf w w' := by
  obtain ⟨c, f, hc, hf⟩ := ha
  obtain ⟨ap, hap, rfl⟩ := Option.map_eq_some_iff.mp hc
  obtain h | h := appenderLog_spec env lvl event hap
  · exact absurd (h.2.1.symm.trans hf) (by simp)
  · exact h

theorem appendersLog_ready (as : List Ptr) {w : World} (has : ∀ a ∈ as, Ready w a) :
    ∃ w', World.appendersLog env lvl event as w =
        .ok (w', as.map (handed env lvl event w)) ∧ SameConf w w' := by
  induction as generalizing w with
  | nil => exact ⟨w, rfl, SameConf.refl w⟩
  | cons a as ih =>
    obtain ⟨u, hu, hsame⟩ := appenderLog_ready env lvl event (has a (by simp))
    obtain ⟨v, hv, hsame'⟩ := ih (w := u) (fun b hb => (has b (by simp [hb])).congr hsame)
    refine ⟨v, ?_, hsame.trans hsame'⟩
    rw [World.appendersLog, hu]
    simp only [hv, List.map_cons]
    rw [List.map_congr_left (fun b _ => handed_congr hsame b)]

variable {env lvl event}

/-- The calls that a returning loop over appenders has made. -/
theorem appendersLog_cons_ok {a : Ptr} {as : List Ptr} {w w' : World} {hs : List World.Handed}
    (h : World.appendersLog env lvl event (a :: as) w = .ok (w', hs)) :
    ∃ u rest, SameConf w u ∧ World.appendersLog env lvl event as u = .ok (w', rest) ∧
      hs = handed env lvl event w a :: rest := by
  rw [World.appendersLog] at h
  cases hap : w.appenders.get? a with
  | none => simp [World.appenderLog, hap] at h
  | some ap =>
    obtain ⟨_, _, he⟩ | ⟨u, hu, hsame⟩ := appenderLog_spec env lvl event hap
    · simp [he] at h
    · rw [hu] at h
      dsimp only at h
      cases hrest : World.appendersLog env lvl event as u with
      | error e => simp [hrest] at h
      | ok r =>
        simp only [hrest, Except.ok.injEq, Prod.mk.injEq] at h
        obtain ⟨rfl, rfl⟩ := h
        exact ⟨u, r.2, hsame, hrest, rfl⟩

theorem appendersLog_sameConf (as : List Ptr) {w w' : World} {hs : List World.Handed}
    (h : World.appendersLog env lvl event as w = .ok (w', hs)) : SameConf w w' := by
  induction as generalizing w hs with
  | nil =>
    cases h
    exact SameConf.refl _
  | cons a as ih =>
    obtain ⟨u, rest, hsame, hrest, -⟩ := appendersLog_cons_ok h
    exact hsame.trans (ih hrest)

theorem appendersLog_appender (as : List Ptr) {w w' : World} {hs : List World.Handed}
    (h : World.appendersLog env lvl event as w = .ok (w', hs)) :
    hs.map World.Handed.appender = as := by
  induction as generalizing w hs with
  | nil =>
    cases h
    rfl
  | cons a as ih =>
    obtain ⟨u, rest, -, hrest, rfl⟩ := appendersLog_cons_ok h
    rw [List.map_cons, ih hrest]
    rfl

/-- A call that returns has changed nothing but streams. -/
theorem log_sameConf (hops : Nat) {w w' : World} {p : Ptr} {hs : List World.Handed}
    (h : World.log env lvl event hops w p = .ok (w', hs)) : SameConf w w' := by
  induction hops generalizing p with
  | zero => cases h
  | succ hops ih =>
    rw [World.log] at h
    split at h
    · cases h
    · split at h
      · split at h
        · exact appendersLog_sameConf _ h
        · split at h
          · exact ih h
          · cases h
            exact SameConf.refl _
      · cases h
        exact SameConf.refl _

end

/-! ### Well-formed worlds -/

/-- The manager's names lead to loggers of that name, the root logger is the
one called root and has no root of its own, every other managed logger has it
as its root, and what is attached to a logger can be written to. -/
structure WellFormed (w : World) : Prop where
  bound : ∀ n p, KeyedMap.get? w.managed n = some p →
    ∃ l, w.loggers.get? p = some l ∧ l.name = n ∧
      l.root = if n = World.rootName then none else some w.root
  root_bound : KeyedMap.get? w.managed World.rootName = some w.root
  formatted : ∀ p l, w.loggers.get? p = some l → ∃ f, l.formatter = some f
  ready : ∀ p l, w.loggers.get? p = some l → ∀ a ∈ l.appenders, Ready w a

theorem WellFormed.congr {w w' : World} (h : SameConf w w') (hw : WellFormed w) :
    WellFormed w' := by
  refine ⟨?_, ?_, ?_, ?_⟩
  · rw [h.managed, h.loggers, h.root]
    exact hw.bound
  · rw [h.managed, h.root]
    exact hw.root_bound
  · rw [h.loggers]
    exact hw.formatted
  · intro p l hl a ha
    rw [h.loggers] at hl
    exact (hw.ready p l hl a ha).congr h

/-- Two names are bound to two loggers. -/
theorem WellFormed.injective {w : World} (hw : WellFormed w) {n m : Str} {p : Ptr}
    (hn : KeyedMap.get? w.managed n = some p) (hm : KeyedMap.get? w.managed m = some p) :
    n = m := by
  obtain ⟨l, hl, hname, _⟩ := hw.bound n p hn
  obtain ⟨l', hl', hname', _⟩ := hw.bound m p hm
  rw [hl, Option.some.injEq] at hl'
  rw [← hname, ← hname', hl']

theorem WellFormed.root_logger {w : World} (hw : WellFormed w) :
    ∃ r, w.loggers.get? w.root = some r ∧ r.root = none := by
  obtain ⟨r, hr, _, hroot⟩ := hw.bound _ _ hw.root_bound
  exact ⟨r, hr, by rw [hroot, if_pos rfl]⟩

/-! ### Delegation -/

/-- Who gets an event logged through the logger of a name, given the root logger. -/
def routed (lvl : Level) (name : Str) (l r : Logger) : List Ptr :=
  if l.level ≤ lvl then
    if l.appenders ≠ [] then l.appenders
    else if name ≠ World.rootName then
      if r.level ≤ lvl then r.appenders else []
    else []
  else []

variable (env : Env) (lvl : Level) (event : LogEvent)

theorem log_root {w : World} (hw : WellFormed w) {r : Logger}
    (hr : w.loggers.get? w.root = some r) (hops : Nat) :
    ∃ w', World.log env lvl event (hops + 1) w w.root =
      .ok (w', (if r.level ≤ lvl then r.appenders else []).map (handed env lvl event w)) := by
  obtain ⟨r', hr', hnone⟩ := hw.root_logger
  obtain rfl : r = r' := Option.some.inj (hr.symm.trans hr')
  rw [World.log, hr]
  dsimp only
  split
  · split
    · obtain ⟨w', hw', _⟩ := appendersLog_ready env lvl event r.appenders (hw.ready _ _ hr)
      exact ⟨w', hw'⟩
    · rename_i hnil
      rw [hnone, not_not.mp hnil]
      exact ⟨w, rfl⟩
  · exact ⟨w, rfl⟩

/-- One hop is enough: any larger allowance gives the same result. -/
theorem log_managed {w : World} (hw : WellFormed w) {n : Str} {p : Ptr} {l r : Logger}
    (hn : KeyedMap.get? w.managed n = some p) (hl : w.loggers.get? p = some l)
    (hr : w.loggers.get? w.root = some r) (hops : Nat) :
    ∃ w', World.log env lvl event (hops + 2) w p =
      .ok (w', (routed lvl n l r).map (handed env lvl event w)) := by
  obtain ⟨l', hl', _, hroot⟩ := hw.bound n p hn
  obtain rfl : l = l' := Option.some.inj (hl.symm.trans hl')
  rw [World.log, hl, routed]
  dsimp only
  by_cases hlvl : l.level ≤ lvl
  · rw [if_pos hlvl, if_pos hlvl]
    by_cases hnil : l.appenders = []
    · rw [if_neg (not_not.mpr hnil), if_neg (not_not.mpr hnil)]
      by_cases hname : n = World.rootName
      · rw [hroot, if_pos hname, if_neg (not_not.mpr hname)]
        exact ⟨w, rfl⟩
      · rw [hroot, if_neg hname, if_pos hname]
        exact log_root env lvl event hw hr hops
    · rw [if_pos hnil, if_pos hnil]
      obtain ⟨w', hw', _⟩ := appendersLog_ready env lvl event l.appenders (hw.ready _ _ hl)
      exact ⟨w', hw'⟩
  · rw [if_neg hlvl, if_neg hlvl]
    exact ⟨w, rfl⟩

theorem logLevel_managed {w : World} (hw : WellFormed w) {n : Str} {p : Ptr} {l r : Logger}
    (hn : KeyedMap.get? w.managed n = some p) (hl : w.loggers.get? p = some l)
    (hr : w.loggers.get? w.root = some r) (hops : Nat) (site : World.Site) :
    ∃ w', w.logLevel env (hops + 2) p lvl site =
      .ok (w', (routed lvl n l r).map (handed env lvl (w.eventAt env site n) w)) := by
  obtain ⟨l', hl', hname, _⟩ := hw.bound n p hn
  obtain rfl : l = l' := Option.some.inj (hl.symm.trans hl')
  have hticked : SameConf w { w with ticks := w.ticks + 1 } := ⟨rfl, rfl, rfl, rfl⟩
  rw [World.logLevel, hl]
  dsimp only
  by_cases hlvl : l.level ≤ lvl
  · rw [if_pos hlvl, hname]
    exact log_managed env lvl _ (hw.congr hticked) hn hl hr hops
  · rw [if_neg hlvl, routed, if_neg hlvl]
    exact ⟨w, rfl⟩

variable {env lvl}

theorem logLevel_sameConf {w w' : World} {hops : Nat} {p : Ptr} {site : World.Site}
    {hs : List World.Handed} (h : w.logLevel env hops p lvl site = .ok (w', hs)) :
    SameConf w w' := by
  have hticked : SameConf w { w with ticks := w.ticks + 1 } := ⟨rfl, rfl, rfl, rfl⟩
  rw [World.logLevel] at h
  split at h
  · cases h
  · split at h
    · exact hticked.trans (log_sameConf _ h)
    · cases h
      exact SameConf.refl _

end Mumu.LogDelivery
