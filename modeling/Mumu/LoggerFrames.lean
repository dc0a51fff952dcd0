import Mumu.LogDelivery
import Mumu.LogIniter

namespace Mumu.LoggerFrames

open Mumu.LogLevels Mumu.LogItems Mumu.PatternScanner Mumu.LogAppenders Mumu.Loggers
open Mumu.PointerHeap Mumu.KeyedSets Mumu.LogDelivery Mumu.LogIniter

/-! ### Every operation keeps the world well-formed -/

def Formatted (a : LogAppender) : Prop := ∃ f, a.formatter = some f

theorem ready_iff {w : World} {a : Ptr} : Ready w a ↔ w.appenders.Has Formatted a := by
  constructor
  · rintro ⟨c, f, hc, hf⟩
    obtain ⟨ap, hap, rfl⟩ := Option.map_eq_some_iff.mp hc
    exact ⟨ap, hap, f, hf⟩
  · rintro ⟨ap, hap, f, hf⟩
    exact ⟨conf ap, f, by rw [confOf, hap, Option.map_some], hf⟩

/-- An update of one logger, and of appenders in a way that keeps them usable. -/
theorem update_wellFormed {w : World} (hw : WellFormed w) (p : Ptr) (f : Logger → Logger)
    (h : Heap LogAppender) (hname : ∀ l, (f l).name = l.name) (hroot : ∀ l, (f l).root = l.root)
    (hfmt : ∀ l, (∃ x, l.formatter = some x) → ∃ x, (f l).formatter = some x)
    (hready : ∀ a, w.appenders.Has Formatted a → h.Has Formatted a)
    (hnew : ∀ l, w.loggers.get? p = some l →
      ∀ a ∈ (f l).appenders, a ∈ l.appenders ∨ h.Has Formatted a) :
    WellFormed { w with loggers := w.loggers.modify p f, appenders := h } := by
  refine ⟨?_, hw.root_bound, ?_, ?_⟩
  · intro n q hq
    obtain ⟨l, hl, hln, hlr⟩ := hw.bound n q hq
    change ∃ l', (w.loggers.modify p f).get? q = some l' ∧ _
    rw [Heap.get?_modify, hl]
    by_cases hpq : p = q
    · exact ⟨f l, by simp [hpq], (hname l).trans hln, (hroot l).trans hlr⟩
    · exact ⟨l, by simp [hpq], hln, hlr⟩
  · intro q l' hl'
    obtain ⟨l, hl, rfl⟩ := Heap.exists_of_modify hl'
    split
    · exact hfmt l (hw.formatted q l hl)
    · exact hw.formatted q l hl
  · intro q l' hl' a ha
    obtain ⟨l, hl, rfl⟩ := Heap.exists_of_modify hl'
    have hkept : ∀ a ∈ l.appenders, h.Has Formatted a := fun a ha =>
      hready a (ready_iff.mp (hw.ready q l hl a ha))
    apply ready_iff.mpr
    split at ha
    · rename_i hpq
      subst hpq
      obtain hold | hnew := hnew l hl a ha
      · exact hkept a hold
      · exact hnew
    · exact hkept a ha

theorem updateAppenders_wellFormed {w : World} (hw : WellFormed w) (h : Heap LogAppender)
    (hready : ∀ a, w.appenders.Has Formatted a → h.Has Formatted a) :
    WellFormed { w with appenders := h } :=
  ⟨hw.bound, hw.root_bound, hw.formatted, fun p l hl a ha =>
    ready_iff.mpr (hready a (ready_iff.mp (hw.ready p l hl a ha)))⟩

section

variable {w : World} (hw : WellFormed w)
include hw

theorem setLevel_wellFormed (p : Ptr) (level : Level) : WellFormed (w.setLevel p level) :=
  update_wellFormed hw p _ _ (fun _ => rfl) (fun _ => rfl) (fun _ h => h) (fun _ h => h)
    (fun _ _ _ ha => .inl ha)

theorem clearAppender_wellFormed (p : Ptr) : WellFormed (w.clearAppender p) :=
  update_wellFormed hw p _ _ (fun _ => rfl) (fun _ => rfl) (fun _ h => h) (fun _ h => h)
    (fun _ _ _ ha => absurd ha List.not_mem_nil)

theorem delAppender_wellFormed (p a : Ptr) : WellFormed (w.delAppender p a) :=
  update_wellFormed hw p _ _ (fun _ => rfl) (fun _ => rfl) (fun _ h => h) (fun _ h => h)
    (fun _ _ _ ha => .inl (List.mem_of_mem_erase ha))

theorem setFormatter_wellFormed (p : Ptr) (val : LogFormatter) :
    WellFormed (w.setFormatter p (some val)) := by
  rw [World.setFormatter]
  split
  · exact hw
  · refine update_wellFormed hw p _ _ (fun _ => rfl) (fun _ => rfl) (fun _ _ => ⟨val, rfl⟩)
      (fun _ ha => ha.modifyAll _ fun a ha => ?_) (fun _ _ _ ha => .inl ha)
    rw [World.inherit]
    split
    · exact ha
    · exact ⟨val, rfl⟩

theorem addAppender_wellFormed (p a : Ptr) : WellFormed (w.addAppender p a) := by
  rw [World.addAppender]
  split
  · rename_i l ap hl hap
    obtain ⟨f, hf⟩ := hw.formatted p l hl
    have hg : ∀ b : LogAppender,
        Formatted (if b.formatter = none then { b with formatter := l.formatter } else b) := by
      intro b
      split
      · exact ⟨f, hf⟩
      · rename_i hb
        exact Option.ne_none_iff_exists'.mp hb
    refine update_wellFormed hw p _ _ (fun _ => rfl) (fun _ => rfl) (fun _ h => h)
      (fun _ hb => hb.modify a fun b _ => hg b) (fun l' hl' b hb => ?_)
    obtain hb | hb := List.mem_append.mp hb
    · exact .inl hb
    · obtain rfl := List.mem_singleton.mp hb
      exact .inr ⟨_, by rw [Heap.get?_modify_self, hap, Option.map_some], hg ap⟩
  · exact hw

theorem newAppender_wellFormed (a : LogAppender) : WellFormed (w.newAppender a).1 :=
  updateAppenders_wellFormed hw _ fun _ hb => hb.alloc a

theorem setAppenderLevel_wellFormed (a : Ptr) (val : Level) :
    WellFormed (w.setAppenderLevel a val) :=
  updateAppenders_wellFormed hw _ fun _ hb => hb.modify a fun _ h => h

theorem setAppenderFormatter_wellFormed (a : Ptr) (val : LogFormatter) :
    WellFormed (w.setAppenderFormatter a (some val)) :=
  updateAppenders_wellFormed hw _ fun _ hb => hb.modify a fun _ _ => ⟨val, rfl⟩

/-- A new logger is well-formed before anything refers to it. -/
theorem allocLogger_wellFormed (l : Logger) (hl : ∃ f, l.formatter = some f)
    (ha : l.appenders = []) : WellFormed { w with loggers := w.loggers.alloc l } := by
  refine ⟨?_, hw.root_bound, ?_, ?_⟩
  · intro n q hq
    obtain ⟨l', hl', h⟩ := hw.bound n q hq
    exact ⟨l', Heap.get?_alloc_of_some hl', h⟩
  all_goals
    intro q l' hl'
    obtain rfl | hl' := Heap.get?_alloc_cases hl'
    · first
        | exact hl
        | simp [ha]
    · first
        | exact hw.formatted q l' hl'
        | exact hw.ready q l' hl'

omit hw in
theorem getLogger_bound (name : Str) :
    KeyedMap.get? (w.getLogger name).1.managed name = some (w.getLogger name).2 := by
  rw [World.getLogger]
  split
  · assumption
  · rename_i h
    exact (KeyedMap.get?_insert_of_new h name).trans (if_pos rfl)

theorem getLogger_wellFormed (name : Str) : WellFormed (w.getLogger name).1 := by
  rw [World.getLogger]
  split
  · exact hw
  · rename_i h
    have hne : name ≠ World.rootName := by
      rintro rfl
      rw [hw.root_bound] at h
      cases h
    have hw' := allocLogger_wellFormed hw { Logger.new name with root := some w.root }
      ⟨_, rfl⟩ rfl
    refine ⟨fun n q hq => ?_, ?_, hw'.formatted, hw'.ready⟩
    · dsimp only at hq
      rw [KeyedMap.get?_insert_of_new h] at hq
      split at hq
      · rename_i hn
        subst hn
        obtain rfl := Option.some.inj hq
        exact ⟨_, Heap.get?_alloc_fresh _ _, rfl, by rw [if_neg hne]⟩
      · exact hw'.bound n q hq
    · dsimp only
      rw [KeyedMap.get?_insert_of_new h, if_neg hne, hw.root_bound]

end

/-- The root logger as the manager's constructor leaves it, with its appender. -/
def rootLogger : Logger := { Logger.new World.rootName with appenders := [0] }

def rootAppender : LogAppender := { LogAppender.newStdout with formatter := rootLogger.formatter }

theorem initial_eq : World.initial =
    ⟨⟨[rootLogger]⟩, ⟨[rootAppender]⟩, KeyedSet.insert .empty (World.rootName, 0), 0, 0⟩ := rfl

theorem initial_logger {p : Ptr} {l : Logger} (h : World.initial.loggers.get? p = some l) :
    p = 0 ∧ l = rootLogger := by
  rw [initial_eq] at h
  change [rootLogger][p]? = some l at h
  simpa [List.getElem?_singleton, eq_comm] using h

theorem initial_managed {n : Str} {p : Ptr}
    (h : KeyedMap.get? World.initial.managed n = some p) : n = World.rootName ∧ p = 0 := by
  rw [initial_eq] at h
  have hm := KeyedMap.get?_eq_some.mp h
  obtain he | he := KeyedSet.mem_insertList hm
  · exact Prod.mk.inj he
  · exact absurd he List.not_mem_nil

theorem initial_wellFormed : WellFormed World.initial := by
  refine ⟨?_, ?_, ?_, ?_⟩
  · intro n p h
    obtain ⟨rfl, rfl⟩ := initial_managed h
    exact ⟨rootLogger, rfl, rfl, by rw [if_pos rfl]; rfl⟩
  · exact (KeyedMap.get?_insert_of_new rfl World.rootName).trans (if_pos rfl)
  · intro p l h
    obtain ⟨_, rfl⟩ := initial_logger h
    exact ⟨_, rfl⟩
  · intro p l h a ha
    obtain ⟨_, rfl⟩ := initial_logger h
    obtain rfl : a = 0 := List.mem_singleton.mp ha
    exact ready_iff.mpr ⟨rootAppender, rfl, _, rfl⟩

end Mumu.LoggerFrames
