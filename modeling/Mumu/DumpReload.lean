import Mumu.ConfigHistory
import Mumu.LogDumps
import Mumu.YamlBlocks

namespace Mumu.DumpReload

open Mumu.LogLevels Mumu.PatternScanner Mumu.LogAppenders Mumu.Loggers Mumu.PointerHeap
open Mumu.KeyedSets Mumu.Executions Mumu.LogDelivery Mumu.LogIniter Mumu.LoggerFrames
open Mumu.ReloadFrames Mumu.EventRouting Mumu.LoggerViews Mumu.ConfigReload Mumu.ConfigHistory
open Mumu.YamlNodes Mumu.LogDefineCasts Mumu.LogDumps

/-! ### Managed loggers and attached appenders exist -/

def Live (w : World) (a : Ptr) : Prop := w.appenders.Has (fun _ => True) a

theorem live_iff {w : World} {a : Ptr} : Live w a ↔ ∃ ap, w.appenders.get? a = some ap := by
  simp [Live, Heap.Has]

structure Linked (w : World) : Prop where
  bound : ∀ n p, KeyedMap.get? w.managed n = some p → ∃ l, w.loggers.get? p = some l ∧ l.name = n
  attached : ∀ p l, w.loggers.get? p = some l → ∀ a ∈ l.appenders, Live w a

/-- An update of one logger, and of appenders in a way that loses none. -/
theorem update_linked {w : World} (hw : Linked w) (p : Ptr) (f : Logger → Logger)
    (h : Heap LogAppender) (hname : ∀ l, (f l).name = l.name)
    (hlive : ∀ a, Live w a → h.Has (fun _ => True) a)
    (hnew : ∀ l, w.loggers.get? p = some l →
      ∀ a ∈ (f l).appenders, a ∈ l.appenders ∨ h.Has (fun _ => True) a) :
    Linked { w with loggers := w.loggers.modify p f, appenders := h } := by
  refine ⟨fun n q hq => ?_, fun q l' hl' a ha => ?_⟩
  · obtain ⟨l, hl, hln⟩ := hw.bound n q hq
    change (w.loggers.modify p f).Has (fun l => l.name = n) q
    exact Heap.Has.modify ⟨l, hl, hln⟩ p fun l hln => (hname l).trans hln
  · obtain ⟨l, hl, rfl⟩ := Heap.exists_of_modify hl'
    split at ha
    · rename_i hpq
      subst hpq
      obtain hold | hnew := hnew l hl a ha
      · exact hlive a (hw.attached p l hl a hold)
      · exact hnew
    · exact hlive a (hw.attached q l hl a ha)

theorem updateAppenders_linked {w : World} (hw : Linked w) (h : Heap LogAppender)
    (hlive : ∀ a, Live w a → h.Has (fun _ => True) a) : Linked { w with appenders := h } :=
  ⟨hw.bound, fun p l hl a ha => hlive a (hw.attached p l hl a ha)⟩

theorem allocLogger_linked {w : World} (hw : Linked w) (l : Logger) (hl : l.appenders = []) :
    Linked { w with loggers := w.loggers.alloc l } := by
  refine ⟨fun n q hq => ?_, fun q l' hl' a ha => ?_⟩
  · obtain ⟨l', hl', hname⟩ := hw.bound n q hq
    exact ⟨l', Heap.get?_alloc_of_some hl', hname⟩
  · obtain rfl | hl' := Heap.get?_alloc_cases hl'
    · rw [hl] at ha
      exact absurd ha List.not_mem_nil
    · exact hw.attached q l' hl' a ha

theorem getLogger_linked {w : World} (hw : Linked w) (name : Str) : Linked (w.getLogger name).1 := by
  rw [World.getLogger]
  split
  · exact hw
  · rename_i hnew
    have hw' := allocLogger_linked hw { Logger.new name with root := some w.root } rfl
    refine ⟨fun n q hq => ?_, hw'.attached⟩
    dsimp only at hq
    rw [KeyedMap.get?_insert_of_new hnew] at hq
    split at hq
    · obtain rfl := Option.some.inj hq
      exact ⟨_, Heap.get?_alloc_fresh _ _, by assumption⟩
    · exact hw'.bound n q hq

theorem linked_closed : Closed (fun _ => True) Linked where
  some _ := trivial
  sameConf := by
    intro v w h hv
    refine ⟨?_, fun p l hl a ha => ?_⟩
    · rw [h.managed, h.loggers]
      exact hv.bound
    · rw [h.loggers] at hl
      obtain ⟨ap, hap⟩ := live_iff.mp (hv.attached p l hl a ha)
      have hconf : confOf w a = some (conf ap) := by rw [h.confs, confOf, hap, Option.map_some]
      obtain ⟨ap', hap', _⟩ := Option.map_eq_some_iff.mp hconf
      exact live_iff.mpr ⟨ap', hap'⟩
  getLogger name hw := getLogger_linked hw name
  newLogger name hw := allocLogger_linked hw (Logger.new name) rfl
  setLevel p level hw :=
    update_linked hw p _ _ (fun _ => rfl) (fun _ h => h) (fun _ _ _ ha => .inl ha)
  setFormatter := by
    intro w p val _ hw
    rw [World.setFormatter]
    split
    · exact hw
    · exact update_linked hw p _ _ (fun _ => rfl)
        (fun _ ha => ha.modifyAll _ fun _ _ => trivial) (fun _ _ _ ha => .inl ha)
  clearAppender p hw :=
    update_linked hw p _ _ (fun _ => rfl) (fun _ h => h) (fun _ _ _ ha => absurd ha List.not_mem_nil)
  addAppender := by
    intro w p a hw
    rw [World.addAppender]
    split
    · rename_i l ap hl hap
      refine update_linked hw p _ _ (fun _ => rfl) (fun _ hb => hb.modify a fun _ _ => trivial)
        fun l' _ b hb => ?_
      obtain hb | hb := List.mem_append.mp hb
      · exact .inl hb
      · obtain rfl := List.mem_singleton.mp hb
        exact .inr (Heap.Has.modify ⟨ap, hap, trivial⟩ b fun _ _ => trivial)
    · exact hw
  delAppender p a hw :=
    update_linked hw p _ _ (fun _ => rfl) (fun _ h => h)
      (fun _ _ _ ha => .inl (List.mem_of_mem_erase ha))
  newAppender a hw := updateAppenders_linked hw _ fun _ hb => hb.alloc a
  setAppenderLevel a val hw :=
    updateAppenders_linked hw _ fun _ hb => hb.modify a fun _ _ => trivial
  setAppenderFormatter a val _ hw :=
    updateAppenders_linked hw _ fun _ hb => hb.modify a fun _ _ => trivial

theorem initial_linked : Linked World.initial := by
  refine ⟨fun n p h => ?_, fun p l h a ha => ?_⟩
  · obtain ⟨l, hl, hname, _⟩ := initial_wellFormed.bound n p h
    exact ⟨l, hl, hname⟩
  · obtain ⟨ap, hap, _⟩ := ready_iff.mp (initial_wellFormed.ready p l h a ha)
    exact ⟨ap, hap, trivial⟩

theorem run_linked {env : Env} (ops : List Op) {sys : System}
    (h : exec (step env) (System.initial env) ops = .ok sys) : Linked sys.world := by
  apply run_kept linked_closed _ initial_linked h
  intro op _
  cases op <;> trivial

/-! ### The dump of a world -/

theorem mem_managedLoggers {w : World} {l : Logger} :
    l ∈ managedLoggers w ↔
      ∃ n p, KeyedMap.get? w.managed n = some p ∧ w.loggers.get? p = some l := by
  simp only [managedLoggers, List.mem_filterMap, KeyedMap.get?_eq_some, KeyedSet.mem_def]
  constructor
  · rintro ⟨⟨n, p⟩, hnp, hl⟩
    exact ⟨n, p, hnp, hl⟩
  · rintro ⟨n, p, hnp, hl⟩
    exact ⟨(n, p), hnp, hl⟩

/-- The definitions of the managed loggers are in the order of their names. -/
theorem defines_sorted {w : World} (hw : Linked w) :
    ((managedLoggers w).map (loggerDefine w)).Pairwise (fun d e => d.name < e.name) := by
  rw [List.pairwise_map, managedLoggers, List.pairwise_filterMap]
  refine w.managed.sorted.imp_of_mem fun {i j} hi hj hij l hl m hm => ?_
  have hname : ∀ i ∈ w.managed.toList, ∀ l, w.loggers.get? i.2 = some l → l.name = i.1 := by
    intro i hi l hl
    obtain ⟨l', hl', hname⟩ := hw.bound i.1 i.2 (KeyedMap.get?_eq_some.mpr hi)
    rw [hl, Option.some.injEq] at hl'
    rw [hl', hname]
  change l.name < m.name
  rw [hname i hi l hl, hname j hj m hm]
  exact hij

/-- Where an appender writes to, and from which level on. -/
def target (c : AppenderConf) : Destination × Level := (c.destination, c.level)

/-- Applied to a new manager, the definitions give the loggers of a world their
levels and the destinations of their appenders. -/
def Reproduces (env : Env) (ds : LogDefines) (w : World) : Prop :=
  ∃ sys, (System.initial env).setLogDefines ds = .ok sys ∧
    ∀ n p l, KeyedMap.get? w.managed n = some p → w.loggers.get? p = some l →
      (view sys.world n).level = l.level ∧
      (view sys.world n).appenders.map (Option.map target) =
        l.appenders.map (fun a => (confOf w a).map target)

/-- The text of the manager holds the definition of each of its loggers, and
brings them back. -/
def DumpReloads (yaml : Yaml) (env : Env) (w : World) : Prop :=
  ∃ t ds, toYamlString yaml w = .ok t ∧
    readEach yaml t = .ok ((managedLoggers w).map (loggerDefine w)) ∧
    readLogDefines yaml t = .ok ds ∧ Reproduces env ds w

/-- No appender of a managed logger has a level of its own. -/
def Unlevelled (w : World) : Prop :=
  ∀ n p l a c, KeyedMap.get? w.managed n = some p → w.loggers.get? p = some l →
    a ∈ l.appenders → confOf w a = some c → c.level = .unkonw

theorem entryConf_appenderDefine (f : Option LogFormatter) (a : LogAppender) :
    ∃ c, entryConf f (appenderDefine a) = some c ∧ target c = target (conf a) := by
  have hentry : ∀ (b : LogAppenderDefine) (d : Destination), destinationOf b = some d →
      ∃ c, entryConf f b = some c ∧ target c = (d, b.level) := by
    intro b d hd
    rw [entryConf, hd, Option.map_some]
    split <;> exact ⟨_, rfl, rfl⟩
  unfold appenderDefine target conf destination
  cases a.kind with
  | stdout => exact hentry _ .stdout rfl
  | file filename s lastTime => exact hentry _ (.file filename) rfl

theorem targets_defined {w : World} (hw : Linked w) {p : Ptr} {l : Logger}
    (hl : w.loggers.get? p = some l) (f : Option LogFormatter) :
    (defined (loggerDefine w l) f).appenders.map (Option.map target) =
      l.appenders.map (fun a => (confOf w a).map target) := by
  have hlive := hw.attached p l hl
  simp only [defined, loggerDefine, entryConfs, attachedTo]
  generalize l.appenders = as at hlive
  induction as with
  | nil => rfl
  | cons a as ih =>
    obtain ⟨ap, hap⟩ := live_iff.mp (hlive a (by simp))
    obtain ⟨c, hc, htarget⟩ := entryConf_appenderDefine f ap
    rw [List.filterMap_cons, hap, List.map_cons, List.map_cons, ← ih fun b hb => hlive b (by simp [hb])]
    simp [hc, htarget, confOf, hap]

/-- The definitions of all loggers, collected into a set. -/
theorem reproduces (env : Env) {w : World} (hw : Linked w) :
    Reproduces env (((managedLoggers w).map (loggerDefine w)).foldl KeyedSet.insert .empty) w := by
  let ds : LogDefines := ⟨_, defines_sorted hw⟩
  have hcollect : ((managedLoggers w).map (loggerDefine w)).foldl KeyedSet.insert .empty = ds :=
    ds.foldl_insert
  rw [hcollect]
  obtain ⟨sys, hsys, hagrees⟩ := setLogDefines_agrees [] (System.initial env) ds (initial_agrees env)
  refine ⟨sys, hsys, fun n p l hn hl => ?_⟩
  have hfind : (current [ds]).find? n = some (loggerDefine w l) := by
    obtain ⟨l', hl', hname⟩ := hw.bound n p hn
    rw [hl, Option.some.injEq] at hl'
    refine KeyedSet.find?_eq_some.mpr ⟨?_, hl'.symm ▸ hname⟩
    exact List.mem_map_of_mem (mem_managedLoggers.mpr ⟨n, p, hn, hl⟩)
  have hview := hagrees.view n
  rw [List.nil_append, settled, hfind] at hview
  rw [hview]
  exact ⟨rfl, targets_defined hw hl _⟩

theorem appenderDefine_level (a : LogAppender) : (appenderDefine a).level = a.level := by
  rw [appenderDefine]
  cases a.kind <;> rfl

/-- The entries keep the levels only where there is none to keep. -/
theorem unlevelled_iff (w : World) : Unlevelled w ↔
    (managedLoggers w).map (fun l =>
      { loggerDefine w l with appenders := (loggerDefine w l).appenders.map withoutLevel }) =
        (managedLoggers w).map (loggerDefine w) := by
  have hone : ∀ l, { loggerDefine w l with
      appenders := (loggerDefine w l).appenders.map withoutLevel } = loggerDefine w l ↔
        ∀ a ∈ attachedTo w l, a.level = .unkonw := by
    intro l
    rw [loggerDefine, LogDefine.mk.injEq]
    simp [map_withoutLevel_eq_self, -List.map_map, appenderDefine_level]
  rw [List.map_inj_left]
  simp only [hone]
  constructor
  · intro h l hl ap hap
    obtain ⟨n, p, hn, hp⟩ := mem_managedLoggers.mp hl
    obtain ⟨a, ha, hap⟩ := List.mem_filterMap.mp hap
    exact h n p l a (conf ap) hn hp ha (by rw [confOf, hap, Option.map_some])
  · intro h n p l a c hn hp ha hc
    obtain ⟨ap, hap, rfl⟩ := Option.map_eq_some_iff.mp hc
    exact h l (mem_managedLoggers.mpr ⟨n, p, hn, hp⟩) ap (List.mem_filterMap.mpr ⟨a, ha, hap⟩)

theorem linked_dumpReloads_iff {yaml : Yaml} (hyaml : yaml.Lawful)
    (hstring : ∀ s, yaml.asString (.scalar s) = .ok s) (env : Env) {w : World} (hw : Linked w) :
    DumpReloads yaml env w ↔ Unlevelled w := by
  obtain ⟨t, hwrite, hread⟩ := readEach_toYamlString hstring hyaml w
  rw [unlevelled_iff]
  constructor
  · rintro ⟨t', ds, hwrite', hread', -⟩
    rw [hwrite, Except.ok.injEq] at hwrite'
    rw [← hwrite', hread, Except.ok.injEq] at hread'
    exact hread'
  · intro h
    rw [h] at hread
    refine ⟨t, _, hwrite, hread, ?_, reproduces env hw⟩
    rw [readLogDefines, hread]
    rfl

/-- In every state of a run, the dump of the manager loads as it should exactly
when the appenders have no levels, as the conversion does not read them. -/
theorem dump_reloads_iff (yaml : Yaml) (hyaml : yaml.Lawful)
    (hstring : ∀ s, yaml.asString (.scalar s) = .ok s) (env env' : Env) (ops : List Op)
    (sys : System) (h : exec (step env) (System.initial env) ops = .ok sys) :
    DumpReloads yaml env' sys.world ↔ Unlevelled sys.world :=
  linked_dumpReloads_iff hyaml hstring env' (run_linked ops h)

/-- The root logger's appender has to give up its level for that. -/
theorem dump_reloads_unlevelled :
    DumpReloads YamlBlocks.yaml default (World.initial.setAppenderLevel 0 .unkonw) := by
  refine (dump_reloads_iff YamlBlocks.yaml YamlBlocks.yaml_lawful (fun _ => rfl) default default
    [.setAppenderLevel 0 .unkonw] ⟨_, (System.initial default).logDefines⟩ rfl).mpr ?_
  intro n p l a c hn hp ha hc
  obtain ⟨_, rfl⟩ := initial_logger hp
  obtain rfl : a = 0 := List.mem_singleton.mp ha
  obtain rfl := Option.some.inj hc
  rfl

/-- The manager as it is at first loses the level of its appender. -/
theorem dump_loses_level :
    exec (step default) (System.initial default) [] = .ok (System.initial default) ∧
      ¬ DumpReloads YamlBlocks.yaml default (System.initial default).world := by
  refine ⟨rfl, fun h => ?_⟩
  have hlevel := (linked_dumpReloads_iff YamlBlocks.yaml_lawful (fun _ => rfl) default
    initial_linked).mp h World.rootName 0 rootLogger 0 (conf rootAppender)
      initial_wellFormed.root_bound rfl (List.mem_singleton.mpr rfl) rfl
  exact absurd hlevel (by decide)

end Mumu.DumpReload
