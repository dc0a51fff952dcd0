import Mumu.LoggerFrames
import Mumu.ReloadFrames

namespace Mumu.EventRouting

open Mumu.LogLevels Mumu.LogItems Mumu.PatternScanner Mumu.LogAppenders Mumu.Loggers
open Mumu.PointerHeap Mumu.KeyedSets Mumu.ConfigVars Mumu.Executions
open Mumu.LogDelivery Mumu.LogIniter Mumu.LoggerFrames Mumu.ReloadFrames

/-! ### A reload keeps the world well-formed -/

theorem wellFormed_closed : Closed (fun val => val.isSome = true) WellFormed where
  some _ := rfl
  sameConf h hw := hw.congr h
  getLogger name hw := getLogger_wellFormed hw name
  newLogger name hw := allocLogger_wellFormed hw (Logger.new name) ⟨_, rfl⟩ rfl
  setLevel p level hw := setLevel_wellFormed hw p level
  setFormatter p val h hw := by
    obtain ⟨f, rfl⟩ := Option.isSome_iff_exists.mp h
    exact setFormatter_wellFormed hw p f
  clearAppender p hw := clearAppender_wellFormed hw p
  addAppender p a hw := addAppender_wellFormed hw p a
  delAppender p a hw := delAppender_wellFormed hw p a
  newAppender a hw := newAppender_wellFormed hw a
  setAppenderLevel a val hw := setAppenderLevel_wellFormed hw a val
  setAppenderFormatter a val h hw := by
    obtain ⟨f, rfl⟩ := Option.isSome_iff_exists.mp h
    exact setAppenderFormatter_wellFormed hw a f

/-! ### The listener never fails on a well-formed world -/

/-- The state of a system whose only listener is the one installed at start. -/
structure Sound (env : Env) (sys : System) : Prop where
  world : WellFormed sys.world
  cbs : sys.logDefines.cbs = (System.initial env).logDefines.cbs

theorem initial_sound (env : Env) : Sound env (System.initial env) := ⟨initial_wellFormed, rfl⟩

theorem initial_cbs (env : Env) :
    (System.initial env).logDefines.cbs.toList = [(1, onLogConfChanged env)] := rfl

theorem onLogConfChanged_eq (env : Env) {w : World} (hw : WellFormed w)
    (oldValue newValue : LogDefines) :
    ∃ u, SameConf w u ∧
      onLogConfChanged env oldValue newValue w = (.ok (), reload env oldValue newValue u) := by
  obtain ⟨r, hr, _⟩ := hw.root_logger
  obtain ⟨hops, hhops⟩ := Nat.exists_eq_add_of_lt (Heap.lt_fresh hr)
  obtain ⟨u, hlog⟩ := logLevel_managed env .info hw hw.root_bound hr hr
    (w.root + hops) site
  refine ⟨u, logLevel_sameConf hlog, ?_⟩
  simp only [onLogConfChanged, hhops]
  rw [hlog]

/-- What a call of `setValue` on the configuration of the logs does. -/
theorem setLogDefines_eq {env : Env} {sys : System} (hs : Sound env sys) (v : LogDefines) :
    if v = sys.logDefines.val then sys.setLogDefines v = .ok sys
    else ∃ u, SameConf sys.world u ∧ sys.setLogDefines v =
      .ok ⟨reload env sys.logDefines.val v u, { sys.logDefines with val := v }⟩ := by
  unfold System.setLogDefines ConfigVar.setValue ConfigVar.setValueRead
  split
  · rename_i h
    simp [h]
  · rename_i h
    obtain ⟨u, hsame, heq⟩ := onLogConfChanged_eq env hs.world sys.logDefines.val v
    refine ⟨u, hsame, ?_⟩
    rw [hs.cbs, initial_cbs]
    simp [h, notify, heq, ConfigVar.setValueWrite]

/-- A call of `setValue` that returns, whatever became of the formatters. -/
theorem setLogDefines_cases {env : Env} {sys sys' : System}
    (hcbs : sys.logDefines.cbs = (System.initial env).logDefines.cbs) {v : LogDefines}
    (h : sys.setLogDefines v = .ok sys') :
    sys' = sys ∨ ∃ u, SameConf sys.world u ∧
      sys' = ⟨reload env sys.logDefines.val v u, { sys.logDefines with val := v }⟩ := by
  unfold System.setLogDefines ConfigVar.setValue ConfigVar.setValueRead at h
  rw [hcbs, initial_cbs] at h
  by_cases hv : (v == sys.logDefines.val) = true
  · simp only [hv, if_true] at h
    cases h
    exact .inl rfl
  · simp only [hv, notify, onLogConfChanged] at h
    cases hlog : sys.world.logLevel env (sys.world.loggers.fresh + 1) sys.world.root .info site with
    | error e => simp [hlog] at h
    | ok r =>
      refine .inr ⟨r.1, logLevel_sameConf hlog, ?_⟩
      simpa [hlog, ConfigVar.setValueWrite, eq_comm] using h

/-! ### Runs of the logging system -/

/-- The public operations of the logging system. A null pointer to a formatter
is an argument that the setters take. -/
inductive Op where
  | getLogger (name : Str)
  | newLogger (name : Str)
  | newStdoutAppender
  | newFileAppender (filename : Str)
  | addAppender (p a : Ptr)
  | delAppender (p a : Ptr)
  | clearAppender (p : Ptr)
  | setLevel (p : Ptr) (level : Level)
  | setAppenderLevel (a : Ptr) (level : Level)
  | setFormatter (p : Ptr) (val : Option LogFormatter)
  | setFormatterPattern (p : Ptr) (val : Str)
  | setAppenderFormatter (a : Ptr) (val : Option LogFormatter)
  | reconfigure (v : LogDefines)
  | log (p : Ptr) (lvl : Level) (event : LogEvent)

def Op.nonNull : Op → Prop
  | setFormatter _ val => val.isSome
  | setAppenderFormatter _ val => val.isSome
  | _ => True

def onWorld (sys : System) (w : World) : Except Fault System := .ok { sys with world := w }

def step (env : Env) (sys : System) : Op → Except Fault System
  | .getLogger name => onWorld sys (sys.world.getLogger name).1
  | .newLogger name =>
    onWorld sys { sys.world with loggers := sys.world.loggers.alloc (Logger.new name) }
  | .newStdoutAppender => onWorld sys sys.world.newStdoutAppender.1
  | .newFileAppender filename => onWorld sys (sys.world.newFileAppender env filename).1
  | .addAppender p a => onWorld sys (sys.world.addAppender p a)
  | .delAppender p a => onWorld sys (sys.world.delAppender p a)
  | .clearAppender p => onWorld sys (sys.world.clearAppender p)
  | .setLevel p level => onWorld sys (sys.world.setLevel p level)
  | .setAppenderLevel a level => onWorld sys (sys.world.setAppenderLevel a level)
  | .setFormatter p val => onWorld sys (sys.world.setFormatter p val)
  | .setFormatterPattern p val => onWorld sys (sys.world.setFormatterPattern p val)
  | .setAppenderFormatter a val => onWorld sys (sys.world.setAppenderFormatter a val)
  | .reconfigure v => sys.setLogDefines v
  | .log p lvl event =>
    match World.log env lvl event (sys.world.loggers.fresh + 1) sys.world p with
    | .error e => .error e
    | .ok (w, _) => onWorld sys w

/-- The operations whose formatters satisfy a condition. -/
def Op.takes (Q : Option LogFormatter → Prop) : Op → Prop
  | setFormatter _ val => Q val
  | setAppenderFormatter _ val => Q val
  | _ => True

/-- A property of the world that holds along with the listener in place. -/
def Kept (env : Env) (P : World → Prop) (sys : System) : Prop :=
  P sys.world ∧ sys.logDefines.cbs = (System.initial env).logDefines.cbs

theorem step_kept {env : Env} {Q : Option LogFormatter → Prop} {P : World → Prop}
    (hP : Closed Q P) (sys : System) (op : Op) (sys' : System) (hop : op.takes Q)
    (hs : Kept env P sys) (h : step env sys op = .ok sys') : Kept env P sys' := by
  have world : ∀ {w : World}, P w → onWorld sys w = .ok sys' → Kept env P sys' := by
    intro w hw h
    cases h
    exact ⟨hw, hs.2⟩
  have hw := hs.1
  cases op with
  | getLogger name => exact world (hP.getLogger name hw) h
  | newLogger name => exact world (hP.newLogger name hw) h
  | newStdoutAppender => exact world (hP.newAppender _ hw) h
  | newFileAppender filename => exact world (hP.newFileAppender env filename hw) h
  | addAppender p a => exact world (hP.addAppender p a hw) h
  | delAppender p a => exact world (hP.delAppender p a hw) h
  | clearAppender p => exact world (hP.clearAppender p hw) h
  | setLevel p level => exact world (hP.setLevel p level hw) h
  | setAppenderLevel a level => exact world (hP.setAppenderLevel a level hw) h
  | setFormatter p val => exact world (hP.setFormatter p hop hw) h
  | setFormatterPattern p val => exact world (hP.setFormatterPattern p val hw) h
  | setAppenderFormatter a val => exact world (hP.setAppenderFormatter a hop hw) h
  | reconfigure v =>
    obtain rfl | ⟨u, hsame, rfl⟩ := setLogDefines_cases hs.2 h
    · exact hs
    · exact ⟨hP.reload env _ _ (hP.sameConf hsame hw), hs.2⟩
  | log p lvl event =>
    unfold step at h
    dsimp only at h
    split at h
    · cases h
    · rename_i hlog
      exact world (hP.sameConf (log_sameConf _ hlog) hw) h

theorem run_kept {env : Env} {Q : Option LogFormatter → Prop} {P : World → Prop}
    (hP : Closed Q P) {ops : List Op} (hops : ∀ op ∈ ops, op.takes Q) (hinit : P World.initial)
    {sys : System} (h : exec (step env) (System.initial env) ops = .ok sys) : P sys.world :=
  (exec_invariant (fun s a t ha hs ht => step_kept hP s a t ha hs ht) ops hops
    (⟨hinit, rfl⟩ : Kept env P (System.initial env)) h).1

theorem run_wellFormed {env : Env} {ops : List Op} (hops : ∀ op ∈ ops, op.nonNull) {sys : System}
    (h : exec (step env) (System.initial env) ops = .ok sys) : WellFormed sys.world := by
  apply run_kept wellFormed_closed _ initial_wellFormed h
  intro op hop
  have hnonNull := hops op hop
  cases op with
  | setFormatter p val => exact hnonNull
  | setAppenderFormatter a val => exact hnonNull
  | _ => trivial

/-- In every state of a run, an event logged through a managed logger goes to
that logger's appenders, or to the root logger's if it has none. The list says
who was handed the event, in order, and what each of them wrote. -/
theorem log_routed (env : Env) (ops : List Op) (hops : ∀ op ∈ ops, op.nonNull) (sys : System)
    (h : exec (step env) (System.initial env) ops = .ok sys) (name : Str) (p : Ptr) (l : Logger)
    (hn : KeyedMap.get? sys.world.managed name = some p)
    (hl : sys.world.loggers.get? p = some l) :
    ∃ r, KeyedMap.get? sys.world.managed World.rootName = some sys.world.root ∧
      sys.world.loggers.get? sys.world.root = some r ∧
      (∀ lvl event hops, ∃ w', World.log env lvl event (hops + 2) sys.world p =
        .ok (w', (routed lvl name l r).map (handed env lvl event sys.world))) ∧
      (∀ lvl site hops, ∃ w', sys.world.logLevel env (hops + 2) p lvl site =
        .ok (w', (routed lvl name l r).map
          (handed env lvl (sys.world.eventAt env site name) sys.world))) ∧
      ∀ lvl, ∀ a ∈ routed lvl name l r, ∃ c f, confOf sys.world a = some c ∧
        c.formatter = some f ∧ ∀ event, handed env lvl event sys.world a =
          ⟨a, if c.level ≤ lvl then some (f.format env.libc lvl event) else none⟩ := by
  have hw := run_wellFormed hops h
  obtain ⟨r, hr, _⟩ := hw.root_logger
  refine ⟨r, hw.root_bound, hr, fun lvl event hops => log_managed env lvl event hw hn hl hr hops,
    fun lvl site hops => logLevel_managed env lvl hw hn hl hr hops site, fun lvl a ha => ?_⟩
  have hready : Ready sys.world a := by
    rw [routed] at ha
    split_ifs at ha
    · exact hw.ready _ _ hl a ha
    · exact hw.ready _ _ hr a ha
    all_goals exact absurd ha List.not_mem_nil
  obtain ⟨c, f, hc, hf⟩ := hready
  exact ⟨c, f, hc, hf, fun event => by simp [handed, hc, hf]⟩

/-- A logger that nobody has given an appender hands its events to the root's. -/
theorem log_routed_delegates :
    ∃ w' text, World.log default .info default 2 (World.initial.getLogger "a".toList).1 1 =
      .ok (w', [⟨0, some text⟩]) := by
  obtain ⟨r, _, hr, hlog, _, hhanded⟩ := log_routed default [.getLogger "a".toList]
    (by simp [Op.nonNull]) _ rfl "a".toList 1 _ rfl rfl
  obtain ⟨w', hw'⟩ := hlog .info default 0
  obtain rfl : r = rootLogger := (Option.some.inj hr).symm
  obtain ⟨c, f, hc, _, h⟩ := hhanded .info 0 (List.mem_singleton.mpr rfl)
  obtain rfl : conf rootAppender = c := Option.some.inj hc
  exact ⟨w', f.format default .info default,
    hw'.trans (congrArg (fun e => Except.ok (w', [e])) (h default))⟩

end Mumu.EventRouting
