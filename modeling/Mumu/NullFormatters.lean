import Mumu.EventRouting

namespace Mumu.NullFormatters

open Mumu.LogLevels Mumu.LogItems Mumu.PatternScanner Mumu.LogAppenders Mumu.Loggers
open Mumu.PointerHeap Mumu.Executions Mumu.LogDelivery Mumu.LogIniter Mumu.LoggerFrames
open Mumu.EventRouting

/-! ### Who is handed an event -/

/-- The appenders that a logger, or the root logger for it, hands an event to. -/
def receivers (w : World) (lvl : Level) : Nat → Ptr → List Ptr
  | 0, _ => []
  | hops + 1, p =>
    match w.loggers.get? p with
    | none => []
    | some l =>
      if l.level ≤ lvl then
        if l.appenders ≠ [] then l.appenders
        else
          match l.root with
          | some r => receivers w lvl hops r
          | none => []
      else []

section

variable {env : Env} {lvl : Level} {event : LogEvent}

/-- A call that returns has handed the event to them, in order. -/
theorem log_receivers (hops : Nat) {w w' : World} {p : Ptr} {hs : List World.Handed}
    (h : World.log env lvl event hops w p = .ok (w', hs)) :
    hs.map World.Handed.appender = receivers w lvl hops p := by
  induction hops generalizing p with
  | zero => cases h
  | succ hops ih =>
    cases hl : w.loggers.get? p with
    | none =>
      simp only [World.log, hl] at h
      cases h
    | some l =>
      simp only [World.log, hl] at h
      simp only [receivers, hl]
      by_cases hlvl : l.level ≤ lvl
      · rw [if_pos hlvl] at h ⊢
        by_cases hne : l.appenders ≠ []
        · rw [if_pos hne] at h ⊢
          exact appendersLog_appender _ h
        · rw [if_neg hne] at h ⊢
          cases hr : l.root with
          | none =>
            rw [hr] at h
            cases h
            rfl
          | some r =>
            rw [hr] at h
            exact ih h
      · rw [if_neg hlvl] at h ⊢
        cases h
        rfl

end

theorem mem_receivers {w : World} {lvl : Level} {hops : Nat} {p a : Ptr}
    (ha : a ∈ receivers w lvl hops p) :
    ∃ q l, w.loggers.get? q = some l ∧ a ∈ l.appenders := by
  induction hops generalizing p with
  | zero => cases ha
  | succ hops ih =>
    rw [receivers] at ha
    split at ha
    · cases ha
    · rename_i l hl
      split_ifs at ha
      · exact ⟨p, l, hl, ha⟩
      · split at ha
        · exact ih ha
        · cases ha
      · cases ha

/-! ### Null formatters -/

/-- Every appender that is handed an event has a formatter, and no call formats
through a null one. -/
def FormatsSafely (env : Env) (w : World) : Prop :=
  ∀ p lvl event hops, (∀ a ∈ receivers w lvl hops p, Ready w a) ∧
    World.log env lvl event hops w p ≠ .error .nullFormatter

theorem log_ne_nullFormatter (env : Env) (lvl : Level) (event : LogEvent) {w : World}
    (hw : WellFormed w) (hops : Nat) (p : Ptr) :
    World.log env lvl event hops w p ≠ .error .nullFormatter := by
  induction hops generalizing p with
  | zero =>
    intro h
    cases h
  | succ hops ih =>
    rw [World.log]
    split
    · simp
    · rename_i l hl
      split_ifs
      · obtain ⟨w', hw', -⟩ := appendersLog_ready env lvl event l.appenders (hw.ready p l hl)
        rw [hw']
        simp
      · split
        · exact ih _
        · simp
      · simp

theorem formatsSafely (env : Env) {w : World} (hw : WellFormed w) : FormatsSafely env w := by
  intro p lvl event hops
  refine ⟨fun a ha => ?_, log_ne_nullFormatter env lvl event hw hops p⟩
  obtain ⟨q, l, hl, hal⟩ := mem_receivers ha
  exact hw.ready q l hl a hal

/-- A logger gets a formatter that is not null. -/
def GivesFormatter : Op → Prop
  | .setFormatter _ val => val.isSome
  | _ => True

/-- Only an appender that no logger has is given a null formatter. -/
def ClearsUnattached (w : World) : Op → Prop
  | .setAppenderFormatter a none => ∀ p l, w.loggers.get? p = some l → a ∉ l.appenders
  | _ => True

theorem clearFormatter_wellFormed {w : World} (hw : WellFormed w) {a : Ptr}
    (ha : ∀ p l, w.loggers.get? p = some l → a ∉ l.appenders) :
    WellFormed (w.setAppenderFormatter a none) := by
  refine ⟨hw.bound, hw.root_bound, hw.formatted, fun p l hl b hb => ?_⟩
  have hne : a ≠ b := by
    rintro rfl
    exact ha p l hl hb
  obtain ⟨ap, hap, hf⟩ := ready_iff.mp (hw.ready p l hl b hb)
  refine ready_iff.mpr ⟨ap, ?_, hf⟩
  exact (Heap.get?_modify_of_ne _ hne).trans hap

/-- An attached appender whose formatter is cleared is handed a fatal event. -/
theorem clearFormatter_not_safe (env : Env) {w : World} {p a : Ptr} {l : Logger}
    (hl : w.loggers.get? p = some l) (ha : a ∈ l.appenders) :
    ¬ FormatsSafely env (w.setAppenderFormatter a none) := by
  intro h
  have hlevel : l.level ≤ .fatal := by cases l.level <;> decide
  have hmem : a ∈ receivers (w.setAppenderFormatter a none) .fatal 1 p := by
    have hl' : (w.setAppenderFormatter a none).loggers.get? p = some l := hl
    rw [receivers, hl']
    dsimp only
    rw [if_pos hlevel, if_pos (List.ne_nil_of_mem ha)]
    exact ha
  obtain ⟨ap, hap, f, hf⟩ := ready_iff.mp ((h p .fatal default 1).1 a hmem)
  obtain ⟨ap', -, rfl⟩ := Heap.exists_of_modify hap
  rw [if_pos rfl] at hf
  cases hf

theorem step_sound {env : Env} (sys : System) (op : Op) (sys' : System) (hop : GivesFormatter op)
    (hs : Kept env WellFormed sys) (hclear : ClearsUnattached sys.world op)
    (h : step env sys op = .ok sys') : Kept env WellFormed sys' := by
  have takes : op.takes (fun val => val.isSome = true) → Kept env WellFormed sys' :=
    fun ht => step_kept wellFormed_closed sys op sys' ht hs h
  cases op with
  | setFormatter p val => exact takes hop
  | setAppenderFormatter a val =>
    cases val with
    | none =>
      cases h
      exact ⟨clearFormatter_wellFormed hs.1 hclear, hs.2⟩
    | some f => exact takes rfl
  | _ => exact takes trivial

theorem step_cleared {env : Env} (sys : System) (op : Op)
    (hclear : ¬ ClearsUnattached sys.world op) :
    ∃ sys', step env sys op = .ok sys' ∧ ¬ FormatsSafely env sys'.world := by
  cases op with
  | setAppenderFormatter a val =>
    cases val with
    | none =>
      simp only [ClearsUnattached, not_forall, not_not] at hclear
      obtain ⟨p, l, hl, ha⟩ := hclear
      exact ⟨_, rfl, clearFormatter_not_safe env hl ha⟩
    | some f => exact absurd trivial hclear
  | _ => exact absurd trivial hclear

/-- No state of a run formats through a null formatter exactly if the run takes
the formatter away from no appender that a logger has. -/
theorem log_formatsSafely_iff (env : Env) (ops : List Op) (hops : ∀ op ∈ ops, GivesFormatter op) :
    (∀ pre sys, pre <+: ops → exec (step env) (System.initial env) pre = .ok sys →
        FormatsSafely env sys.world) ↔
      Meets (step env) (fun sys op => ClearsUnattached sys.world op) (System.initial env) ops :=
  exec_always_iff (I := Kept env WellFormed) (fun _ hs => formatsSafely env hs.1) step_sound
    (fun sys op _ _ hclear => step_cleared sys op hclear) ops hops ⟨initial_wellFormed, rfl⟩

/-- An appender may lose its formatter before it is attached. -/
theorem log_formatsSafely_cleared :
    ∃ sys, exec (step default) (System.initial default)
        [.newStdoutAppender, .setAppenderFormatter 1 none, .addAppender 0 1] = .ok sys ∧
      FormatsSafely default sys.world := by
  refine ⟨_, rfl, (log_formatsSafely_iff default
    [.newStdoutAppender, .setAppenderFormatter 1 none, .addAppender 0 1]
    (by simp [GivesFormatter])).mpr ?_ _ _ List.prefix_rfl rfl⟩
  refine ⟨trivial, fun sys h => ⟨?_, fun _ _ => ⟨trivial, fun _ _ => trivial⟩⟩⟩
  cases h
  intro p l hl ha
  obtain ⟨-, rfl⟩ := initial_logger hl
  exact absurd ha (by decide)

/-- The root logger's appender, without a formatter. -/
theorem root_formats_null :
    (∀ op ∈ [Op.setAppenderFormatter 0 none], GivesFormatter op) ∧
    ∃ sys, exec (step default) (System.initial default) [.setAppenderFormatter 0 none] = .ok sys ∧
      World.log default .info default 1 sys.world 0 = .error .nullFormatter ∧
      ¬ FormatsSafely default sys.world := by
  refine ⟨by simp [GivesFormatter], _, rfl, rfl, ?_⟩
  exact clearFormatter_not_safe default (w := World.initial) (p := 0) rfl (List.mem_singleton.mpr rfl)

end Mumu.NullFormatters
