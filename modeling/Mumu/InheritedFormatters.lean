import Mumu.EventRouting

namespace Mumu.InheritedFormatters

open Mumu.LogLevels Mumu.PatternScanner Mumu.LogAppenders Mumu.Loggers Mumu.PointerHeap
open Mumu.KeyedSets Mumu.Executions Mumu.LogIniter Mumu.EventRouting

/-! ### What a logger's appenders should have -/

/-- A call that sets up the appenders of one logger, with a formatter where it
takes one. -/
def OfLogger (p : Ptr) : Op → Prop
  | .newStdoutAppender | .newFileAppender _ => True
  | .addAppender q _ | .delAppender q _ | .clearAppender q => q = p
  | .setFormatter q val => q = p ∧ val.isSome
  | .setFormatterPattern q _ => q = p
  | .setAppenderFormatter _ val => val.isSome
  | _ => False

/-- An appender without a formatter of its own has the given one. -/
def Follows (val : Option LogFormatter) (ap : LogAppender) : Prop :=
  ap.hasFormatter = false → ap.formatter = val

/-- The attached appenders follow the logger's formatter. -/
def Inherits (p : Ptr) (w : World) : Prop :=
  ∀ l, w.loggers.get? p = some l → ∀ a ∈ l.appenders, w.appenders.Has (Follows l.formatter) a

/-- An appender is not attached with a formatter that it inherited before and
that the logger has no longer. -/
def Unstale (p : Ptr) (w : World) : Op → Prop
  | .addAppender _ a => ∀ l ap f, w.loggers.get? p = some l → w.appenders.get? a = some ap →
      ap.hasFormatter = false → ap.formatter = some f → l.formatter = some f
  | _ => True

/-! ### Single calls -/

variable {p : Ptr} {w : World}

theorem new_inherits {name : Str} (h : w.loggers.get? p = some (Logger.new name)) :
    Inherits p w := by
  intro l hl a ha
  rw [h, Option.some.injEq] at hl
  rw [← hl] at ha
  cases ha

theorem update_inherits (f : Logger → Logger) (h : Heap LogAppender)
    (hf : ∀ l, w.loggers.get? p = some l →
      ∀ a ∈ (f l).appenders, h.Has (Follows (f l).formatter) a) :
    Inherits p { w with loggers := w.loggers.modify p f, appenders := h } := by
  intro l' hl' a ha
  obtain ⟨l, hl, rfl⟩ := Heap.exists_of_modify hl'
  rw [if_pos rfl] at ha ⊢
  exact hf l hl a ha

theorem newAppender_inherits (hw : Inherits p w) (new : LogAppender) :
    Inherits p (w.newAppender new).1 := fun l hl a ha => (hw l hl a ha).alloc new

theorem delAppender_inherits (hw : Inherits p w) (a : Ptr) : Inherits p (w.delAppender p a) :=
  update_inherits _ w.appenders fun l hl _ hb => hw l hl _ (List.mem_of_mem_erase hb)

theorem clearAppender_inherits : Inherits p (w.clearAppender p) :=
  update_inherits _ w.appenders fun _ _ _ ha => absurd ha List.not_mem_nil

theorem inherit_follows (val : Option LogFormatter) (ap : LogAppender) :
    Follows val (World.inherit val ap) := by
  intro h
  rw [World.inherit] at h ⊢
  split
  · rename_i hown
    rw [if_pos hown, hown] at h
    cases h
  · rfl

theorem setFormatter_inherits (hw : Inherits p w) (val : Option LogFormatter) :
    Inherits p (w.setFormatter p val) := by
  rw [World.setFormatter]
  split
  · exact hw
  · rename_i l hl
    apply update_inherits
    intro l' hl' a ha
    obtain rfl : l = l' := Option.some.inj (hl.symm.trans hl')
    obtain ⟨ap, hap, -⟩ := hw l hl a ha
    refine ⟨World.inherit val ap, ?_, inherit_follows val ap⟩
    have hmem : a ∈ l.appenders := ha
    rw [Heap.get?_modifyAll _ _ _ (World.inherit_idem val), if_pos hmem, hap, Option.map_some]

theorem setFormatterPattern_inherits (hw : Inherits p w) (val : Str) :
    Inherits p (w.setFormatterPattern p val) := by
  rw [World.setFormatterPattern]
  split
  · exact hw
  · exact setFormatter_inherits hw _

theorem setAppenderFormatter_inherits (hw : Inherits p w) (a : Ptr) (f : LogFormatter) :
    Inherits p (w.setAppenderFormatter a (some f)) := by
  intro l hl b hb
  refine (hw l hl b hb).modify a fun ap _ hown => ?_
  cases hown

/-- Attaching is where it can go wrong: only a null formatter is replaced. -/
theorem addAppender_inherits_iff (hw : Inherits p w) (a : Ptr) :
    Inherits p (w.addAppender p a) ↔ Unstale p w (.addAppender p a) := by
  rw [World.addAppender]
  split
  · rename_i l ap hl hap
    constructor
    · intro h l' ap' f hl' hap' hown hf
      obtain rfl : l = l' := Option.some.inj (hl.symm.trans hl')
      obtain rfl : ap = ap' := Option.some.inj (hap.symm.trans hap')
      have hnew := h { l with appenders := l.appenders ++ [a] }
        (by dsimp only; rw [Heap.get?_modify_self, hl, Option.map_some]) a (by simp)
      obtain ⟨ap'', hap'', hfollows⟩ := hnew
      dsimp only at hap''
      rw [Heap.get?_modify_self, hap, Option.map_some, if_neg (by rw [hf]; simp),
        Option.some.injEq] at hap''
      subst hap''
      rw [← hf, hfollows hown]
    · intro h
      apply update_inherits
      intro l' hl' b hb
      obtain rfl : l = l' := Option.some.inj (hl.symm.trans hl')
      have hset : ∀ ap', Follows l.formatter ap' → Follows l.formatter
          (if ap'.formatter = none then { ap' with formatter := l.formatter } else ap') := by
        intro ap' hfollows
        split
        · exact fun _ => rfl
        · exact hfollows
      obtain hb | hb := List.mem_append.mp hb
      · exact (hw l hl b hb).modify a hset
      · obtain rfl := List.mem_singleton.mp hb
        refine ⟨_, by rw [Heap.get?_modify_self, hap, Option.map_some], ?_⟩
        cases hf : ap.formatter with
        | none => exact fun _ => by rw [if_pos rfl]
        | some f =>
          rw [if_neg (by simp)]
          intro hown
          rw [hf, h l ap f hl hap hown hf]
  · rename_i hnone
    constructor
    · intro _ l ap f hl hap
      exact (hnone l ap hl hap).elim
    · exact fun _ => hw

/-! ### Runs -/

theorem step_inherits {env : Env} (sys : System) (op : Op) (sys' : System) (hop : OfLogger p op)
    (hs : Inherits p sys.world) (hunstale : Unstale p sys.world op)
    (h : step env sys op = .ok sys') : Inherits p sys'.world := by
  have world : ∀ {w : World}, Inherits p w → onWorld sys w = .ok sys' → Inherits p sys'.world := by
    intro w hw h
    cases h
    exact hw
  cases op with
  | newStdoutAppender => exact world (newAppender_inherits hs _) h
  | newFileAppender filename =>
    refine world (newAppender_inherits (w := { sys.world with ticks := sys.world.ticks + 1 }) ?_ _) h
    exact hs
  | addAppender q a =>
    obtain rfl : q = p := hop
    exact world ((addAppender_inherits_iff hs a).mpr hunstale) h
  | delAppender q a =>
    obtain rfl : q = p := hop
    exact world (delAppender_inherits hs a) h
  | clearAppender q =>
    obtain rfl : q = p := hop
    exact world clearAppender_inherits h
  | setFormatter q val =>
    obtain ⟨rfl, -⟩ := hop
    exact world (setFormatter_inherits hs val) h
  | setFormatterPattern q val =>
    obtain rfl : q = p := hop
    exact world (setFormatterPattern_inherits hs val) h
  | setAppenderFormatter a val =>
    obtain ⟨f, rfl⟩ := Option.isSome_iff_exists.mp hop
    exact world (setAppenderFormatter_inherits hs a f) h
  | _ => exact hop.elim

theorem step_stale {env : Env} (sys : System) (op : Op) (hop : OfLogger p op)
    (hs : Inherits p sys.world) (hstale : ¬ Unstale p sys.world op) :
    ∃ sys', step env sys op = .ok sys' ∧ ¬ Inherits p sys'.world := by
  cases op with
  | addAppender q a =>
    obtain rfl : q = p := hop
    exact ⟨_, rfl, fun h => hstale ((addAppender_inherits_iff hs a).mp h)⟩
  | _ => exact absurd trivial hstale

/-- From a new logger on, its appenders follow its formatter in every state that
a run reaches exactly if the run attaches no appender with a stale formatter. -/
theorem run_inherits_iff (env : Env) (p : Ptr) (name : Str) (sys : System)
    (hnew : sys.world.loggers.get? p = some (Logger.new name)) (ops : List Op)
    (hops : ∀ op ∈ ops, OfLogger p op) :
    (∀ pre sys', pre <+: ops → exec (step env) sys pre = .ok sys' → Inherits p sys'.world) ↔
      Meets (step env) (fun sys op => Unstale p sys.world op) sys ops :=
  exec_always_iff (I := fun sys : System => Inherits p sys.world) (fun _ hs => hs) step_inherits step_stale
    ops hops (new_inherits hnew)

/-- A logger and nothing else. -/
def alone : System := ⟨⟨⟨[Logger.new "system".toList]⟩, ⟨[]⟩, .empty, 0, 0⟩,
  (System.initial default).logDefines⟩

theorem attached_new :
    ∃ sys, exec (step default) alone [.newStdoutAppender, .addAppender 0 0] = .ok sys ∧
      Inherits 0 sys.world := by
  refine ⟨_, rfl, (run_inherits_iff default 0 "system".toList alone rfl
    [.newStdoutAppender, .addAppender 0 0] (by simp [OfLogger])).mpr ?_ _ _ List.prefix_rfl rfl⟩
  refine ⟨trivial, fun sys' h => ⟨?_, fun _ _ => trivial⟩⟩
  cases h
  intro l ap f _ hap _ hf
  cases hap
  cases hf

/-- The appender comes back with the formatter that it had when it was taken off. -/
theorem attached_stale :
    (∀ op ∈ [Op.newStdoutAppender, .addAppender 0 0, .delAppender 0 0,
      .setFormatter 0 (some (.new "%m%n".toList)), .addAppender 0 0], OfLogger 0 op) ∧
    ∃ sys, exec (step default) alone [.newStdoutAppender, .addAppender 0 0, .delAppender 0 0,
      .setFormatter 0 (some (.new "%m%n".toList)), .addAppender 0 0] = .ok sys ∧
        ¬ Inherits 0 sys.world := by
  refine ⟨by simp [OfLogger], _, rfl, fun h => ?_⟩
  obtain ⟨ap, hap, hfollows⟩ := h _ rfl 0 (List.mem_singleton.mpr rfl)
  obtain rfl := Option.some.inj hap
  have hpattern := congrArg (Option.map LogFormatter.pattern) (hfollows rfl)
  exact absurd hpattern (by decide)

end Mumu.InheritedFormatters
