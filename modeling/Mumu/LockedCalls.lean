import Mumu.ConfigLocks
import Mumu.LogDelivery

namespace Mumu.LockedCalls

open Mumu.LogLevels Mumu.LogItems Mumu.PatternScanner Mumu.LogAppenders Mumu.Loggers
open Mumu.PointerHeap Mumu.KeyedSets Mumu.ConfigVars Mumu.Config Mumu.LogIniter
open Mumu.Executions Mumu.Mutexes Mumu.LockOrder Mumu.LogDelivery Mumu.LoggerLocks
open Mumu.ConfigLocks

variable {τ : Type} {Val : τ → Type}

/-! ### Updates of the world -/

/-- A routine that, alone, changes the world as the sequential model does. -/
def Calls (p : Routine Val) (f : World → World) : Prop :=
  Does p (fun s => { s with world := f s.world })

theorem Calls.comp {p q : Routine Val} {f g : World → World} (hp : Calls p f) (hq : Calls q g) :
    Calls (p ∘ q) (fun w => g (f w)) :=
  Does.comp hp hq

theorem Calls.guarded {l : Lock} {m : RWMode} {p : Routine Val} {f : World → World}
    (hp : Calls p f) : Calls (guarded l m p) f :=
  Does.guarded hp

theorem onWorld_calls (f : World → World) : Calls (onWorld f : Routine Val) f := Does.update

theorem skip_calls : Calls (id : Routine Val) id := Does.skip

theorem Calls.congr {p : Routine Val} {f g : World → World} (hp : Calls p f) (h : ∀ w, f w = g w) :
    Calls p g :=
  Does.congr hp fun s => by rw [h]

theorem Calls.ite {c : Prop} [Decidable c] {p q : Routine Val} {f g : World → World}
    (hp : Calls p f) (hq : Calls q g) :
    Calls (if c then p else q) (fun w => if c then f w else g w) :=
  (Does.ite hp hq).congr fun s => by split <;> rfl

theorem forEach_calls {α : Type} {r : α → Routine Val} {h : α → World → World}
    (hr : ∀ a, Calls (r a) (h a)) (as : List α) :
    Calls (forEach r as) (fun w => as.foldl (fun w a => h a w) w) := by
  apply (Does.forEach hr as).congr
  intro s
  induction as generalizing s with
  | nil => rfl
  | cons a as ih => exact ih _

theorem atLogger_calls {p : Ptr} {f : Logger → Routine Val} {g : Logger → World → World}
    (hf : ∀ l, Calls (f l) (g l)) :
    Calls (atLogger p f) (fun w =>
      match w.loggers.get? p with
      | none => w
      | some l => g l w) := by
  intro k s
  rw [atLogger, inspect, atomically, Prog.alone]
  cases hl : s.world.loggers.get? p with
  | none => simp [hl]
  | some l => simpa [hl] using hf l k s

theorem atAppender_calls {a : Ptr} {f : LogAppender → Routine Val} {g : LogAppender → World → World}
    (hf : ∀ ap, Calls (f ap) (g ap)) :
    Calls (atAppender a f) (fun w =>
      match w.appenders.get? a with
      | none => w
      | some ap => g ap w) := by
  intro k s
  rw [atAppender, inspect, atomically, Prog.alone]
  cases ha : s.world.appenders.get? a with
  | none => simp [ha]
  | some ap => simpa [ha] using hf ap k s

/-! ### Logger and LogAppender -/

theorem modifyAll_foldl (f : LogAppender → LogAppender) (as : List Ptr) (w : World) :
    as.foldl (fun w a => { w with appenders := w.appenders.modify a f }) w =
      { w with appenders := w.appenders.modifyAll as f } := by
  induction as generalizing w with
  | nil => rfl
  | cons a as ih => exact ih _

theorem setFormatter_calls (p : Ptr) (val : Option LogFormatter) :
    Calls (setFormatter p val : Routine Val) (fun w => w.setFormatter p val) := by
  apply Calls.guarded
  apply Calls.congr ((onWorld_calls _).comp (atLogger_calls fun l =>
    forEach_calls (fun a => (onWorld_calls _).guarded) l.appenders))
  intro w
  rw [World.setFormatter, Heap.get?_modify_self]
  cases hl : w.loggers.get? p with
  | none => simp [Heap.modify_eq_self, hl]
  | some l => exact modifyAll_foldl _ _ _

theorem setFormatterPattern_calls (p : Ptr) (val : Str) :
    Calls (setFormatterPattern p val : Routine Val) (fun w => w.setFormatterPattern p val) :=
  skip_calls.ite (setFormatter_calls p _)

theorem delAppender_calls (p a : Ptr) :
    Calls (delAppender p a : Routine Val) (fun w => w.delAppender p a) :=
  (onWorld_calls _).guarded

theorem clearAppender_calls (p : Ptr) :
    Calls (clearAppender p : Routine Val) (fun w => w.clearAppender p) :=
  (onWorld_calls _).guarded

theorem setAppenderFormatter_calls (a : Ptr) (val : Option LogFormatter) :
    Calls (Appender.setFormatter a val : Routine Val) (fun w => w.setAppenderFormatter a val) :=
  (onWorld_calls _).guarded

theorem getFormatter_calls (a : Ptr) {g : Option LogFormatter → Routine Val}
    {h : Option LogFormatter → World → World} (hg : ∀ f, Calls (g f) (h f)) :
    Calls (Appender.getFormatter a g)
      (fun w => h ((w.appenders.get? a).bind LogAppender.formatter) w) :=
  Does.critical (fun _ => Does.skip) fun _ => hg _

theorem addAppender_calls (p a : Ptr) :
    Calls (addAppender p a : Routine Val) (fun w => w.addAppender p a) := by
  apply Calls.guarded
  apply Calls.congr (atLogger_calls fun l => atAppender_calls fun ap =>
    (getFormatter_calls a fun f =>
      ((onWorld_calls _).guarded.ite skip_calls)).comp (onWorld_calls _))
  intro w
  rw [World.addAppender]
  cases hl : w.loggers.get? p with
  | none => rfl
  | some l =>
    cases ha : w.appenders.get? a with
    | none => rfl
    | some ap =>
      by_cases hf : ap.formatter = none
      · have hmodify : w.appenders.modify a (fun ap => { ap with formatter := l.formatter }) =
            w.appenders.modify a
              (fun ap => if ap.formatter = none then { ap with formatter := l.formatter } else ap) :=
          Heap.modify_congr (by simp [ha, hf])
        simp [hf, hmodify]
      · have hkept : w.appenders.modify a
              (fun ap => if ap.formatter = none then { ap with formatter := l.formatter } else ap) =
            w.appenders :=
          Heap.modify_eq_self (by simp [ha, hf])
        simp [hf, hkept]

theorem getLogger_calls (name : Str) {g : Ptr → Routine Val} {h : Ptr → World → World}
    (hg : ∀ p, Calls (g p) (h p)) :
    Calls (getLogger name g) (fun w => h (w.getLogger name).2 (w.getLogger name).1) :=
  Does.critical (fun _ => Does.skip) fun _ => hg _

theorem newStdout_calls {g : Ptr → Routine Val} {h : Ptr → World → World}
    (hg : ∀ a, Calls (g a) (h a)) :
    Calls (Appender.newStdout g)
      (fun w => h w.newStdoutAppender.2 w.newStdoutAppender.1) :=
  Does.atomically fun _ => hg _

/-- An appender opens its file after it has been made. -/
theorem newFile_calls (env : Env) (filename : Str) {g : Ptr → Routine Val}
    {h : Ptr → World → World} (hg : ∀ a, Calls (g a) (h a)) :
    Calls (Appender.newFile env filename g)
      (fun w => h (w.newFileAppender env filename).2 (w.newFileAppender env filename).1) := by
  intro k s
  refine (hg _ k _).trans ?_
  simp only [World.newFileAppender, World.newAppender, Heap.modify_alloc_fresh]
  rfl

/-! ### LogIniter -/

theorem attach_calls (p : Ptr) (a : LogAppenderDefine) (ap : Ptr) :
    Calls (LoggerLocks.attach p a ap : Routine Val) (fun w => LogIniter.attach p a w ap) :=
  (onWorld_calls _).comp (((setAppenderFormatter_calls ap _).ite skip_calls).comp
    (addAppender_calls p ap))

theorem addDefined_calls (env : Env) (p : Ptr) (a : LogAppenderDefine) :
    Calls (LoggerLocks.addDefined env p a : Routine Val) (fun w => LogIniter.addDefined env p w a) :=
  (newFile_calls env a.file (attach_calls p a)).ite
    ((newStdout_calls (attach_calls p a)).ite skip_calls)

theorem applyDefine_calls (env : Env) (i : LogDefine) :
    Calls (LoggerLocks.applyDefine env i : Routine Val) (fun w => LogIniter.applyDefine env w i) :=
  getLogger_calls i.name fun p =>
    (onWorld_calls _).comp (((setFormatterPattern_calls p i.formatter).ite skip_calls).comp
      ((clearAppender_calls p).comp (forEach_calls (addDefined_calls env p) i.appenders)))

theorem removeDefine_calls (i : LogDefine) :
    Calls (LoggerLocks.removeDefine i : Routine Val) (fun w => LogIniter.removeDefine w i) :=
  getLogger_calls i.name fun p => (onWorld_calls _).comp (clearAppender_calls p)

theorem applyNew_calls (env : Env) (oldValue : LogDefines) (i : LogDefine) :
    Calls (LoggerLocks.applyNew env oldValue i : Routine Val)
      (fun w => LogIniter.applyNew env oldValue w i) := by
  simp only [LoggerLocks.applyNew, LogIniter.applyNew]
  cases oldValue.find? i.name with
  | none => exact applyDefine_calls env i
  | some d => exact skip_calls.ite (applyDefine_calls env i)

theorem removeOld_calls (newValue : LogDefines) (i : LogDefine) :
    Calls (LoggerLocks.removeOld newValue i : Routine Val) (fun w => LogIniter.removeOld newValue w i) := by
  simp only [LoggerLocks.removeOld, LogIniter.removeOld]
  cases newValue.find? i.name with
  | none => exact removeDefine_calls i
  | some d => exact skip_calls

theorem reload_calls (env : Env) (oldValue newValue : LogDefines) :
    Calls (forEach (LoggerLocks.applyNew env oldValue) newValue.toList ∘
        forEach (LoggerLocks.removeOld newValue) oldValue.toList : Routine Val)
      (reload env oldValue newValue) :=
  (forEach_calls (applyNew_calls env oldValue) newValue.toList).comp
    (forEach_calls (removeOld_calls newValue) oldValue.toList)

/-! ### Events -/

/-- Logging leaves all but the streams and the clock as it was. -/
structure SameShared (s t : Shared Val) : Prop where
  world : SameConf s.world t.world
  registry : t.registry = s.registry
  sFunId : t.sFunId = s.sFunId

instance : IsPreorder (Shared Val) SameShared where
  refl s := ⟨.refl s.world, rfl, rfl⟩
  trans _ _ _ h h' :=
    ⟨h.world.trans h'.world, h'.registry.trans h.registry, h'.sFunId.trans h.sFunId⟩

theorem onWorld_leads {f : World → World} (hf : ∀ w, SameConf w (f w)) :
    Leads SameShared (onWorld f : Routine Val) :=
  Leads.update fun s => ⟨hf s.world, rfl, rfl⟩

theorem atLogger_leads {p : Ptr} {f : Logger → Routine Val} (hf : ∀ l, Leads SameShared (f l)) :
    Leads SameShared (atLogger p f) := by
  apply Leads.inspect
  intro s
  cases s.world.loggers.get? p with
  | none => exact Leads.skip
  | some l => exact hf l

theorem atAppender_leads {a : Ptr} {f : LogAppender → Routine Val}
    (hf : ∀ ap, Leads SameShared (f ap)) : Leads SameShared (atAppender a f) := by
  apply Leads.inspect
  intro s
  cases s.world.appenders.get? a with
  | none => exact Leads.skip
  | some ap => exact hf ap

/-- A change of the kind of an appender that keeps where it writes. -/
theorem kind_sameConf (w : World) (a : Ptr) {f : Kind → Kind}
    (hf : ∀ k, destination (f k) = destination k) (ticks : Nat) :
    SameConf w { w with
      appenders := w.appenders.modify a (fun ap => { ap with kind := f ap.kind })
      ticks := ticks } := by
  cases ha : w.appenders.get? a with
  | none =>
    rw [Heap.modify_eq_self (by simp [ha])]
    exact ⟨rfl, rfl, rfl, rfl⟩
  | some ap =>
    have hmodify : w.appenders.modify a (fun ap => { ap with kind := f ap.kind }) =
        w.appenders.modify a (fun _ => { ap with kind := f ap.kind }) :=
      Heap.modify_congr (by simp [ha])
    rw [hmodify]
    exact sameConf_modify ha (by simp [conf, hf]) ticks

theorem destination_reopenKind (ok : Bool) (k : Kind) :
    destination (Appender.reopenKind ok k) = destination k := by
  cases k <;> rfl

theorem destination_setLastTime (now : Nat) (k : Kind) :
    destination (Appender.setLastTime now k) = destination k := by
  cases k <;> rfl

theorem appenderReopen_leads (env : Env) (a : Ptr) :
    Leads SameShared (Appender.reopen env a : Routine Val) :=
  (onWorld_leads fun w => kind_sameConf w a (destination_reopenKind _) _).guarded

theorem appenderRefresh_leads (env : Env) (a : Ptr) (now : Nat) :
    Leads SameShared (Appender.refresh env a now : Routine Val) := by
  apply atAppender_leads
  intro ap
  cases ap.kind with
  | stdout => exact Leads.skip
  | file filename stream lastTime =>
    apply Leads.ite _ Leads.skip
    exact Leads.comp (appenderReopen_leads env a)
      (onWorld_leads fun w => kind_sameConf w a (destination_setLastTime now) _)

theorem appenderLog_leads (env : Env) (a : Ptr) (lvl : Level) (event : LogEvent) :
    Leads SameShared (Appender.log env a lvl event : Routine Val) := by
  apply atAppender_leads
  intro ap
  apply Leads.ite _ Leads.skip
  apply Leads.comp (appenderRefresh_leads env a event.time)
  exact (onWorld_leads fun w => kind_sameConf w a (destination_emit _) _).guarded

theorem log_leads (env : Env) (lvl : Level) (event : LogEvent) (hops : Nat) (p : Ptr) :
    Leads SameShared (LoggerLocks.log env lvl event hops p : Routine Val) := by
  induction hops generalizing p with
  | zero => exact Leads.skip
  | succ hops ih =>
    apply Leads.guarded
    apply atLogger_leads
    intro l
    apply Leads.ite _ Leads.skip
    by_cases hnil : l.appenders ≠ []
    · rw [if_pos hnil]
      exact Leads.forEach (fun a => appenderLog_leads env a lvl event) l.appenders
    · rw [if_neg hnil]
      cases l.root with
      | none => exact Leads.skip
      | some r => exact ih r

theorem logLevel_leads (env : Env) (hops : Nat) (site : World.Site) (p : Ptr) (lvl : Level) :
    Leads SameShared (LoggerLocks.logLevel env hops site p lvl id : Routine Val) := by
  apply atLogger_leads
  intro l
  apply Leads.ite _ Leads.skip
  apply Leads.atomically (fun s => ⟨⟨rfl, rfl, rfl, rfl⟩, rfl, rfl⟩)
  exact fun s => log_leads env lvl _ hops p

/-- The routine of the listener, alone, logs and reloads as the listener does. -/
theorem onLogConfChanged_alone (env : Env) (hops : Nat) (oldValue newValue : LogDefines)
    (k : Prog Lock (Shared Val)) (s : Shared Val) :
    ∃ w, SameConf s.world w ∧
      (LoggerLocks.onLogConfChanged env hops oldValue newValue k).alone s =
        k.alone { s with world := reload env oldValue newValue w } := by
  obtain ⟨⟨w, registry, sFunId⟩, ⟨hconf, rfl, rfl⟩, hlog⟩ :=
    Leads.inspect (fun s => logLevel_leads env hops LogIniter.site s.world.root .info)
      ((forEach (LoggerLocks.applyNew env oldValue) newValue.toList ∘
        forEach (LoggerLocks.removeOld newValue) oldValue.toList) k) s
  exact ⟨w, hconf, hlog.trans (reload_calls env oldValue newValue k _)⟩

/-! ### Calls -/

section

variable {κ : Type} {V : κ → Type} [DecidableEq κ] [∀ k, BEq (V k)] (x : Setting V)

/-- A call of `setValue` on the configuration of the logs, whose listener is the
one installed at start. -/
theorem setValue_alone {p : Ptr} {s : Shared (ConfigLocks.Val V)}
    {var : ConfigVar World Fault LogDefines} (hvar : varAt s p .logs = some var)
    {cb : Nat × Listener World Fault LogDefines} (hcbs : var.cbs.toList = [cb]) (v : LogDefines)
    (k : Prog Lock (Shared (ConfigLocks.Val V))) :
    if v = var.val then (ConfigLocks.setValue x p .logs v k).alone s = k.alone s
    else ∃ w, SameConf s.world w ∧ (ConfigLocks.setValue x p .logs v k).alone s =
      k.alone (changeVar p .logs (fun var => var.setValueWrite v)
        { s with world := reload x.env var.val v w }) := by
  rw [ConfigLocks.setValue, critical, Prog.alone, Prog.alone, hvar]
  by_cases hv : v = var.val
  · simp [hv, Prog.alone]
  · obtain ⟨w, hconf, hlisten⟩ := onLogConfChanged_alone x.env x.hops var.val v
      (.unlock (.configVar p) (guarded (.configVar p) .write
        (update (changeVar p .logs (fun var => var.setValueWrite v))) k)) s
    have hne : ¬ (v == var.val) = true := by simpa using hv
    rw [if_neg hv]
    refine ⟨w, hconf, ?_⟩
    simp only [if_neg hne, hcbs]
    exact hlisten

/-- A call that nobody comes between returns, and gives back the locks it took. -/
theorem call_returns {root : Ptr} {s : System Lock (Shared (ConfigLocks.Val V))}
    (hroot : Rooted root s.shared.world) {i : Nat} (hi : s.threads[i]? = some ⟨[], .done⟩)
    (hothers : ∀ j t, j ≠ i → s.threads[j]? = some t → t.held = []) (op : Operation V) :
    ∃ n, exec step s ((Request.call i op :: List.replicate n (.run i)).map (Request.act x)) =
      .ok ⟨(op.routine x .done).alone s.shared, s.threads⟩ := by
  have hlt := (List.getElem?_eq_some_iff.mp hi).1
  have hsafe := routine_safe x root op [] .done (by simp) rfl
  obtain ⟨n, hn⟩ := exec_alone (I := fun s => Rooted root s.world) hroot hsafe
    (List.getElem?_set_self hlt) (set_held hothers _)
  rw [List.set_set, set_same hi] at hn
  refine ⟨n, ?_⟩
  rw [List.map_cons, List.map_replicate]
  refine exec_cons_ok ?_ hn
  simp only [Request.act, step, hi]

end

end Mumu.LockedCalls
