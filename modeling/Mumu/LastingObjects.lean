import Mumu.LockGuarantees
import Mumu.LoggerFrames
import Mumu.ReturningCalls

namespace Mumu.LastingObjects

open Mumu.LogLevels Mumu.LogItems Mumu.PatternScanner Mumu.LogAppenders Mumu.Loggers
open Mumu.PointerHeap Mumu.KeyedSets Mumu.ConfigVars Mumu.YamlNodes Mumu.Config Mumu.LogIniter
open Mumu.LogDelivery Mumu.LoggerFrames Mumu.Executions Mumu.Mutexes Mumu.LockOrder
open Mumu.LockGuarantees Mumu.LoggerLocks Mumu.ConfigLocks Mumu.ReturningCalls

/-! ### What stays -/

section

variable {τ : Type} {Val : τ → Type}

/-- Names keep their loggers, and appenders with a formatter have one still. -/
structure WorldStays (w w' : World) : Prop where
  managed : ∀ name p, KeyedMap.get? w.managed name = some p →
    KeyedMap.get? w'.managed name = some p
  live : ∀ a, w.appenders.Has (fun _ => True) a → w'.appenders.Has (fun _ => True) a
  formatted : ∀ a, w.appenders.Has Formatted a → w'.appenders.Has Formatted a

/-- Names keep their variables, and these their types. -/
structure RegistryStays (r r' : Registry World Fault Val) : Prop where
  datas : ∀ name p, r.lookupBase name = some p → r'.lookupBase name = some p
  typed : ∀ p t, r.vars.Has (fun v => v.1 = t) p → r'.vars.Has (fun v => v.1 = t) p

structure Stays (s t : Shared Val) : Prop where
  world : WorldStays s.world t.world
  registry : RegistryStays s.registry t.registry

theorem WorldStays.refl (w : World) : WorldStays w w :=
  ⟨fun _ _ h => h, fun _ h => h, fun _ h => h⟩

theorem RegistryStays.refl (r : Registry World Fault Val) : RegistryStays r r :=
  ⟨fun _ _ h => h, fun _ _ h => h⟩

instance : IsPreorder (Shared Val) Stays where
  refl s := ⟨.refl s.world, .refl s.registry⟩
  trans _ _ _ h h' :=
    { world := ⟨fun n p hp => h'.world.managed n p (h.world.managed n p hp),
        fun a ha => h'.world.live a (h.world.live a ha),
        fun a ha => h'.world.formatted a (h.world.formatted a ha)⟩
      registry := ⟨fun n p hp => h'.registry.datas n p (h.registry.datas n p hp),
        fun p t hp => h'.registry.typed p t (h.registry.typed p t hp)⟩ }

end

/-! ### Updates of the world -/

/-- An update that others can rely on. -/
structure Kept (w w' : World) : Prop where
  stays : WorldStays w w'
  wellFormed : WellFormed w'

section

variable {w w' : World}

theorem Kept.ofLoggers (hw' : WellFormed w') (hmanaged : w'.managed = w.managed)
    (happenders : w'.appenders = w.appenders) : Kept w w' := by
  refine ⟨⟨?_, ?_, ?_⟩, hw'⟩
  · rw [hmanaged]
    exact fun _ _ h => h
  all_goals
    rw [happenders]
    exact fun _ h => h

theorem Kept.ticks (h : Kept w w') (n : Nat) : Kept w { w' with ticks := n } :=
  ⟨⟨h.stays.managed, h.stays.live, h.stays.formatted⟩, h.wellFormed.bound,
    h.wellFormed.root_bound, h.wellFormed.formatted, h.wellFormed.ready⟩

variable (hw : WellFormed w)

include hw

theorem modifyAppender_kept (a : Ptr) {f : LogAppender → LogAppender}
    (hf : ∀ ap, Formatted ap → Formatted (f ap)) :
    Kept w { w with appenders := w.appenders.modify a f } :=
  ⟨⟨fun _ _ h => h, fun _ h => h.modify a fun _ h => h, fun _ h => h.modify a hf⟩,
    updateAppenders_wellFormed hw _ fun _ h => h.modify a hf⟩

theorem newAppender_kept (a : LogAppender) : Kept w (w.newAppender a).1 :=
  ⟨⟨fun _ _ h => h, fun _ h => h.alloc a, fun _ h => h.alloc a⟩, newAppender_wellFormed hw a⟩

theorem getLogger_kept (name : Str) : Kept w (w.getLogger name).1 := by
  refine ⟨?_, getLogger_wellFormed hw name⟩
  rw [World.getLogger]
  split
  · exact .refl w
  · rename_i hnew
    refine ⟨fun n p hp => ?_, fun _ h => h, fun _ h => h⟩
    have hn : name ≠ n := by
      rintro rfl
      rw [hp] at hnew
      cases hnew
    exact (KeyedMap.get?_insert_of_new hnew n).trans ((if_neg hn).trans hp)

theorem setLoggerFormatter_kept (p : Ptr) (val : LogFormatter) :
    Kept w { w with
      loggers := w.loggers.modify p (fun l => { l with formatter := some val }) } :=
  .ofLoggers (update_wellFormed hw p _ w.appenders (fun _ => rfl) (fun _ => rfl)
    (fun _ _ => ⟨val, rfl⟩) (fun _ h => h) fun _ _ _ h => .inl h) rfl rfl

theorem pushAppender_kept (p : Ptr) {a : Ptr} (ha : w.appenders.Has Formatted a) :
    Kept w { w with
      loggers := w.loggers.modify p (fun l => { l with appenders := l.appenders ++ [a] }) } := by
  refine .ofLoggers (update_wellFormed hw p _ w.appenders (fun _ => rfl) (fun _ => rfl)
    (fun _ h => h) (fun _ h => h) fun l _ b hb => ?_) rfl rfl
  refine (List.mem_append.mp hb).imp_right fun h => ?_
  rwa [List.mem_singleton.mp h]

end

theorem inherit_formatted (val : LogFormatter) {ap : LogAppender} (h : Formatted ap) :
    Formatted (World.inherit (some val) ap) := by
  rw [World.inherit]
  split
  · exact h
  · exact ⟨val, rfl⟩

/-! ### Routines of loggers and appenders -/

section

variable {τ : Type} {Val : τ → Type}

def Sound (s : Shared Val) : Prop := WellFormed s.world

/-- A routine that leaves what others have found as it is. -/
abbrev Lasting (p : Routine Val) : Prop := Allowed Stays Sound p

theorem onWorld_stays {s : Shared Val} {f : World → World} (h : Kept s.world (f s.world)) :
    Stays s { s with world := f s.world } ∧ Sound { s with world := f s.world } :=
  ⟨⟨h.stays, .refl s.registry⟩, h.wellFormed⟩

theorem onWorld_lasting {f : World → World} (hf : ∀ w, WellFormed w → Kept w (f w)) :
    Lasting (onWorld f : Routine Val) :=
  Allowed.update fun s hs => onWorld_stays (hf s.world hs)

theorem atLogger_lasting {p : Ptr} {f : Logger → Routine Val}
    (hf : ∀ l, (∃ x, l.formatter = some x) → Lasting (f l)) : Lasting (atLogger p f) := by
  apply Allowed.inspect
  intro s hs
  cases hl : s.world.loggers.get? p with
  | none => exact Allowed.skip
  | some l => exact hf l (hs.formatted p l hl)

theorem atAppender_lasting {a : Ptr} {f : LogAppender → Routine Val}
    (hf : ∀ ap, Lasting (f ap)) : Lasting (atAppender a f) := by
  apply Allowed.inspect
  intro s _
  split
  · exact Allowed.skip
  · exact hf _

namespace Appender

variable (env : Env) (a : Ptr)

theorem onAppender_lasting {f : LogAppender → LogAppender}
    (hf : ∀ ap, Formatted ap → Formatted (f ap)) :
    Lasting (Appender.onAppender a f : Routine Val) :=
  onWorld_lasting fun _ hw => modifyAppender_kept hw a hf

theorem onStream_lasting (f : Nat → Kind → Kind) :
    Lasting (Appender.onStream a f : Routine Val) :=
  onWorld_lasting fun w hw =>
    (modifyAppender_kept hw a (f := fun ap => { ap with kind := f w.ticks ap.kind })
      fun _ h => h).ticks _

theorem setFormatter_lasting (val : LogFormatter) :
    Lasting (Appender.setFormatter a (some val) : Routine Val) :=
  Allowed.guarded (onWorld_lasting fun _ hw => modifyAppender_kept hw a fun _ _ => ⟨val, rfl⟩)

theorem getFormatter_lasting {g : Option LogFormatter → Routine Val} (hg : ∀ f, Lasting (g f)) :
    Lasting (Appender.getFormatter a g) :=
  Allowed.critical (fun _ hs => ⟨refl _, hs⟩) (fun _ _ => Allowed.skip) fun _ _ => hg _

theorem reopen_lasting : Lasting (Appender.reopen env a : Routine Val) :=
  Allowed.guarded (onStream_lasting a _)

theorem refresh_lasting (now : Nat) : Lasting (Appender.refresh env a now : Routine Val) := by
  apply atAppender_lasting
  intro ap
  split
  · exact Allowed.skip
  · refine Allowed.ite ((reopen_lasting env a).comp ?_) Allowed.skip
    exact onAppender_lasting a fun _ h => h

theorem log_lasting (lvl : Level) (event : LogEvent) :
    Lasting (Appender.log env a lvl event : Routine Val) := by
  apply atAppender_lasting
  intro ap
  apply Allowed.ite _ Allowed.skip
  exact (refresh_lasting env a event.time).comp (Allowed.guarded (onStream_lasting a _))

theorem toYamlString_lasting : Lasting (Appender.toYamlString a : Routine Val) :=
  Allowed.guarded Allowed.skip

theorem new_lasting (ap : LogAppender) {g : World → Routine Val} (hg : ∀ w, Lasting (g w)) :
    Lasting (atomically (fun s : Shared Val => { s with world := (s.world.newAppender ap).1 })
      fun s => g s.world) :=
  Allowed.atomically (fun _ hs => onWorld_stays (f := fun w => (w.newAppender ap).1)
    (newAppender_kept hs ap)) fun _ _ => hg _

theorem newStdout_lasting {g : Ptr → Routine Val} (hg : ∀ a, Lasting (g a)) :
    Lasting (Appender.newStdout g) :=
  new_lasting .newStdout (g := fun w => g w.newStdoutAppender.2) fun _ => hg _

theorem newFile_lasting (filename : Str) {g : Ptr → Routine Val} (hg : ∀ a, Lasting (g a)) :
    Lasting (Appender.newFile env filename g) :=
  new_lasting _ (g := fun w => Appender.reopen env (w.newAppender _).2 ∘ g (w.newAppender _).2)
    fun _ => (reopen_lasting env _).comp (hg _)

end Appender

theorem log_lasting (env : Env) (lvl : Level) (event : LogEvent) (hops : Nat) (p : Ptr) :
    Lasting (LoggerLocks.log env lvl event hops p : Routine Val) := by
  induction hops generalizing p with
  | zero => exact Allowed.skip
  | succ hops ih =>
    apply Allowed.guarded
    apply atLogger_lasting
    intro l _
    apply Allowed.ite _ Allowed.skip
    apply Allowed.ite
    · exact Allowed.forEach fun a _ => Appender.log_lasting env a lvl event
    · split
      · exact Allowed.skip
      · exact ih _

section

variable (p : Ptr)

theorem setFormatter_lasting (val : LogFormatter) :
    Lasting (LoggerLocks.setFormatter p (some val) : Routine Val) := by
  apply Allowed.guarded
  refine Allowed.comp (onWorld_lasting fun w hw => setLoggerFormatter_kept hw p val) ?_
  apply atLogger_lasting
  intro l _
  apply Allowed.forEach
  intro a _
  exact Allowed.guarded (Appender.onAppender_lasting a fun _ => inherit_formatted val)

theorem setFormatterPattern_lasting (val : Str) :
    Lasting (LoggerLocks.setFormatterPattern p val : Routine Val) :=
  Allowed.ite Allowed.skip (setFormatter_lasting p _)

theorem toYamlString_lasting : Lasting (LoggerLocks.toYamlString p : Routine Val) := by
  apply Allowed.guarded
  apply atLogger_lasting
  intro l _
  exact Allowed.forEach fun a _ => Appender.toYamlString_lasting a

/-- The appender is without a formatter at most until it is given the logger's. -/
theorem giveFormatter_formatted {a : Ptr} {val : LogFormatter} :
    Ensures Stays Sound (fun s : Shared Val => s.world.appenders.Has (fun _ => True) a)
      (Appender.getFormatter a fun formatter =>
        if formatter = none then
          guarded (.logAppender a) .write
            (Appender.onAppender a (fun ap => { ap with formatter := some val }))
        else id)
      fun s => s.world.appenders.Has Formatted a := by
  have hlive : Stable Stays fun s : Shared Val => s.world.appenders.Has (fun _ => True) a :=
    fun _ _ h ha => h.world.live a ha
  refine Ensures.critical hlive
    (F := fun s t => t.world.appenders.Has (fun _ => True) a ∧
      ((s.world.appenders.get? a).bind LogAppender.formatter ≠ none →
        t.world.appenders.Has Formatted a))
    (fun s hs ha => ⟨refl s, hs, ha, fun hne => ?_⟩) (fun s _ _ => Ensures.skip fun _ _ h => h)
    fun s _ _ => ?_
  · obtain ⟨f, hf⟩ := Option.ne_none_iff_exists'.mp hne
    obtain ⟨ap, hap, hapf⟩ := Option.bind_eq_some_iff.mp hf
    exact ⟨ap, hap, f, hapf⟩
  · dsimp only
    split
    · refine Ensures.of_imp (Ensures.guarded (Ensures.update hlive ?_)) fun _ h => h.1
      rintro t ht ⟨ap, hap, -⟩
      have hkept := modifyAppender_kept ht a (f := fun ap => { ap with formatter := some val })
        fun _ _ => ⟨val, rfl⟩
      obtain ⟨hstays, hsound⟩ := onWorld_stays (s := t) (f := fun w => { w with
        appenders := w.appenders.modify a (fun ap => { ap with formatter := some val }) }) hkept
      refine ⟨hstays, hsound, { ap with formatter := some val }, ?_, val, rfl⟩
      exact (Heap.get?_modify_self ..).trans (congrArg _ hap)
    · rename_i hne
      exact Ensures.skip fun _ _ h => h.2 hne

/-- Others may come between any two of the steps; what they do leaves the appender its
formatter. -/
theorem addAppender_lasting (a : Ptr) : Lasting (LoggerLocks.addAppender p a : Routine Val) := by
  have hformatted : Stable Stays fun s : Shared Val => s.world.appenders.Has Formatted a :=
    fun _ _ h ha => h.world.formatted a ha
  apply Allowed.guarded
  apply atLogger_lasting
  rintro l ⟨val, hval⟩
  refine Ensures.atomically stable_true
    (F := fun s t => s.world.appenders.Has (fun _ => True) a →
      t.world.appenders.Has (fun _ => True) a)
    (fun s hs _ => ⟨refl s, hs, id⟩) fun s _ _ => ?_
  cases hap : s.world.appenders.get? a with
  | none => exact Ensures.skip fun _ _ _ => trivial
  | some ap =>
    dsimp only
    rw [hval]
    refine (Ensures.comp giveFormatter_formatted (Ensures.update hformatted ?_)).of_imp
      fun t ht => ht ⟨ap, hap, trivial⟩
    intro t ht ha
    obtain ⟨hstays, hsound⟩ := onWorld_stays (s := t) (f := fun w => { w with
      loggers := w.loggers.modify p (fun l => { l with appenders := l.appenders ++ [a] }) })
      (pushAppender_kept ht p ha)
    exact ⟨hstays, hsound, trivial⟩

theorem delAppender_lasting (a : Ptr) : Lasting (LoggerLocks.delAppender p a : Routine Val) :=
  Allowed.guarded (onWorld_lasting fun _ hw => .ofLoggers (delAppender_wellFormed hw p a) rfl rfl)

theorem clearAppender_lasting : Lasting (LoggerLocks.clearAppender p : Routine Val) :=
  Allowed.guarded (onWorld_lasting fun _ hw => .ofLoggers (clearAppender_wellFormed hw p) rfl rfl)

theorem setLevel_lasting (level : Level) : Lasting (LoggerLocks.setLevel p level : Routine Val) :=
  onWorld_lasting fun _ hw => .ofLoggers (setLevel_wellFormed hw p level) rfl rfl

end

section

variable (env : Env)

theorem logLevel_lasting (hops : Nat) (site : World.Site) (p : Ptr) (lvl : Level)
    {args : Routine Val} (hargs : Lasting args) :
    Lasting (LoggerLocks.logLevel env hops site p lvl args) := by
  apply atLogger_lasting
  intro l _
  apply Allowed.ite _ Allowed.skip
  apply Allowed.atomically
  · intro s hs
    have hkept : Kept s.world s.world := ⟨.refl s.world, hs⟩
    exact onWorld_stays (f := fun w => { w with ticks := w.ticks + 1 }) (hkept.ticks _)
  · exact fun s _ => hargs.comp (log_lasting env lvl _ hops p)

theorem logRoot_lasting (hops : Nat) (site : World.Site) (lvl : Level) {args : Routine Val}
    (hargs : Lasting args) : Lasting (LoggerLocks.logRoot env hops site lvl args) :=
  Allowed.inspect fun _ _ => logLevel_lasting env hops site _ lvl hargs

theorem getLogger_lasting (name : Str) {g : Ptr → Routine Val} (hg : ∀ p, Lasting (g p)) :
    Lasting (LoggerLocks.getLogger name g) :=
  Allowed.critical
    (fun _ hs => onWorld_stays (f := fun w => (w.getLogger name).1) (getLogger_kept hs name))
    (fun _ _ => Allowed.skip) fun _ _ => hg _

theorem managerToYamlString_lasting : Lasting (managerToYamlString : Routine Val) :=
  Allowed.guarded (Allowed.inspect fun _ _ => Allowed.forEach fun e _ => toYamlString_lasting e.2)

theorem newLogger_lasting (name : Str) :
    Lasting (onWorld fun w => { w with
      loggers := w.loggers.alloc (.new name), managed := w.managed } : Routine Val) :=
  onWorld_lasting fun _ hw => .ofLoggers (allocLogger_wellFormed hw _ ⟨_, rfl⟩ rfl) rfl rfl

/-! ### LogIniter -/

theorem attach_lasting (p : Ptr) (a : LogAppenderDefine) (ap : Ptr) :
    Lasting (LoggerLocks.attach p a ap : Routine Val) := by
  refine Allowed.comp (onWorld_lasting fun _ hw => modifyAppender_kept hw ap fun _ h => h) ?_
  refine Allowed.comp ?_ (addAppender_lasting p ap)
  exact Allowed.ite (Appender.setFormatter_lasting ap _) Allowed.skip

theorem addDefined_lasting (p : Ptr) (a : LogAppenderDefine) :
    Lasting (LoggerLocks.addDefined env p a : Routine Val) := by
  apply Allowed.ite
  · exact Appender.newFile_lasting env a.file (attach_lasting p a)
  · exact Allowed.ite (Appender.newStdout_lasting (attach_lasting p a)) Allowed.skip

theorem applyDefine_lasting (i : LogDefine) :
    Lasting (LoggerLocks.applyDefine env i : Routine Val) := by
  apply getLogger_lasting
  intro p
  apply Allowed.comp (setLevel_lasting p i.level)
  apply Allowed.comp (Allowed.ite (setFormatterPattern_lasting p i.formatter) Allowed.skip)
  apply Allowed.comp (clearAppender_lasting p)
  exact Allowed.forEach fun a _ => addDefined_lasting env p a

theorem removeDefine_lasting (i : LogDefine) :
    Lasting (LoggerLocks.removeDefine i : Routine Val) := by
  apply getLogger_lasting
  intro p
  exact (setLevel_lasting p .unkonw).comp (clearAppender_lasting p)

theorem applyNew_lasting (oldValue : LogDefines) (i : LogDefine) :
    Lasting (LoggerLocks.applyNew env oldValue i : Routine Val) := by
  rw [LoggerLocks.applyNew]
  split
  · exact applyDefine_lasting env i
  · exact Allowed.ite Allowed.skip (applyDefine_lasting env i)

theorem removeOld_lasting (newValue : LogDefines) (i : LogDefine) :
    Lasting (LoggerLocks.removeOld newValue i : Routine Val) := by
  rw [LoggerLocks.removeOld]
  split
  · exact removeDefine_lasting i
  · exact Allowed.skip

theorem onLogConfChanged_lasting (hops : Nat) (oldValue newValue : LogDefines) :
    Lasting (LoggerLocks.onLogConfChanged env hops oldValue newValue : Routine Val) := by
  apply Allowed.comp (logRoot_lasting env hops site .info Allowed.skip)
  apply Allowed.comp
  · exact Allowed.forEach fun i _ => applyNew_lasting env oldValue i
  · exact Allowed.forEach fun i _ => removeOld_lasting newValue i

end

end

/-! ### Routines of variables and the registry -/

section

variable {κ : Type} {V : κ → Type}

theorem registry_lasting {f : Shared (Val V) → Shared (Val V)}
    (hworld : ∀ s, (f s).world = s.world)
    (hregistry : ∀ s, RegistryStays s.registry (f s).registry) :
    Lasting (update f : Routine (Val V)) := by
  refine Allowed.update fun s hs => ⟨⟨?_, hregistry s⟩, ?_⟩
  · rw [hworld]
    exact .refl s.world
  · rw [Sound, hworld]
    exact hs

/-- A look-up that makes a variable, makes it under a name that has none. -/
theorem lookup_stays [DecidableEq κ] {r r' : Registry World Fault (Val V)} {name : Str}
    {t : VarType κ} {defaultVal : Val V t} {description : Str} {p : Option Ptr}
    (h : r.lookup name t defaultVal description = .ok (r', p)) : RegistryStays r r' := by
  rw [Registry.lookup] at h
  split at h
  · cases h
    exact .refl r
  · rename_i hnew
    split at h
    · cases h
      refine ⟨fun n q hq => ?_, fun q t hq => hq.alloc _⟩
      have hn : name ≠ n := by
        rintro rfl
        rw [hq] at hnew
        cases hnew
      exact (KeyedMap.get?_insert_of_new hnew n).trans ((if_neg hn).trans hq)
    · cases h

variable (x : Setting V)

theorem logOnRoot_lasting (lvl : Level) {args : Routine (Val V)} (hargs : Lasting args) :
    Lasting (logOnRoot x lvl args) :=
  logRoot_lasting x.env x.hops x.site lvl hargs

theorem onChange_lasting (t : VarType κ) (oldValue newValue : Val V t) :
    Lasting (onChange x t oldValue newValue) := by
  cases t with
  | logs => exact onLogConfChanged_lasting x.env x.hops oldValue newValue
  | other k => exact Allowed.skip

theorem toString_lasting (p : Ptr) : Lasting (ConfigLocks.toString x p) := by
  refine Allowed.critical (fun _ hs => ⟨refl _, hs⟩) (fun _ _ => Allowed.skip) fun s _ => ?_
  split
  · exact Allowed.skip
  · split
    · exact Allowed.skip
    · exact logOnRoot_lasting x .error Allowed.skip

theorem lookupBase_lasting (name : Str) {g : Option Ptr → Routine (Val V)}
    (hg : ∀ p, Lasting (g p)) : Lasting (lookupBase name g) :=
  Allowed.critical (fun _ hs => ⟨refl _, hs⟩) (fun _ _ => Allowed.skip) fun _ _ => hg _

theorem logName_lasting {pre : Str} {members : Routine (Val V)} (hmembers : Lasting members) :
    Lasting (if validName pre then members else logOnRoot x .error id) :=
  Allowed.ite hmembers (logOnRoot_lasting x .error Allowed.skip)

mutual

theorem logMembers_lasting (pre : Str) (node : Node) : Lasting (logMembers x pre node) := by
  cases node with
  | map entries =>
    rw [logMembers]
    exact logName_lasting x (logEntries_lasting pre entries)
  | null | scalar s | seq items =>
    simp only [logMembers]
    exact logName_lasting x Allowed.skip

theorem logEntries_lasting (pre : Str) (entries : List (Node × Node)) :
    Lasting (logEntries x pre entries) := by
  cases entries with
  | nil =>
    rw [logEntries]
    exact Allowed.skip
  | cons e entries =>
    rw [logEntries]
    exact (logMembers_lasting _ _).comp (logEntries_lasting pre entries)

end

variable [DecidableEq κ]

omit x in
theorem put_stays {s : Shared (Val V)} {p : Ptr} {t : VarType κ}
    {var var' : ConfigVar World Fault (Val V t)} (h : varAt s p t = some var) :
    RegistryStays s.registry (s.registry.put p ⟨t, var'⟩) := by
  refine ⟨fun _ _ h => h, fun q u hq => ?_⟩
  obtain ⟨v, hv, rfl⟩ := hq
  have hget : (s.registry.put p ⟨t, var'⟩).vars.get? q =
      if p = q then (s.registry.vars.get? q).map (fun _ => ⟨t, var'⟩)
      else s.registry.vars.get? q := Heap.get?_modify ..
  rw [Heap.Has, hget, hv]
  by_cases hpq : p = q
  · subst hpq
    rw [if_pos rfl, Option.map_some]
    refine ⟨_, rfl, ?_⟩
    rw [varAt, hv] at h
    dsimp only at h
    split at h
    · rename_i ht
      exact ht.symm
    · cases h
  · rw [if_neg hpq]
    exact ⟨v, rfl, rfl⟩

section

variable (p : Ptr) (t : VarType κ)
  (f : ConfigVar World Fault (Val V t) → ConfigVar World Fault (Val V t))

theorem changeVar_world (s : Shared (Val V)) : (changeVar p t f s).world = s.world := by
  rw [changeVar]
  split <;> rfl

theorem changeVar_stays (s : Shared (Val V)) :
    RegistryStays s.registry (changeVar p t f s).registry := by
  rw [changeVar]
  split
  · exact .refl s.registry
  · rename_i var hvar
    exact put_stays hvar

theorem changeVar_lasting : Lasting (update (changeVar p t f) : Routine (Val V)) :=
  registry_lasting (changeVar_world p t f) (changeVar_stays p t f)

end

theorem addListener_lasting (p : Ptr) (t : VarType κ) (cb : Listener World Fault (Val V t)) :
    Lasting (ConfigLocks.addListener p t cb) :=
  Allowed.guarded (registry_lasting (fun _ => changeVar_world p t _ _) fun s =>
    changeVar_stays p t _
      { s with sFunId := Function.update s.sFunId t ((s.sFunId t + 1) % 2 ^ 64) })

theorem lookup_lasting (name : Str) (t : VarType κ) (defaultVal : Val V t) (description : Str) :
    Lasting (ConfigLocks.lookup x name t defaultVal description) := by
  refine Allowed.guarded (Allowed.inspect fun s _ => ?_)
  split
  · split
    · exact Allowed.skip
    · apply Allowed.ite
      · exact logOnRoot_lasting x .info Allowed.skip
      · exact logOnRoot_lasting x .error (toString_lasting x _)
  · apply Allowed.ite
    · refine registry_lasting (fun s => ?_) fun s => ?_
      · split <;> rfl
      · split
        · rename_i r p hr
          exact lookup_stays hr
        · exact .refl s.registry
    · exact logOnRoot_lasting x .error Allowed.skip

variable [∀ k, BEq (V k)]

theorem setValue_lasting (p : Ptr) (t : VarType κ) (v : Val V t) :
    Lasting (ConfigLocks.setValue x p t v) := by
  refine Allowed.critical (fun _ hs => ⟨refl _, hs⟩) (fun s _ => ?_) fun s _ => ?_
  · split
    · exact Allowed.skip
    · exact Allowed.ite Allowed.skip (Allowed.forEach fun _ _ => onChange_lasting x t _ v)
  · split
    · exact Allowed.skip
    · exact Allowed.ite Allowed.skip (Allowed.guarded (changeVar_lasting p t _))

theorem fromString_lasting (p : Ptr) (val : Str) : Lasting (ConfigLocks.fromString x p val) := by
  apply Allowed.inspect
  intro s _
  split
  · exact Allowed.skip
  · split
    · exact setValue_lasting x p _ _
    · exact logOnRoot_lasting x .error Allowed.skip

theorem loadNode_lasting (i : Str × Node) : Lasting (ConfigLocks.loadNode x i) := by
  refine Allowed.ite Allowed.skip (lookupBase_lasting _ fun p => ?_)
  cases p with
  | none => exact Allowed.skip
  | some p => exact fromString_lasting x p _

theorem loadFromYaml_lasting (node : Node) : Lasting (ConfigLocks.loadFromYaml x node) :=
  (logMembers_lasting x [] node).comp (Allowed.forEach fun i _ => loadNode_lasting x i)

end

/-! ### Calls -/

section

variable {κ : Type} {V : κ → Type} [DecidableEq κ] [∀ k, BEq (V k)] (x : Setting V)

/-- No formatter is taken away. -/
def GivesFormatters : Operation V → Prop
  | .setFormatter _ val | .appenderSetFormatter _ val => val ≠ none
  | _ => True

theorem routine_lasting {op : Operation V} (hop : GivesFormatters op) :
    Lasting (op.routine x) := by
  cases op with
  | lookup name t defaultVal description => exact lookup_lasting x name t defaultVal description
  | lookupName => exact Allowed.guarded Allowed.skip
  | lookupBase name => exact lookupBase_lasting name fun _ => Allowed.skip
  | loadFromYaml node => exact loadFromYaml_lasting x node
  | getValue p | getListener p => exact Allowed.guarded Allowed.skip
  | setValue p t v => exact setValue_lasting x p t v
  | fromString p val => exact fromString_lasting x p val
  | toString p => exact toString_lasting x p
  | addListener p t cb => exact addListener_lasting p t cb
  | delListener p t key | clearListener p t =>
    exact Allowed.guarded (changeVar_lasting p t _)
  | getLogger name => exact getLogger_lasting name fun _ => Allowed.skip
  | managerToYamlString => exact managerToYamlString_lasting
  | log p lvl event => exact log_lasting x.env lvl event x.hops p
  | logLevel p lvl => exact logLevel_lasting x.env x.hops x.site p lvl Allowed.skip
  | setLevel p level => exact setLevel_lasting p level
  | setFormatter p val =>
    obtain ⟨f, rfl⟩ := Option.ne_none_iff_exists'.mp hop
    exact setFormatter_lasting p f
  | setFormatterPattern p val => exact setFormatterPattern_lasting p val
  | getFormatter p => exact Allowed.guarded Allowed.skip
  | addAppender p a => exact addAppender_lasting p a
  | delAppender p a => exact delAppender_lasting p a
  | clearAppender p => exact clearAppender_lasting p
  | loggerToYamlString p => exact toYamlString_lasting p
  | newLogger name => exact newLogger_lasting name
  | newStdoutAppender => exact Appender.newStdout_lasting fun _ => Allowed.skip
  | newFileAppender filename => exact Appender.newFile_lasting x.env filename fun _ => Allowed.skip
  | appenderLog a lvl event => exact Appender.log_lasting x.env a lvl event
  | appenderReopen a => exact Appender.reopen_lasting x.env a
  | appenderSetFormatter a val =>
    obtain ⟨f, rfl⟩ := Option.ne_none_iff_exists'.mp hop
    exact Appender.setFormatter_lasting a f
  | appenderGetFormatter a => exact Appender.getFormatter_lasting a fun _ => Allowed.skip
  | appenderToYamlString a => exact Appender.toYamlString_lasting a

theorem visit_lasting (order : Order) {cb : Ptr → List (Action V)}
    (hcb : ∀ p, ∀ a ∈ cb p, ∀ op ∈ a.ops, GivesFormatters op) :
    Lasting (ReturningCalls.visit x order cb) := by
  refine Allowed.guarded (Allowed.inspect fun s _ => ?_)
  refine Allowed.forEach fun e _ => Allowed.forEach fun a ha => ?_
  cases a with
  | call op => exact routine_lasting x (hcb e.2 _ ha op (List.mem_singleton_self op))
  | logOnRoot lvl args =>
    exact logOnRoot_lasting x lvl (Allowed.forEach fun op hop =>
      routine_lasting x (hcb e.2 _ ha op hop))

/-- No call, nor one of a callback, takes a formatter away. -/
def RequestGives : ReturningCalls.Request V → Prop
  | .call _ op => GivesFormatters op
  | .visit _ _ cb => ∀ p, ∀ a ∈ cb p, ∀ op ∈ a.ops, GivesFormatters op
  | .run _ => True

theorem requests_good {reqs : List (ReturningCalls.Request V)}
    (hreqs : ∀ r ∈ reqs, RequestGives r) :
    ∀ a ∈ reqs.map (ReturningCalls.Request.act x), Good Stays Sound a := by
  intro a ha
  obtain ⟨r, hr, rfl⟩ := List.mem_map.mp ha
  cases r with
  | call i op => exact routine_lasting x (hreqs _ hr)
  | visit i order cb => exact visit_lasting x order (hreqs _ hr)
  | run i => trivial

/-- From any moment of a run to any later one, whatever the threads call: an appender
that a logger has had, has a formatter; a name that a logger had been found for has that
logger, with its name and its root; and one that a variable had been found for has that
variable, with its type. -/
theorem calls_last (registry : Registry World Fault (Val V)) (sFunId : VarType κ → Nat) (n : Nat)
    {reqs reqs' : List (ReturningCalls.Request V)} (hreqs : ∀ r ∈ reqs, RequestGives r)
    (hreqs' : ∀ r ∈ reqs', RequestGives r) {s t : System Lock (Shared (Val V))}
    (h : exec step (idle registry sFunId n) (reqs.map (ReturningCalls.Request.act x)) = .ok s)
    (h' : exec step s (reqs'.map (ReturningCalls.Request.act x)) = .ok t) :
    (∀ p l, s.shared.world.loggers.get? p = some l → ∀ a ∈ l.appenders,
      ∃ ap f, t.shared.world.appenders.get? a = some ap ∧ ap.formatter = some f) ∧
    (∀ name p, KeyedMap.get? s.shared.world.managed name = some p →
      KeyedMap.get? t.shared.world.managed name = some p ∧
        ∃ l, t.shared.world.loggers.get? p = some l ∧ l.name = name ∧
          l.root = if name = World.rootName then none else some World.initial.root) ∧
    ∀ name p v, s.shared.registry.lookupBase name = some p →
      s.shared.registry.vars.get? p = some v →
      t.shared.registry.lookupBase name = some p ∧
        ∃ v', t.shared.registry.vars.get? p = some v' ∧ v'.1 = v.1 := by
  have hinitial : Sound (Shared.mk World.initial registry sFunId) := initial_wellFormed
  obtain ⟨hs, hstart⟩ := LockGuarantees.exec_inv (idle_inv hinitial n) (requests_good x hreqs) h
  obtain ⟨ht, hstays⟩ := LockGuarantees.exec_inv hs (requests_good x hreqs') h'
  have hsound : WellFormed t.shared.world := ht.shared
  have hroot : t.shared.world.root = World.initial.root := by
    have hbound := hstays.world.managed _ _
      (hstart.world.managed _ _ initial_wellFormed.root_bound)
    exact Option.some.inj (hsound.root_bound.symm.trans hbound)
  refine ⟨fun p l hl a ha => ?_, fun name p hp => ?_, fun name p v hp hv => ?_⟩
  · have hready := ready_iff.mp (WellFormed.ready hs.shared p l hl a ha)
    obtain ⟨ap, hap, f, hf⟩ := hstays.world.formatted a hready
    exact ⟨ap, f, hap, hf⟩
  · have hp' := hstays.world.managed name p hp
    obtain ⟨l, hl, hname, hlroot⟩ := hsound.bound name p hp'
    exact ⟨hp', l, hl, hname, hroot ▸ hlroot⟩
  · exact ⟨hstays.registry.datas name p hp, hstays.registry.typed p v.1 ⟨v, hv, rfl⟩⟩

/-- A thread adds an appender to the root logger, and another clears its appenders. -/
def adding : List (ReturningCalls.Request fun _ : Empty => Unit) :=
  [.call 0 .newStdoutAppender, .run 0, .call 0 (.addAppender 0 1), .run 0, .run 0, .run 0, .run 0,
    .run 0, .run 0, .run 0, .run 0, .run 0, .run 0, .run 0]

def clearing : List (ReturningCalls.Request fun _ : Empty => Unit) :=
  [.call 1 (.clearAppender 0), .run 1, .run 1, .run 1]

theorem calls_last_cleared :
    ∃ s t, exec step (idle .empty (fun _ => 0) 2)
        (adding.map (ReturningCalls.Request.act bare)) = .ok s ∧
      exec step s (clearing.map (ReturningCalls.Request.act bare)) = .ok t ∧
      (s.shared.world.loggers.get? 0).map Logger.appenders = some [0, 1] ∧
      ∃ ap f, t.shared.world.appenders.get? 1 = some ap ∧ ap.formatter = some f := by
  have hadding : ∀ r ∈ adding, RequestGives r := by simp [adding, RequestGives, GivesFormatters]
  have hclearing : ∀ r ∈ clearing, RequestGives r := by
    simp [clearing, RequestGives, GivesFormatters]
  have hrun : ∃ s t, exec step (idle .empty (fun _ => 0) 2)
        (adding.map (ReturningCalls.Request.act bare)) = .ok s ∧
      exec step s (clearing.map (ReturningCalls.Request.act bare)) = .ok t ∧
      (s.shared.world.loggers.get? 0).map Logger.appenders = some [0, 1] := ⟨_, _, rfl, rfl, rfl⟩
  obtain ⟨s, t, hs, ht, happenders⟩ := hrun
  obtain ⟨l, hl, hlist⟩ := Option.map_eq_some_iff.mp happenders
  refine ⟨s, t, hs, ht, happenders, ?_⟩
  exact (calls_last bare .empty (fun _ => 0) 2 hadding hclearing hs ht).1 0 l hl 1
    (hlist ▸ by decide)

end

end Mumu.LastingObjects
