import Mumu.Config
import Mumu.LockOrder
import Mumu.LogIniter

namespace Mumu.LoggerLocks

open Mumu.LogLevels Mumu.LogItems Mumu.PatternScanner Mumu.LogAppenders Mumu.Loggers
open Mumu.PointerHeap Mumu.KeyedSets Mumu.ConfigVars Mumu.Config Mumu.LogIniter
open Mumu.Mutexes Mumu.LockOrder

inductive Lock where
  | registry
  | configVar (p : Ptr)
  | loggerManager
  | logger (p : Ptr)
  | logAppender (a : Ptr)
  deriving DecidableEq

/-- The order in which locks are taken. -/
def rank (root : Ptr) : Lock → Nat
  | .registry => 0
  | .configVar _ => 1
  | .loggerManager => 2
  | .logger p => if p = root then 4 else 3
  | .logAppender _ => 5

variable {τ : Type} {Val : τ → Type}

/-- What the threads share, with the counter of listeners for each type of
configuration variables. -/
structure Shared (Val : τ → Type) where
  world : World
  registry : Registry World Fault Val
  sFunId : τ → Nat

abbrev Routine (Val : τ → Type) := LockOrder.Routine Lock (Shared Val)

def onWorld (f : World → World) : Routine Val := update (fun s => { s with world := f s.world })

def atLogger (p : Ptr) (f : Logger → Routine Val) : Routine Val :=
  inspect fun s =>
    match s.world.loggers.get? p with
    | none => id
    | some l => f l

def atAppender (a : Ptr) (f : LogAppender → Routine Val) : Routine Val :=
  inspect fun s =>
    match s.world.appenders.get? a with
    | none => id
    | some ap => f ap

/-! ### LogAppender -/

namespace Appender

variable (env : Env)

def onAppender (a : Ptr) (f : LogAppender → LogAppender) : Routine Val :=
  onWorld fun w => { w with appenders := w.appenders.modify a f }

/-- An update by an answer of the environment. -/
def onStream (a : Ptr) (f : Nat → Kind → Kind) : Routine Val :=
  onWorld fun w => { w with
    appenders := w.appenders.modify a (fun ap => { ap with kind := f w.ticks ap.kind })
    ticks := w.ticks + 1 }

def reopenKind (ok : Bool) : Kind → Kind
  | .stdout => .stdout
  | .file filename s lastTime => .file filename (LogAppender.reopen ok s).1 lastTime

def setLastTime (now : Nat) : Kind → Kind
  | .stdout => .stdout
  | .file filename s _ => .file filename s now

def getFormatter (a : Ptr) (g : Option LogFormatter → Routine Val) : Routine Val :=
  critical (.logAppender a) .write id (fun _ => id) fun s =>
    g ((s.world.appenders.get? a).bind LogAppender.formatter)

def setFormatter (a : Ptr) (val : Option LogFormatter) : Routine Val :=
  guarded (.logAppender a) .write (onWorld (fun w => w.setAppenderFormatter a val))

def reopen (a : Ptr) : Routine Val :=
  guarded (.logAppender a) .write (onStream a (fun tick => reopenKind (env.opens tick)))

/-- The stream of a file is brought up to date first. -/
def refresh (a : Ptr) (now : Nat) : Routine Val :=
  atAppender a fun ap =>
    match ap.kind with
    | .stdout => id
    | .file _ _ lastTime =>
      if (lastTime + 3) % 2 ^ 64 ≤ now then
        reopen env a ∘ onAppender a (fun ap => { ap with kind := setLastTime now ap.kind })
      else id

/-- The `log` function of both appenders; a null formatter, with which it would
end the program, is not looked at. -/
def log (a : Ptr) (lvl : Level) (event : LogEvent) : Routine Val :=
  atAppender a fun ap =>
    if ap.level ≤ lvl then
      refresh env a event.time ∘
        guarded (.logAppender a) .write
          (onStream a (fun tick => LogAppender.emit (env.writes tick)))
    else id

def toYamlString (a : Ptr) : Routine Val := guarded (.logAppender a) .write id

def newStdout (g : Ptr → Routine Val) : Routine Val :=
  atomically (fun s => { s with world := s.world.newStdoutAppender.1 }) fun s =>
    g s.world.newStdoutAppender.2

def newFile (filename : Str) (g : Ptr → Routine Val) : Routine Val :=
  let ap : LogAppender := ⟨.file filename .closed 0, .debug, none, false⟩
  atomically (fun s => { s with world := (s.world.newAppender ap).1 }) fun s =>
    reopen env (s.world.newAppender ap).2 ∘ g (s.world.newAppender ap).2

end Appender

/-! ### Logger -/

section

variable (env : Env)

/-- The delegation through the root pointer is cut off after a number of hops. -/
def log (lvl : Level) (event : LogEvent) : Nat → Ptr → Routine Val
  | 0, _ => id
  | hops + 1, p =>
    guarded (.logger p) .write <| atLogger p fun l =>
      if l.level ≤ lvl then
        if l.appenders ≠ [] then forEach (fun a => Appender.log env a lvl event) l.appenders
        else
          match l.root with
          | none => id
          | some r => log lvl event hops r
      else id

def setFormatter (p : Ptr) (val : Option LogFormatter) : Routine Val :=
  guarded (.logger p) .write <|
    onWorld (fun w => { w with
      loggers := w.loggers.modify p (fun l => { l with formatter := val }) }) ∘
    atLogger p fun l =>
      forEach (fun a => guarded (.logAppender a) .write
        (Appender.onAppender a (World.inherit val))) l.appenders

def setFormatterPattern (p : Ptr) (val : Str) : Routine Val :=
  if (LogFormatter.new val).isError then id else setFormatter p (some (.new val))

def getFormatter (p : Ptr) : Routine Val := guarded (.logger p) .write id

def toYamlString (p : Ptr) : Routine Val :=
  guarded (.logger p) .write <| atLogger p fun l => forEach Appender.toYamlString l.appenders

def addAppender (p a : Ptr) : Routine Val :=
  guarded (.logger p) .write <| atLogger p fun l => atAppender a fun _ =>
    Appender.getFormatter a (fun formatter =>
      if formatter = none then
        guarded (.logAppender a) .write
          (Appender.onAppender a (fun ap => { ap with formatter := l.formatter }))
      else id) ∘
    onWorld (fun w => { w with
      loggers := w.loggers.modify p (fun l => { l with appenders := l.appenders ++ [a] }) })

def delAppender (p a : Ptr) : Routine Val :=
  guarded (.logger p) .write (onWorld (fun w => w.delAppender p a))

def clearAppender (p : Ptr) : Routine Val :=
  guarded (.logger p) .write (onWorld (fun w => w.clearAppender p))

def setLevel (p : Ptr) (level : Level) : Routine Val := onWorld (fun w => w.setLevel p level)

/-- The logging macro: what is streamed into the event is evaluated before the
event is logged. -/
def logLevel (hops : Nat) (site : World.Site) (p : Ptr) (lvl : Level) (args : Routine Val) :
    Routine Val :=
  atLogger p fun l =>
    if l.level ≤ lvl then
      atomically (fun s => { s with world := { s.world with ticks := s.world.ticks + 1 } }) fun s =>
        args ∘ log env lvl (s.world.eventAt env site l.name) hops p
    else id

def logRoot (hops : Nat) (site : World.Site) (lvl : Level) (args : Routine Val) : Routine Val :=
  inspect fun s => logLevel env hops site s.world.root lvl args

/-! ### LoggerManager -/

def getLogger (name : Str) (g : Ptr → Routine Val) : Routine Val :=
  critical .loggerManager .write (fun s => { s with world := (s.world.getLogger name).1 })
    (fun _ => id) fun s => g (s.world.getLogger name).2

def managerToYamlString : Routine Val :=
  guarded .loggerManager .write <| inspect fun s =>
    forEach (fun e : Str × Ptr => toYamlString e.2) s.world.managed.toList

/-! ### LogIniter -/

def attach (p : Ptr) (a : LogAppenderDefine) (ap : Ptr) : Routine Val :=
  onWorld (fun w => w.setAppenderLevel ap a.level) ∘
  (if a.formatter ≠ [] ∧ (LogFormatter.new a.formatter).isError = false then
    Appender.setFormatter ap (some (.new a.formatter))
  else id) ∘
  addAppender p ap

def addDefined (p : Ptr) (a : LogAppenderDefine) : Routine Val :=
  if a.type = 1 then Appender.newFile env a.file (attach p a)
  else if a.type = 2 then Appender.newStdout (attach p a)
  else id

def applyDefine (i : LogDefine) : Routine Val :=
  getLogger i.name fun p =>
    setLevel p i.level ∘
    (if i.formatter ≠ [] then setFormatterPattern p i.formatter else id) ∘
    clearAppender p ∘
    forEach (addDefined env p) i.appenders

def removeDefine (i : LogDefine) : Routine Val :=
  getLogger i.name fun p => setLevel p .unkonw ∘ clearAppender p

def applyNew (oldValue : LogDefines) (i : LogDefine) : Routine Val :=
  match oldValue.find? i.name with
  | none => applyDefine env i
  | some d => if i = d then id else applyDefine env i

def removeOld (newValue : LogDefines) (i : LogDefine) : Routine Val :=
  match newValue.find? i.name with
  | none => removeDefine i
  | some _ => id

def onLogConfChanged (hops : Nat) (oldValue newValue : LogDefines) : Routine Val :=
  logRoot env hops site .info id ∘
  forEach (applyNew env oldValue) newValue.toList ∘
  forEach (removeOld newValue) oldValue.toList

end

/-! ### The root logger has no root -/

structure Rooted (root : Ptr) (w : World) : Prop where
  same : w.root = root
  bound : root < w.loggers.fresh
  roots : ∀ p l q, w.loggers.get? p = some l → l.root = some q → p ≠ root ∧ q = root

section

variable {root : Ptr} {w : World}

theorem initial_rooted : Rooted World.initial.root World.initial := by
  refine ⟨rfl, by decide, fun p l q hl hq => ?_⟩
  have hnone : ∀ l ∈ World.initial.loggers.cells, l.root = none := by decide
  rw [hnone l (List.mem_of_getElem? hl)] at hq
  cases hq

theorem Rooted.congr {w' : World} (hw : Rooted root w) (hloggers : w'.loggers = w.loggers)
    (hroot : w'.root = w.root) : Rooted root w' := by
  refine ⟨hroot.trans hw.same, ?_, ?_⟩
  · rw [hloggers]
    exact hw.bound
  · rw [hloggers]
    exact hw.roots

theorem Rooted.modify (hw : Rooted root w) (p : Ptr) {f : Logger → Logger}
    (hf : ∀ l, (f l).root = l.root) :
    Rooted root { w with loggers := w.loggers.modify p f } := by
  refine ⟨hw.same, ?_, fun q l r hl hr => ?_⟩
  · simpa [Heap.fresh, Heap.modify] using hw.bound
  · obtain ⟨l', hl', rfl⟩ := Heap.exists_of_modify hl
    apply hw.roots q l' r hl'
    split at hr
    · exact (hf l').symm.trans hr
    · exact hr

theorem Rooted.alloc (hw : Rooted root w) (l : Logger) (hl : l.root = none ∨ l.root = some root)
    (managed : KeyedMap Str Ptr) :
    Rooted root { w with loggers := w.loggers.alloc l, managed := managed } := by
  refine ⟨hw.same, ?_, fun p l' q hl' hq => ?_⟩
  · simpa [Heap.fresh, Heap.alloc] using Nat.lt_succ_of_lt hw.bound
  · rw [Heap.get?_alloc] at hl'
    split at hl'
    · rename_i hp
      obtain rfl := Option.some.inj hl'
      refine ⟨hp ▸ Nat.ne_of_gt hw.bound, ?_⟩
      obtain hnone | hsome := hl
      · rw [hnone] at hq
        cases hq
      · exact Option.some.inj (hq.symm.trans hsome)
    · exact hw.roots p l' q hl' hq

theorem Rooted.getLogger (hw : Rooted root w) (name : Str) : Rooted root (w.getLogger name).1 := by
  rw [World.getLogger]
  split
  · exact hw
  · exact hw.alloc _ (.inr (congrArg some hw.same)) _

end

/-! ### Ranks of the locks taken -/

/-- A routine for threads that hold locks below a rank only. -/
abbrev Safe (root : Ptr) (r : Nat) (p : Routine Val) : Prop :=
  Above (rank root) (fun s => Rooted root s.world) r p

section

variable {root : Ptr} {r : Nat}

theorem onWorld_safe {f : World → World} (hf : ∀ w, Rooted root w → Rooted root (f w)) :
    Safe root r (onWorld f : Routine Val) :=
  Above.update fun s hs => hf s.world hs

theorem atLogger_safe {p : Ptr} {f : Logger → Routine Val}
    (hf : ∀ l, (∀ q, l.root = some q → p ≠ root ∧ q = root) → Safe root r (f l)) :
    Safe root r (atLogger p f) := by
  apply Above.inspect
  intro s hs
  cases hl : s.world.loggers.get? p with
  | none => exact Above.skip
  | some l => exact hf l fun q hq => hs.roots p l q hl hq

theorem atAppender_safe {a : Ptr} {f : LogAppender → Routine Val} (hf : ∀ ap, Safe root r (f ap)) :
    Safe root r (atAppender a f) := by
  apply Above.inspect
  intro s _
  split
  · exact Above.skip
  · exact hf _

namespace Appender

variable (env : Env) (a : Ptr)

theorem onAppender_safe (f : LogAppender → LogAppender) :
    Safe root r (onAppender a f : Routine Val) :=
  onWorld_safe fun _ hw => hw.congr rfl rfl

theorem onStream_safe (f : Nat → Kind → Kind) : Safe root r (onStream a f : Routine Val) :=
  onWorld_safe fun _ hw => hw.congr rfl rfl

theorem getFormatter_safe {g : Option LogFormatter → Routine Val} (hr : r ≤ 5)
    (hg : ∀ f, Safe root r (g f)) : Safe root r (getFormatter a g) :=
  Above.critical hr (fun _ hs => hs) (fun _ _ => Above.skip) fun _ _ => hg _

theorem setFormatter_safe (val : Option LogFormatter) :
    Safe root 5 (setFormatter a val : Routine Val) :=
  Above.guarded le_rfl (onWorld_safe fun _ hw => hw.congr rfl rfl)

theorem reopen_safe : Safe root 5 (reopen env a : Routine Val) :=
  Above.guarded le_rfl (onStream_safe a _)

theorem refresh_safe (now : Nat) : Safe root 5 (refresh env a now : Routine Val) := by
  apply atAppender_safe
  intro ap
  split
  · exact Above.skip
  · exact Above.ite ((reopen_safe env a).comp (onAppender_safe a _)) Above.skip

theorem log_safe (lvl : Level) (event : LogEvent) :
    Safe root 5 (log env a lvl event : Routine Val) := by
  apply atAppender_safe
  intro ap
  apply Above.ite _ Above.skip
  exact (refresh_safe env a event.time).comp (Above.guarded le_rfl (onStream_safe a _))

theorem toYamlString_safe : Safe root 5 (toYamlString a : Routine Val) :=
  Above.guarded le_rfl Above.skip

theorem newStdout_safe {g : Ptr → Routine Val} (hg : ∀ a, Safe root r (g a)) :
    Safe root r (newStdout g) :=
  Above.atomically (fun _ hs => hs.congr rfl rfl) fun _ _ => hg _

theorem newFile_safe (filename : Str) {g : Ptr → Routine Val} (hr : r ≤ 5)
    (hg : ∀ a, Safe root r (g a)) : Safe root r (newFile env filename g) :=
  Above.atomically (fun _ hs => hs.congr rfl rfl) fun _ _ =>
    ((reopen_safe env _).mono hr).comp (hg _)

end Appender

theorem logger_le (p : Ptr) : rank root (.logger p) ≤ 4 := by
  rw [rank]
  split <;> decide

theorem le_logger (p : Ptr) : 3 ≤ rank root (.logger p) := by
  rw [rank]
  split <;> decide

theorem appenders_safe {p : Ptr} {f : Ptr → Routine Val} (as : List Ptr)
    (hf : ∀ a, Safe root 5 (f a)) : Safe root (rank root (.logger p) + 1) (forEach f as) :=
  Above.forEach fun a _ => (hf a).mono (Nat.succ_le_succ (logger_le p))

/-- A logger that delegates is not the root, to which it delegates. -/
theorem log_safe (env : Env) (lvl : Level) (event : LogEvent) (hops : Nat) (p : Ptr) :
    Safe root (rank root (.logger p)) (log env lvl event hops p : Routine Val) := by
  induction hops generalizing p with
  | zero => exact Above.skip
  | succ hops ih =>
    apply Above.guarded le_rfl
    apply atLogger_safe
    intro l hl
    apply Above.ite _ Above.skip
    apply Above.ite
    · exact appenders_safe _ fun a => Appender.log_safe env a lvl event
    · split
      · exact Above.skip
      · rename_i q hq
        obtain ⟨hp, rfl⟩ := hl q hq
        apply (ih q).mono
        rw [rank, if_neg hp, rank, if_pos rfl]

theorem atLogger_alike {p : Ptr} {f g : Logger → Routine Val}
    (hfg : ∀ l, (∀ q, l.root = some q → p ≠ root ∧ q = root) →
      Alike (fun s => Rooted root s.world) (f l) (g l)) :
    Alike (fun s : Shared Val => Rooted root s.world) (atLogger p f) (atLogger p g) := by
  apply Alike.inspect
  intro s hs
  cases hl : s.world.loggers.get? p with
  | none => exact .refl id
  | some l => exact hfg l fun q hq => hs.roots p l q hl hq

/-- The root does not delegate, so that no bound on the hops above two is ever met. -/
theorem log_hops (env : Env) (lvl : Level) (event : LogEvent) (hops : Nat) (p : Ptr) :
    Alike (fun s : Shared Val => Rooted root s.world) (log env lvl event (hops + 2) p)
      (log env lvl event 2 p) := by
  have hroot : Alike (fun s : Shared Val => Rooted root s.world)
      (log env lvl event (hops + 1) root) (log env lvl event 1 root) := by
    refine Alike.guarded (atLogger_alike fun l hl => ?_)
    apply Alike.ite _ (.refl id)
    apply Alike.ite (.refl _)
    cases hr : l.root with
    | none => exact .refl id
    | some q => exact absurd rfl (hl q hr).1
  refine Alike.guarded (atLogger_alike fun l hl => ?_)
  apply Alike.ite _ (.refl id)
  apply Alike.ite (.refl _)
  cases hr : l.root with
  | none => exact .refl id
  | some q =>
    obtain ⟨_, rfl⟩ := hl q hr
    exact hroot

section

variable (p : Ptr)

theorem setFormatter_safe (val : Option LogFormatter) :
    Safe root 3 (setFormatter p val : Routine Val) := by
  apply Above.guarded (le_logger p)
  refine Above.comp (onWorld_safe fun w hw => hw.modify p fun _ => rfl) ?_
  apply atLogger_safe
  intro l _
  exact appenders_safe _ fun a => Above.guarded le_rfl (Appender.onAppender_safe a _)

theorem setFormatterPattern_safe (val : Str) :
    Safe root 3 (setFormatterPattern p val : Routine Val) :=
  Above.ite Above.skip (setFormatter_safe p _)

theorem getFormatter_safe : Safe root 3 (getFormatter p : Routine Val) :=
  Above.guarded (le_logger p) Above.skip

theorem toYamlString_safe : Safe root 3 (toYamlString p : Routine Val) := by
  apply Above.guarded (le_logger p)
  apply atLogger_safe
  intro l _
  exact appenders_safe _ Appender.toYamlString_safe

theorem addAppender_safe (a : Ptr) : Safe root 3 (addAppender p a : Routine Val) := by
  have hle : rank root (.logger p) + 1 ≤ 5 := Nat.succ_le_succ (logger_le p)
  apply Above.guarded (le_logger p)
  apply atLogger_safe
  intro l _
  apply atAppender_safe
  intro _
  apply Above.comp
  · apply Appender.getFormatter_safe a hle
    intro f
    exact Above.ite (Above.guarded hle (Appender.onAppender_safe a _)) Above.skip
  · exact onWorld_safe fun _ hw => hw.modify p fun _ => rfl

theorem delAppender_safe (a : Ptr) : Safe root 3 (delAppender p a : Routine Val) :=
  Above.guarded (le_logger p) (onWorld_safe fun _ hw => hw.modify p fun _ => rfl)

theorem clearAppender_safe : Safe root 3 (clearAppender p : Routine Val) :=
  Above.guarded (le_logger p) (onWorld_safe fun _ hw => hw.modify p fun _ => rfl)

theorem setLevel_safe (level : Level) : Safe root r (setLevel p level : Routine Val) :=
  onWorld_safe fun _ hw => hw.modify p fun _ => rfl

end

section

variable (env : Env)

theorem logLevel_safe (hops : Nat) (site : World.Site) (p : Ptr) (lvl : Level)
    {args : Routine Val} (hr : r ≤ 3) (hargs : Safe root r args) :
    Safe root r (logLevel env hops site p lvl args) := by
  apply atLogger_safe
  intro l _
  apply Above.ite _ Above.skip
  apply Above.atomically (fun _ hs => hs.congr rfl rfl)
  intro s _
  exact hargs.comp ((log_safe env lvl _ hops p).mono (hr.trans (le_logger p)))

theorem logRoot_safe (hops : Nat) (site : World.Site) (lvl : Level) {args : Routine Val}
    (hr : r ≤ 3) (hargs : Safe root r args) : Safe root r (logRoot env hops site lvl args) :=
  Above.inspect fun _ _ => logLevel_safe env hops site _ lvl hr hargs

theorem getLogger_safe (name : Str) {g : Ptr → Routine Val} (hg : ∀ p, Safe root 2 (g p)) :
    Safe root 2 (getLogger name g) :=
  Above.critical le_rfl (fun _ hs => hs.getLogger name) (fun _ _ => Above.skip) fun _ _ => hg _

theorem managerToYamlString_safe : Safe root 2 (managerToYamlString : Routine Val) := by
  refine Above.guarded le_rfl (Above.inspect fun s _ => ?_)
  exact Above.forEach fun e _ => toYamlString_safe e.2

/-! ### LogIniter -/

theorem attach_safe (p : Ptr) (a : LogAppenderDefine) (ap : Ptr) :
    Safe root 3 (attach p a ap : Routine Val) := by
  refine Above.comp (onWorld_safe fun _ hw => hw.congr rfl rfl) ?_
  refine Above.comp ?_ (addAppender_safe p ap)
  exact Above.ite ((Appender.setFormatter_safe ap _).mono (by decide)) Above.skip

theorem addDefined_safe (p : Ptr) (a : LogAppenderDefine) :
    Safe root 3 (addDefined env p a : Routine Val) := by
  apply Above.ite
  · exact Appender.newFile_safe env a.file (by decide) (attach_safe p a)
  · exact Above.ite (Appender.newStdout_safe (attach_safe p a)) Above.skip

theorem applyDefine_safe (i : LogDefine) : Safe root 2 (applyDefine env i : Routine Val) := by
  apply getLogger_safe
  intro p
  apply Above.comp (setLevel_safe p i.level)
  apply Above.mono _ (by decide : 2 ≤ 3)
  apply Above.comp (Above.ite (setFormatterPattern_safe p i.formatter) Above.skip)
  apply Above.comp (clearAppender_safe p)
  exact Above.forEach fun a _ => addDefined_safe env p a

theorem removeDefine_safe (i : LogDefine) : Safe root 2 (removeDefine i : Routine Val) := by
  apply getLogger_safe
  intro p
  exact (setLevel_safe p .unkonw).comp ((clearAppender_safe p).mono (by decide))

theorem applyNew_safe (oldValue : LogDefines) (i : LogDefine) :
    Safe root 2 (applyNew env oldValue i : Routine Val) := by
  rw [applyNew]
  split
  · exact applyDefine_safe env i
  · exact Above.ite Above.skip (applyDefine_safe env i)

theorem removeOld_safe (newValue : LogDefines) (i : LogDefine) :
    Safe root 2 (removeOld newValue i : Routine Val) := by
  rw [removeOld]
  split
  · exact removeDefine_safe i
  · exact Above.skip

theorem onLogConfChanged_safe (hops : Nat) (oldValue newValue : LogDefines) :
    Safe root 2 (onLogConfChanged env hops oldValue newValue : Routine Val) := by
  apply Above.comp (logRoot_safe env hops site .info (by decide) Above.skip)
  apply Above.comp
  · exact Above.forEach fun i _ => applyNew_safe env oldValue i
  · exact Above.forEach fun i _ => removeOld_safe newValue i

end

end

end Mumu.LoggerLocks
