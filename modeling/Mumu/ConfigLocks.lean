import Mumu.LoggerLocks

namespace Mumu.ConfigLocks

open Mumu.LogLevels Mumu.LogItems Mumu.PatternScanner Mumu.LogAppenders Mumu.Loggers
open Mumu.PointerHeap Mumu.KeyedSets Mumu.ConfigVars Mumu.YamlNodes Mumu.Config Mumu.LogIniter
open Mumu.Executions Mumu.Mutexes Mumu.LockOrder Mumu.LoggerLocks

/-- The types of variables: that of the logs, and the others. -/
inductive VarType (κ : Type) where
  | logs
  | other (k : κ)
  deriving DecidableEq

variable {κ : Type} {V : κ → Type}

abbrev Val (V : κ → Type) : VarType κ → Type
  | .logs => LogDefines
  | .other k => V k

instance [∀ k, BEq (V k)] : ∀ t, BEq (Val V t)
  | .logs => inferInstanceAs (BEq LogDefines)
  | .other k => inferInstanceAs (BEq (V k))

/-- The environment, the conversions of each type, and a bound on the hops of a
delegation. What events say takes no part in locking. -/
structure Setting (V : κ → Type) where
  env : Env
  yaml : Yaml
  fromStr : ∀ t, Str → Except Str (Val V t)
  toStr : ∀ t, Val V t → Except Str Str
  site : World.Site
  hops : Nat

variable (x : Setting V)

/-- The statements of the library that log on the root. -/
def logOnRoot (lvl : Level) (args : Routine (Val V)) : Routine (Val V) :=
  logRoot x.env x.hops x.site lvl args

section

variable [DecidableEq κ] [∀ k, BEq (V k)]

/-! ### ConfigVar -/

def varAt (s : Shared (Val V)) (p : Ptr) (t : VarType κ) :
    Option (ConfigVar World Fault (Val V t)) :=
  match s.registry.vars.get? p with
  | none => none
  | some ⟨t', var⟩ => if h : t' = t then some (h ▸ var) else none

def changeVar (p : Ptr) (t : VarType κ)
    (f : ConfigVar World Fault (Val V t) → ConfigVar World Fault (Val V t)) (s : Shared (Val V)) :
    Shared (Val V) :=
  match varAt s p t with
  | none => s
  | some var => { s with registry := s.registry.put p ⟨t, f var⟩ }

/-- The listeners of the logs are all the one installed at start; no other
variable has any. -/
def onChange : (t : VarType κ) → Val V t → Val V t → Routine (Val V)
  | .logs, oldValue, newValue => onLogConfChanged x.env x.hops oldValue newValue
  | .other _, _, _ => id

def getValue (p : Ptr) : Routine (Val V) := guarded (.configVar p) .read id

/-- The guard of the first scope is gone before the second one's locks. -/
def setValue (p : Ptr) (t : VarType κ) (v : Val V t) : Routine (Val V) :=
  critical (.configVar p) .read id
    (fun s =>
      match varAt s p t with
      | none => id
      | some var =>
        if v == var.val then id
        else forEach (fun _ => onChange x t var.val v) var.cbs.toList)
    (fun s =>
      match varAt s p t with
      | none => id
      | some var =>
        if v == var.val then id
        else
          guarded (.configVar p) .write (update (changeVar p t (fun var => var.setValueWrite v))))

/-- The exception of a conversion is caught and logged. -/
def fromString (p : Ptr) (val : Str) : Routine (Val V) :=
  inspect fun s =>
    match s.registry.vars.get? p with
    | none => id
    | some ⟨t, _⟩ =>
      match x.fromStr t val with
      | .ok v => setValue x p t v
      | .error _ => logOnRoot x .error id

/-- An exception ends the scope of the guard before it is logged. -/
def toString (p : Ptr) : Routine (Val V) :=
  critical (.configVar p) .read id (fun _ => id) fun s =>
    match s.registry.vars.get? p with
    | none => id
    | some ⟨t, var⟩ =>
      match x.toStr t var.val with
      | .ok _ => id
      | .error _ => logOnRoot x .error id

def addListener (p : Ptr) (t : VarType κ) (cb : Listener World Fault (Val V t)) : Routine (Val V) :=
  guarded (.configVar p) .write <| update fun s =>
    let s := { s with sFunId := Function.update s.sFunId t ((s.sFunId t + 1) % 2 ^ 64) }
    changeVar p t (fun var => { var with cbs := KeyedMap.set var.cbs (s.sFunId t) cb }) s

def delListener (p : Ptr) (t : VarType κ) (key : Nat) : Routine (Val V) :=
  guarded (.configVar p) .write (update (changeVar p t (fun var => var.delListener key)))

def getListener (p : Ptr) : Routine (Val V) := guarded (.configVar p) .write id

def clearListener (p : Ptr) (t : VarType κ) : Routine (Val V) :=
  guarded (.configVar p) .write (update (changeVar p t ConfigVar.clearListener))

/-! ### Config -/

/-- The text of a variable of another type is streamed into the event. -/
def lookup (name : Str) (t : VarType κ) (defaultVal : Val V t) (description : Str) :
    Routine (Val V) :=
  guarded .registry .write <| inspect fun s =>
    match s.registry.lookupBase name with
    | some p =>
      match s.registry.vars.get? p with
      | none => id
      | some v =>
        if v.1 = t then logOnRoot x .info id else logOnRoot x .error (toString x p)
    | none =>
      if validName name then
        update fun s =>
          match s.registry.lookup name t defaultVal description with
          | .ok (registry, _) => { s with registry := registry }
          | .error _ => s
      else logOnRoot x .error id

def lookupName : Routine (Val V) := guarded .registry .read id

def lookupBase (name : Str) (g : Option Ptr → Routine (Val V)) : Routine (Val V) :=
  critical .registry .write id (fun _ => id) fun s => g (s.registry.lookupBase name)

mutual

/-- A name with another character is logged as the document is flattened. -/
def logMembers (pre : Str) (node : Node) : Routine (Val V) :=
  if validName pre then
    match node with
    | .map entries => logEntries pre entries
    | _ => id
  else logOnRoot x .error id

def logEntries (pre : Str) : List (Node × Node) → Routine (Val V)
  | [] => id
  | (key, node) :: entries => logMembers (join pre key.scalarText) node ∘ logEntries pre entries

end

def loadNode (i : Str × Node) : Routine (Val V) :=
  if i.1 = [] then id
  else
    lookupBase (i.1.map Char.toLower) fun
      | none => id
      | some p => fromString x p (nodeText x.yaml i.2)

def loadFromYaml (root : Node) : Routine (Val V) :=
  logMembers x [] root ∘ forEach (loadNode x) (listAllMember [] root)

end

/-! ### Ranks of the locks taken -/

section

variable {root : Ptr} {r : Nat}

theorem logOnRoot_safe (lvl : Level) {args : Routine (Val V)} (hr : r ≤ 3)
    (hargs : Safe root r args) : Safe root r (logOnRoot x lvl args) :=
  logRoot_safe x.env x.hops x.site lvl hr hargs

theorem onChange_safe (t : VarType κ) (oldValue newValue : Val V t) :
    Safe root 2 (onChange x t oldValue newValue) := by
  cases t with
  | logs => exact onLogConfChanged_safe x.env x.hops oldValue newValue
  | other k => exact Above.skip

theorem getValue_safe (p : Ptr) : Safe root 1 (getValue p : Routine (Val V)) :=
  Above.guarded le_rfl Above.skip

theorem toString_safe (p : Ptr) : Safe root 1 (toString x p) := by
  refine Above.critical le_rfl (fun _ hs => hs) (fun _ _ => Above.skip) fun s _ => ?_
  split
  · exact Above.skip
  · split
    · exact Above.skip
    · exact logOnRoot_safe x .error (by decide) Above.skip

theorem getListener_safe (p : Ptr) : Safe root 1 (getListener p : Routine (Val V)) :=
  Above.guarded le_rfl Above.skip

theorem lookupName_safe : Safe root 0 (lookupName : Routine (Val V)) :=
  Above.guarded le_rfl Above.skip

theorem lookupBase_safe (name : Str) {g : Option Ptr → Routine (Val V)}
    (hg : ∀ p, Safe root 0 (g p)) : Safe root 0 (lookupBase name g) :=
  Above.critical le_rfl (fun _ hs => hs) (fun _ _ => Above.skip) fun _ _ => hg _

theorem logName_safe {pre : Str} {members : Routine (Val V)} (hmembers : Safe root 0 members) :
    Safe root 0 (if validName pre then members else logOnRoot x .error id) :=
  Above.ite hmembers (logOnRoot_safe x .error (by decide) Above.skip)

mutual

theorem logMembers_safe (pre : Str) (node : Node) : Safe root 0 (logMembers x pre node) := by
  cases node with
  | map entries =>
    rw [logMembers]
    exact logName_safe x (logEntries_safe pre entries)
  | null | scalar s | seq items =>
    simp only [logMembers]
    exact logName_safe x Above.skip

theorem logEntries_safe (pre : Str) (entries : List (Node × Node)) :
    Safe root 0 (logEntries x pre entries) := by
  cases entries with
  | nil =>
    rw [logEntries]
    exact Above.skip
  | cons e entries =>
    rw [logEntries]
    exact (logMembers_safe _ _).comp (logEntries_safe pre entries)

end

section

variable [DecidableEq κ]

theorem changeVar_rooted (p : Ptr) (t : VarType κ)
    (f : ConfigVar World Fault (Val V t) → ConfigVar World Fault (Val V t)) (s : Shared (Val V))
    (hs : Rooted root s.world) : Rooted root (changeVar p t f s).world := by
  rw [changeVar]
  split <;> exact hs

theorem addListener_safe (p : Ptr) (t : VarType κ) (cb : Listener World Fault (Val V t)) :
    Safe root 1 (addListener p t cb) :=
  Above.guarded le_rfl (Above.update fun _ hs => changeVar_rooted p t _ _ hs)

theorem delListener_safe (p : Ptr) (t : VarType κ) (key : Nat) :
    Safe root 1 (delListener p t key : Routine (Val V)) :=
  Above.guarded le_rfl (Above.update (changeVar_rooted p t _))

theorem clearListener_safe (p : Ptr) (t : VarType κ) :
    Safe root 1 (clearListener p t : Routine (Val V)) :=
  Above.guarded le_rfl (Above.update (changeVar_rooted p t _))

theorem lookup_safe (name : Str) (t : VarType κ) (defaultVal : Val V t) (description : Str) :
    Safe root 0 (lookup x name t defaultVal description) := by
  have hle : 1 ≤ 3 := by decide
  refine Above.guarded le_rfl (Above.inspect fun s _ => ?_)
  split
  · split
    · exact Above.skip
    · apply Above.ite
      · exact logOnRoot_safe x .info hle Above.skip
      · exact logOnRoot_safe x .error hle (toString_safe x _)
  · apply Above.ite
    · apply Above.update
      intro s hs
      split <;> exact hs
    · exact logOnRoot_safe x .error hle Above.skip

variable [∀ k, BEq (V k)]

theorem setValue_safe (p : Ptr) (t : VarType κ) (v : Val V t) : Safe root 1 (setValue x p t v) := by
  refine Above.critical le_rfl (fun _ hs => hs) (fun s _ => ?_) fun s _ => ?_
  · split
    · exact Above.skip
    · exact Above.ite Above.skip (Above.forEach fun _ _ => onChange_safe x t _ v)
  · split
    · exact Above.skip
    · apply Above.ite Above.skip
      exact Above.guarded le_rfl (Above.update (changeVar_rooted p t _))

theorem fromString_safe (p : Ptr) (val : Str) : Safe root 1 (fromString x p val) := by
  apply Above.inspect
  intro s _
  split
  · exact Above.skip
  · split
    · exact setValue_safe x p _ _
    · exact logOnRoot_safe x .error (by decide) Above.skip

theorem loadNode_safe (i : Str × Node) : Safe root 0 (loadNode x i) := by
  refine Above.ite Above.skip (lookupBase_safe _ fun p => ?_)
  cases p with
  | none => exact Above.skip
  | some p => exact (fromString_safe x p _).mono (by decide)

theorem loadFromYaml_safe (node : Node) : Safe root 0 (loadFromYaml x node) :=
  (logMembers_safe x [] node).comp (Above.forEach fun i _ => loadNode_safe x i)

end

end

/-! ### The operations of the library -/

inductive Operation (V : κ → Type) where
  | lookup (name : Str) (t : VarType κ) (defaultVal : Val V t) (description : Str)
  | lookupName
  | lookupBase (name : Str)
  | loadFromYaml (root : Node)
  | getValue (p : Ptr)
  | setValue (p : Ptr) (t : VarType κ) (v : Val V t)
  | fromString (p : Ptr) (val : Str)
  | toString (p : Ptr)
  | addListener (p : Ptr) (t : VarType κ) (cb : Listener World Fault (Val V t))
  | delListener (p : Ptr) (t : VarType κ) (key : Nat)
  | getListener (p : Ptr)
  | clearListener (p : Ptr) (t : VarType κ)
  | getLogger (name : Str)
  | managerToYamlString
  | log (p : Ptr) (lvl : Level) (event : LogEvent)
  | logLevel (p : Ptr) (lvl : Level)
  | setLevel (p : Ptr) (level : Level)
  | setFormatter (p : Ptr) (val : Option LogFormatter)
  | setFormatterPattern (p : Ptr) (val : Str)
  | getFormatter (p : Ptr)
  | addAppender (p a : Ptr)
  | delAppender (p a : Ptr)
  | clearAppender (p : Ptr)
  | loggerToYamlString (p : Ptr)
  | newLogger (name : Str)
  | newStdoutAppender
  | newFileAppender (filename : Str)
  | appenderLog (a : Ptr) (lvl : Level) (event : LogEvent)
  | appenderReopen (a : Ptr)
  | appenderSetFormatter (a : Ptr) (val : Option LogFormatter)
  | appenderGetFormatter (a : Ptr)
  | appenderToYamlString (a : Ptr)

section

variable [DecidableEq κ] [∀ k, BEq (V k)]

def Operation.routine : Operation V → Routine (Val V)
  | lookup name t defaultVal description => ConfigLocks.lookup x name t defaultVal description
  | lookupName => ConfigLocks.lookupName
  | lookupBase name => ConfigLocks.lookupBase name fun _ => id
  | loadFromYaml root => ConfigLocks.loadFromYaml x root
  | getValue p => ConfigLocks.getValue p
  | setValue p t v => ConfigLocks.setValue x p t v
  | fromString p val => ConfigLocks.fromString x p val
  | toString p => ConfigLocks.toString x p
  | addListener p t cb => ConfigLocks.addListener p t cb
  | delListener p t key => ConfigLocks.delListener p t key
  | getListener p => ConfigLocks.getListener p
  | clearListener p t => ConfigLocks.clearListener p t
  | getLogger name => LoggerLocks.getLogger name fun _ => id
  | managerToYamlString => LoggerLocks.managerToYamlString
  | log p lvl event => LoggerLocks.log x.env lvl event x.hops p
  | logLevel p lvl => LoggerLocks.logLevel x.env x.hops x.site p lvl id
  | setLevel p level => LoggerLocks.setLevel p level
  | setFormatter p val => LoggerLocks.setFormatter p val
  | setFormatterPattern p val => LoggerLocks.setFormatterPattern p val
  | getFormatter p => LoggerLocks.getFormatter p
  | addAppender p a => LoggerLocks.addAppender p a
  | delAppender p a => LoggerLocks.delAppender p a
  | clearAppender p => LoggerLocks.clearAppender p
  | loggerToYamlString p => LoggerLocks.toYamlString p
  | newLogger name =>
    onWorld fun w => { w with loggers := w.loggers.alloc (.new name), managed := w.managed }
  | newStdoutAppender => Appender.newStdout fun _ => id
  | newFileAppender filename => Appender.newFile x.env filename fun _ => id
  | appenderLog a lvl event => Appender.log x.env a lvl event
  | appenderReopen a => Appender.reopen x.env a
  | appenderSetFormatter a val => Appender.setFormatter a val
  | appenderGetFormatter a => Appender.getFormatter a fun _ => id
  | appenderToYamlString a => Appender.toYamlString a

/-- The calls that take the lock of the registry. -/
def Operation.usesRegistry : Operation V → Bool
  | lookup _ _ _ _ | lookupName | lookupBase _ | loadFromYaml _ => true
  | _ => false

theorem routine_safe_one (root : Ptr) {op : Operation V} (hop : op.usesRegistry = false) :
    Safe root 1 (op.routine x) := by
  cases op with
  | lookup name t defaultVal description | lookupName | lookupBase name | loadFromYaml node =>
    cases hop
  | getValue p => exact getValue_safe p
  | setValue p t v => exact setValue_safe x p t v
  | fromString p val => exact fromString_safe x p val
  | toString p => exact toString_safe x p
  | addListener p t cb => exact addListener_safe p t cb
  | delListener p t key => exact delListener_safe p t key
  | getListener p => exact getListener_safe p
  | clearListener p t => exact clearListener_safe p t
  | getLogger name => exact (getLogger_safe name fun _ => Above.skip).mono (by decide)
  | managerToYamlString => exact managerToYamlString_safe.mono (by decide)
  | log p lvl event =>
    exact (log_safe x.env lvl event x.hops p).mono (le_trans (by decide) (le_logger p))
  | logLevel p lvl => exact logLevel_safe x.env x.hops x.site p lvl (by decide) Above.skip
  | setLevel p level => exact setLevel_safe p level
  | setFormatter p val => exact (setFormatter_safe p val).mono (by decide)
  | setFormatterPattern p val => exact (setFormatterPattern_safe p val).mono (by decide)
  | getFormatter p => exact (getFormatter_safe p).mono (by decide)
  | addAppender p a => exact (addAppender_safe p a).mono (by decide)
  | delAppender p a => exact (delAppender_safe p a).mono (by decide)
  | clearAppender p => exact (clearAppender_safe p).mono (by decide)
  | loggerToYamlString p => exact (toYamlString_safe p).mono (by decide)
  | newLogger name => exact onWorld_safe fun w hw => hw.alloc (.new name) (.inl rfl) w.managed
  | newStdoutAppender => exact Appender.newStdout_safe fun _ => Above.skip
  | newFileAppender filename =>
    exact Appender.newFile_safe x.env filename (by decide) fun _ => Above.skip
  | appenderLog a lvl event => exact (Appender.log_safe x.env a lvl event).mono (by decide)
  | appenderReopen a => exact (Appender.reopen_safe x.env a).mono (by decide)
  | appenderSetFormatter a val => exact (Appender.setFormatter_safe a val).mono (by decide)
  | appenderGetFormatter a => exact Appender.getFormatter_safe a (by decide) fun _ => Above.skip
  | appenderToYamlString a => exact (Appender.toYamlString_safe a).mono (by decide)

theorem routine_safe (root : Ptr) (op : Operation V) : Safe root 0 (op.routine x) := by
  cases hop : op.usesRegistry with
  | false => exact (routine_safe_one x root hop).mono (by decide)
  | true =>
    cases op with
    | lookup name t defaultVal description => exact lookup_safe x name t defaultVal description
    | lookupName => exact lookupName_safe
    | lookupBase name => exact lookupBase_safe name fun _ => Above.skip
    | loadFromYaml node => exact loadFromYaml_safe x node
    | _ => cases hop

/-- A thread calls an operation, or goes on with it. -/
inductive Request (V : κ → Type) where
  | call (i : Nat) (op : Operation V)
  | run (i : Nat)

def Request.act : Request V → Act Lock (Shared (Val V))
  | call i op => .start i (op.routine x)
  | run i => .run i

def idle (registry : Registry World Fault (Val V)) (sFunId : VarType κ → Nat) (n : Nat) :
    System Lock (Shared (Val V)) :=
  ⟨⟨World.initial, registry, sFunId⟩, List.replicate n ⟨[], .done⟩⟩

/-- Any number of threads that call the operations of the library, each as many
as it likes, in any order of their steps. -/
theorem operations_deadlockFree (registry : Registry World Fault (Val V)) (sFunId : VarType κ → Nat)
    (n : Nat) (reqs : List (Request V)) (s : System Lock (Shared (Val V)))
    (h : exec step (idle registry sFunId n) (reqs.map (Request.act x)) = .ok s) :
    DeadlockFree (rank World.initial.root) s := by
  refine exec_deadlockFree (I := fun s : Shared (Val V) => Rooted World.initial.root s.world)
    initial_rooted n (fun a ha => ?_) h
  obtain ⟨req, _, rfl⟩ := List.mem_map.mp ha
  cases req with
  | call i op => exact routine_safe x _ op
  | run i => trivial

end

/-- A setting without variables of other types, where no conversion succeeds. -/
def bare : Setting (fun _ : Empty => Unit) where
  env := default
  yaml := ⟨fun _ => .error .parser, fun _ => [], fun _ => none, fun _ => .error .badConversion⟩
  fromStr := fun _ _ => .error []
  toStr := fun _ _ => .error []
  site := site
  hops := 2

/-- One thread is at the lock of the root's appender while another waits for the
root. -/
theorem operations_deadlockFree_waiting :
    ∃ s, exec step (idle .empty (fun _ => 0) 2)
        ([.call 0 (.log 0 .info default), .call 1 (.clearAppender 0), .run 0, .run 0].map
          (Request.act bare)) = .ok s ∧
      Waits s 1 0 ∧ DeadlockFree (rank World.initial.root) s := by
  refine ⟨_, rfl, ?_, ?_⟩
  · exact ⟨_, _, .logger 0, .write, _, .write, rfl, rfl, rfl, List.mem_singleton.mpr rfl⟩
  · exact operations_deadlockFree bare .empty (fun _ => 0) 2
      [.call 0 (.log 0 .info default), .call 1 (.clearAppender 0), .run 0, .run 0] _ rfl

end Mumu.ConfigLocks
