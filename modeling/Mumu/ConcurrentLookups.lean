import Mumu.ConfigRegistry
import Mumu.LockSections
import Mumu.LoggerFrames

namespace Mumu.ConcurrentLookups

open Mumu.LogLevels Mumu.PointerHeap Mumu.KeyedSets Mumu.ConfigVars Mumu.Config
open Mumu.Executions Mumu.Mutexes Mumu.LockSections Mumu.Loggers Mumu.LogDelivery
open Mumu.LoggerFrames

/-! ### Variables -/

variable {σ ε τ : Type} {Val : τ → Type}

inductive LookUp (Val : τ → Type) where
  | lookup (name : Str) (t : τ) (defaultVal : Val t) (description : Str)
  | lookupName (name : Str) (t : τ)
  | lookupBase (name : Str)

def LookUp.name : LookUp Val → Str
  | lookup name _ _ _ => name
  | lookupName name _ => name
  | lookupBase name => name

/-- A look-up says what it was asked, and what it found or threw. -/
abbrev Found (Val : τ → Type) := LookUp Val × Except Str (Option Ptr)

section

variable [DecidableEq τ]

def typed (r : Registry σ ε Val) (p : Ptr) (t : τ) : Option Ptr :=
  (r.vars.get? p).bind fun v => if v.1 = t then some p else none

/-- The code in the scope of the registry's lock: the map is searched, and a new
variable entered. -/
def LookUp.body : LookUp Val → Body (Registry σ ε Val) (Found Val)
  | lookup name t defaultVal description =>
    .act id fun r =>
      match r.lookupBase name with
      | some p => .ret (.lookup name t defaultVal description, .ok (typed r p t))
      | none =>
        if validName name then
          .act (fun r =>
              match r.lookup name t defaultVal description with
              | .ok (r', _) => r'
              | .error _ => r)
            fun r => .ret (.lookup name t defaultVal description, .ok (some r.vars.fresh))
        else .ret (.lookup name t defaultVal description, .error name)
  | lookupName name t =>
    .act id fun r =>
      .ret (.lookupName name t, .ok ((r.lookupBase name).bind fun p => typed r p t))
  | lookupBase name => .act id fun r => .ret (.lookupBase name, .ok (r.lookupBase name))

/-- The guard of a look-up without a default is one for reading, that of the
others for writing. -/
def LookUp.mode : LookUp Val → RWMode
  | lookupName _ _ => .read
  | _ => .write

def LookUp.section (l : LookUp Val) : Section rwMutex Unit Unit (Registry σ ε Val) (Found Val) where
  lock := ()
  mode := l.mode
  place := ()
  body := l.body
  reads := by
    cases l with
    | lookupName name t => exact fun _ r => ⟨rfl, trivial⟩
    | lookup name t defaultVal description | lookupBase name => exact nofun

/-- A look-up that nobody interrupts. -/
def LookUp.alone (r : Registry σ ε Val) : LookUp Val → Registry σ ε Val × Except Str (Option Ptr)
  | lookup name t defaultVal description =>
    match r.lookup name t defaultVal description with
    | .ok (r', p) => (r', .ok p)
    | .error e => (r, .error e)
  | lookupName name t => (r, .ok (r.lookupName name t))
  | lookupBase name => (r, .ok (r.lookupBase name))

section

variable {r : Registry σ ε Val} {name : Str} (t : τ) (defaultVal : Val t) (description : Str)

theorem lookup_some {p : Ptr} (h : r.lookupBase name = some p) :
    r.lookup name t defaultVal description = .ok (r, typed r p t) := by
  rw [Registry.lookup]
  split
  · rename_i q hq
    obtain rfl : p = q := Option.some.inj (h.symm.trans hq)
    rfl
  · rename_i hnone
    cases h.symm.trans hnone

theorem lookup_new (h : r.lookupBase name = none) (hname : validName name = true) :
    ∃ r', r.lookup name t defaultVal description = .ok (r', some r.vars.fresh) := by
  rw [Registry.lookup]
  split
  · rename_i hsome
    cases h.symm.trans hsome
  · exact ⟨_, if_pos hname⟩

end

theorem body_run (l : LookUp Val) (r : Registry σ ε Val) :
    l.body.run r = ((l.alone r).1, l, (l.alone r).2) := by
  cases l with
  | lookup name t defaultVal description =>
    rw [LookUp.body, Body.run, LookUp.alone]
    cases hp : r.lookupBase name with
    | some p =>
      rw [lookup_some t defaultVal description hp]
      rfl
    | none =>
      cases hname : validName name with
      | true =>
        obtain ⟨r', hr'⟩ := lookup_new t defaultVal description hp hname
        simp only [if_true, Body.run, id, hr']
      | false =>
        rw [ConfigRegistry.lookup_invalid hp hname]
        rfl
  | lookupName name t => rfl
  | lookupBase name => rfl

/-- A look-up keeps what is registered. -/
theorem alone_grown {r : Registry σ ε Val} (hr : ConfigRegistry.Named r) (l : LookUp Val) :
    ConfigRegistry.Grown r (l.alone r).1 := by
  cases l with
  | lookup name t defaultVal description =>
    rw [LookUp.alone]
    split
    · rename_i h
      exact ConfigRegistry.lookup_grown hr h
    · exact ⟨hr, .refl r⟩
  | lookupName name t | lookupBase name => exact ⟨hr, .refl r⟩

/-- The type that a look-up asks for. -/
def LookUp.type : LookUp Val → Option τ
  | lookup _ t _ _ => some t
  | lookupName _ t => some t
  | lookupBase _ => none

theorem typed_eq_some {r : Registry σ ε Val} {p q : Ptr} {t : τ} (h : typed r p t = some q) :
    p = q ∧ ∃ var, r.vars.get? p = some ⟨t, var⟩ := by
  obtain ⟨⟨u, var⟩, hvar, htype⟩ := Option.bind_eq_some_iff.mp h
  split at htype
  · rename_i hu
    obtain rfl : u = t := hu
    exact ⟨Option.some.inj htype, var, hvar⟩
  · cases htype

/-- What a look-up finds is registered afterwards, under the name and with the type
that were asked for. -/
theorem alone_found {r : Registry σ ε Val} {l : LookUp Val} {p : Ptr}
    (h : (l.alone r).2 = .ok (some p)) :
    (l.alone r).1.lookupBase l.name = some p ∧
      ∀ t, l.type = some t → ∃ var, (l.alone r).1.vars.get? p = some ⟨t, var⟩ := by
  cases l with
  | lookup name t defaultVal description =>
    rw [LookUp.alone] at h ⊢
    cases hr : r.lookup name t defaultVal description with
    | error e =>
      rw [hr] at h
      cases h
    | ok found =>
      obtain ⟨r', o⟩ := found
      rw [hr] at h
      obtain rfl : o = some p := Except.ok.inj h
      obtain ⟨hbound, hvar⟩ := Registry.lookup_found hr
      refine ⟨hbound, fun t' ht' => ?_⟩
      obtain rfl := Option.some.inj ht'
      exact hvar
  | lookupName name t =>
    obtain ⟨q, hq, htyped⟩ := Option.bind_eq_some_iff.mp (Except.ok.inj h)
    obtain ⟨rfl, hvar⟩ := typed_eq_some htyped
    refine ⟨hq, fun t' ht' => ?_⟩
    obtain rfl := Option.some.inj ht'
    exact hvar
  | lookupBase name => exact ⟨Except.ok.inj h, nofun⟩

/-! ### Variables under concurrent look-ups -/

def lookUps (σ ε : Type) (Val : τ → Type) :
    Calls rwMutex Unit Unit (Registry σ ε Val) (LookUp Val) (Except Str (Option Ptr)) where
  alone l r := l.alone r
  sec := LookUp.section
  run := body_run

variable {d : Unit → Registry σ ε Val}
  {h : List (Entry rwMutex Unit Unit (Registry σ ε Val) (Found Val))}

theorem after_lookUp (l : LookUp Val) (d : Unit → Registry σ ε Val) :
    (lookUps σ ε Val).after l d () = (l.alone (d ())).1 :=
  Function.update_self _ _ _

theorem found_bound (hs : Serial d h) (hd : ConfigRegistry.Named (d ()))
    (hcalls : ∀ e ∈ h, ∃ l, e.call = (lookUps σ ε Val).sec l) :
    ∀ e ∈ h, ∀ p, e.result.2 = .ok (some p) →
      ∃ t, ConfigRegistry.Binds (replay d h ()) e.result.1.name p t := by
  refine (serial_lasting (I := fun d => ConfigRegistry.Named (d ()))
    (P := fun e d => ∀ p, e.result.2 = .ok (some p) →
      ∃ t, ConfigRegistry.Binds (d ()) e.result.1.name p t) hs hd ?_ ?_ ?_).2
  · intro e he d hd
    obtain ⟨l, hl⟩ := hcalls e he
    rw [Calls.after_call hl, after_lookUp]
    exact (alone_grown hd l).named
  · intro e he d hd hresult p hp
    obtain ⟨l, hl⟩ := hcalls e he
    rw [Calls.result_call hl hresult] at hp ⊢
    rw [Calls.after_call hl, after_lookUp]
    exact ((alone_grown hd l).named _ p (alone_found hp).1).2
  · intro e he e' d hd hbound p hp
    obtain ⟨l, hl⟩ := hcalls e he
    obtain ⟨t, ht⟩ := hbound p hp
    rw [Calls.after_call hl, after_lookUp]
    exact ⟨t, (alone_grown hd l).keeps _ p t ht⟩

/-- Threads that look up variables at the same time find what they would find in
some order of the look-ups, and two of them find the same variable exactly if
they ask for the same name. -/
theorem lookups_share {clients : List (Client rwMutex Unit Unit (Registry σ ε Val) (Found Val))}
    (hclients : ∀ c ∈ clients, c.All fun sec => ∃ l, sec = (lookUps σ ε Val).sec l)
    {r : Registry σ ε Val} (hr : ConfigRegistry.Named r) {acts : List Nat}
    {s : LockSections.State rwMutex Unit Unit (Registry σ ε Val) (Found Val)}
    (hrun : exec LockSections.step (initial rwMutex clients fun _ => r) acts = .ok s) :
    (lookUps σ ε Val).InTurn (fun _ => r) (s.history.map Entry.result) ∧
      ((∀ t ∈ s.threads, ¬ t.Writes ()) →
        s.data () = (lookUps σ ε Val).afterAll (fun _ => r) (s.history.map Entry.result) ()) ∧
      (∀ (i : Nat) c, clients[i]? = some c → ∃ t, s.threads[i]? = some t ∧
        Path c (s.history.filter (fun e => e.thread = i)) t.pending) ∧
      ∀ e ∈ s.history, ∀ e' ∈ s.history, ∀ p q, e.result.2 = .ok (some p) →
        e'.result.2 = .ok (some q) → (p = q ↔ e.result.1.name = e'.result.1.name) := by
  have hs := run_serial rwMutex_lawful (fun c _ => guarded_of_one id c) hrun
  have hcalls := hs.all hclients
  obtain ⟨hturn, hlast⟩ := Calls.inTurn_of_serial hs.serial hcalls
  refine ⟨hturn, fun hquiet => (hs.data () hquiet).trans (congrFun hlast ()),
    fun i c hc => hs.path hc, ?_⟩
  intro e he e' he' p q hp hq
  obtain ⟨t, ht⟩ := found_bound hs.serial hr hcalls e he p hp
  obtain ⟨t', ht'⟩ := found_bound hs.serial hr hcalls e' he' q hq
  constructor
  · rintro rfl
    exact Registry.injective _ _ _ p ht.bound ht'.bound
  · intro hname
    rw [hname] at ht
    exact Option.some.inj (ht.bound.symm.trans ht'.bound)

end

/-- Two threads that look up one variable, which the first of them makes. -/
theorem lookups_share_two :
    let l : LookUp (fun _ : Unit => Nat) := .lookup "a".toList () 1 []
    let clients := [Client.ofList [(lookUps Unit Unit _).sec l],
      Client.ofList [(lookUps Unit Unit _).sec l]]
    ∃ s, exec LockSections.step (initial rwMutex clients fun _ => Registry.empty)
        [1, 1, 1, 1, 1, 0, 0, 0, 0] = .ok s ∧
      (lookUps Unit Unit _).InTurn (fun _ => Registry.empty) (s.history.map Entry.result) := by
  intro l clients
  have hclients : ∀ c ∈ clients, c.All fun sec => ∃ l, sec = (lookUps Unit Unit _).sec l := by
    intro c hc
    obtain rfl : c = Client.ofList [(lookUps Unit Unit _).sec l] :=
      List.eq_of_mem_replicate (n := 2) hc
    exact ⟨⟨l, rfl⟩, fun _ => trivial⟩
  obtain ⟨s, hs⟩ : ∃ s, exec LockSections.step (initial rwMutex clients fun _ => Registry.empty)
      [1, 1, 1, 1, 1, 0, 0, 0, 0] = .ok s := ⟨_, rfl⟩
  exact ⟨s, hs, (lookups_share hclients ConfigRegistry.empty_named hs).1⟩

/-! ### Loggers -/

/-- The code of `getLogger` in the scope of the manager's lock: a new logger is
made, given its root and entered. -/
def getLoggerBody (name : Str) : Body World (Str × Ptr) :=
  .act id fun w =>
    match KeyedMap.get? w.managed name with
    | some p => .ret (name, p)
    | none =>
      let logger := w.loggers.fresh
      .act (fun w => { w with loggers := w.loggers.alloc (Logger.new name) }) fun _ =>
        .act (fun w => { w with
            loggers := w.loggers.modify logger fun l => { l with root := some w.root } }) fun _ =>
          .act (fun w => { w with managed := w.managed.insert (name, logger) }) fun _ =>
            .ret (name, logger)

theorem getLoggerBody_run (name : Str) (w : World) :
    (getLoggerBody name).run w = ((w.getLogger name).1, name, (w.getLogger name).2) := by
  cases h : KeyedMap.get? w.managed name with
  | some p => simp [getLoggerBody, Body.run, World.getLogger, h]
  | none => simp [getLoggerBody, Body.run, World.getLogger, h, Heap.modify_alloc_fresh]

def getLoggers : Calls exclusive Unit Unit World Str Ptr where
  alone name w := w.getLogger name
  sec name := ⟨(), (), (), getLoggerBody name, nofun⟩
  run := getLoggerBody_run

theorem after_getLogger (name : Str) (d : Unit → World) :
    getLoggers.after name d () = ((d ()).getLogger name).1 :=
  Function.update_self _ _ _

/-- A look-up of another logger keeps a logger under its name. -/
theorem getLogger_keeps {w : World} {n name : Str} {p : Ptr}
    (h : KeyedMap.get? w.managed n = some p) :
    KeyedMap.get? (w.getLogger name).1.managed n = some p := by
  rw [World.getLogger]
  split
  · exact h
  · rename_i hnone
    have hne : name ≠ n := by
      rintro rfl
      cases hnone.symm.trans h
    exact (KeyedMap.get?_insert_of_new hnone n).trans ((if_neg hne).trans h)

section

variable {d : Unit → World} {h : List (Entry exclusive Unit Unit World (Str × Ptr))}

theorem got_managed (hs : Serial d h) (hd : WellFormed (d ()))
    (hcalls : ∀ e ∈ h, ∃ name, e.call = getLoggers.sec name) :
    WellFormed (replay d h ()) ∧
      ∀ e ∈ h, KeyedMap.get? (replay d h ()).managed e.result.1 = some e.result.2 := by
  refine serial_lasting (I := fun d => WellFormed (d ()))
    (P := fun e d => KeyedMap.get? (d ()).managed e.result.1 = some e.result.2) hs hd ?_ ?_ ?_
  · intro e he d hd
    obtain ⟨name, hname⟩ := hcalls e he
    rw [Calls.after_call hname, after_getLogger]
    exact getLogger_wellFormed hd name
  · intro e he d hd hresult
    obtain ⟨name, hname⟩ := hcalls e he
    rw [Calls.result_call hname hresult, Calls.after_call hname, after_getLogger]
    exact getLogger_bound name
  · intro e he e' d hd hbound
    obtain ⟨name, hname⟩ := hcalls e he
    rw [Calls.after_call hname, after_getLogger]
    exact getLogger_keeps hbound

end

/-- Threads that ask for loggers at the same time get what they would get in some
order of the calls: one logger for each name, however many ask for it first. -/
theorem loggers_share {clients : List (Client exclusive Unit Unit World (Str × Ptr))}
    (hclients : ∀ c ∈ clients, c.All fun sec => ∃ name, sec = getLoggers.sec name)
    {w : World} (hw : WellFormed w) {acts : List Nat}
    {s : LockSections.State exclusive Unit Unit World (Str × Ptr)}
    (hrun : exec LockSections.step (initial exclusive clients fun _ => w) acts = .ok s) :
    getLoggers.InTurn (fun _ => w) (s.history.map Entry.result) ∧
      ((∀ t ∈ s.threads, ¬ t.Writes ()) →
        s.data () = getLoggers.afterAll (fun _ => w) (s.history.map Entry.result) () ∧
        WellFormed (s.data ()) ∧
        ∀ e ∈ s.history, KeyedMap.get? (s.data ()).managed e.result.1 = some e.result.2) ∧
      (∀ (i : Nat) c, clients[i]? = some c → ∃ t, s.threads[i]? = some t ∧
        Path c (s.history.filter (fun e => e.thread = i)) t.pending) ∧
      ∀ e ∈ s.history, ∀ e' ∈ s.history,
        (e.result.2 = e'.result.2 ↔ e.result.1 = e'.result.1) := by
  have hs := run_serial exclusive_lawful (fun c _ => guarded_of_one id c) hrun
  have hcalls := hs.all hclients
  obtain ⟨hturn, hlast⟩ := Calls.inTurn_of_serial hs.serial hcalls
  obtain ⟨hlastw, hmanaged⟩ := got_managed hs.serial hw hcalls
  refine ⟨hturn, fun hquiet => ?_, fun i c hc => hs.path hc, fun e he e' he' => ⟨fun hp => ?_,
    fun hname => ?_⟩⟩
  · have hdata := hs.data () hquiet
    rw [hdata]
    exact ⟨congrFun hlast (), hlastw, hmanaged⟩
  · exact hlastw.injective (hmanaged e he) (hp ▸ hmanaged e' he')
  · have h := hmanaged e he
    rw [hname] at h
    exact Option.some.inj (h.symm.trans (hmanaged e' he'))

/-- Three threads, of which two ask for one logger. -/
theorem loggers_share_three :
    let clients := ["a".toList, "b".toList, "a".toList].map fun name =>
      Client.ofList [getLoggers.sec name]
    ∃ s, exec LockSections.step (initial exclusive clients fun _ => World.initial)
        [2, 2, 2, 2, 2, 2, 2, 0, 0, 0, 0, 1] = .ok s ∧
      getLoggers.InTurn (fun _ => World.initial) (s.history.map Entry.result) := by
  intro clients
  have hclients : ∀ c ∈ clients, c.All fun sec => ∃ name, sec = getLoggers.sec name := by
    intro c hc
    obtain ⟨name, _, rfl⟩ := List.mem_map.mp hc
    exact ⟨⟨name, rfl⟩, fun _ => trivial⟩
  obtain ⟨s, hs⟩ : ∃ s, exec LockSections.step (initial exclusive clients fun _ => World.initial)
      [2, 2, 2, 2, 2, 2, 2, 0, 0, 0, 0, 1] = .ok s := ⟨_, rfl⟩
  exact ⟨s, hs, (loggers_share hclients initial_wellFormed hs).1⟩

end Mumu.ConcurrentLookups
