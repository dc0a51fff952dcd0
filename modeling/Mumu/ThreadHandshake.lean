import Mumu.Executions
import Mumu.Threads

namespace Mumu.ThreadHandshake

open Mumu.LogLevels Mumu.Executions Mumu.Threads

/-! ### Progress of the new thread -/

def stage : Run → Nat
  | .unborn => 0
  | .setThis => 1
  | .copyName => 2
  | .setId => 3
  | .setSystemName => 4
  | .swapCb => 5
  | .notify => 6
  | .invoke => 7
  | .callback _ => 8
  | .done => 9

theorem notified_iff (r : Run) : r.notified ↔ 6 < stage r := by
  cases r <;> simp [Run.notified, stage]

/-- The calls that a callback still has to make. -/
def pending (x : Start) : Run → List Call
  | .callback rest => rest
  | .done => []
  | _ => x.cb

/-- The calls that use the thread's pointer to its object. -/
def Reaches : Call → Prop
  | .getThis => True
  | .setName name => name ≠ []

/-- The name of a thread after a call. -/
def rename (name : Str) : Call → Str
  | .getThis => name
  | .setName new => if new = [] then name else new

/-- What `run` has set, by how far it is. -/
structure Progress (x : Start) (s : State) : Prop where
  this : s.new.tThread = if 1 < stage s.new.run then some x.address else none
  id : 3 < stage s.new.run → s.thread.id = x.threadId
  name : stage s.new.run < 8 → s.thread.name = (Thread.new x).name
  getName : 2 < stage s.new.run → ∃ made, made ++ pending x s.new.run = x.cb ∧
    s.getName = made.foldl rename (Thread.new x).name
  objectCb : s.thread.cb = if stage s.new.run < 6 then some x.cb else none
  ownCb : s.new.cb = if stage s.new.run < 6 then none else some x.cb
  invoked : s.new.invokedBy = if stage s.new.run < 8 then [] else [x.threadId]

/-- How far the owner may be, and what it finds in the semaphore. -/
structure Handshake (s : State) : Prop where
  creating : s.owner = .creating ↔ stage s.new.run = 0
  notified : s.owner = .owning ∨ s.owner = .gone → 6 < stage s.new.run
  semaphore : s.thread.semaphore = if s.owner = .waiting ∧ 6 < stage s.new.run then 1 else 0

/-- `run` reaches the object before it notifies, and finds it alive. -/
def EarlyAccesses (s : State) : Prop :=
  ∀ a ∈ s.accesses, a.agent = .run → a.alive ∧ a.notified = false

structure Inv (x : Start) (s : State) : Prop where
  progress : Progress x s
  handshake : Handshake s
  early : EarlyAccesses s

variable {x : Start} {s t : State}

theorem initial_inv (x : Start) : Inv x (initial x) where
  progress := ⟨rfl, nofun, fun _ => rfl, nofun, rfl, rfl, rfl⟩
  handshake := ⟨by simp [initial, stage], by simp [initial], rfl⟩
  early := nofun

/-! ### Steps of the new thread -/

theorem callback_accesses (s : State) (c : Call) :
    (s.callback c).accesses = s.accesses ∨
      Reaches c ∧ ∃ agent, agent ≠ .run ∧ (s.callback c).accesses = (s.access agent).accesses := by
  cases c with
  | getThis =>
    rw [State.callback]
    split
    · exact .inl rfl
    · exact .inr ⟨trivial, .getThis, by decide, rfl⟩
  | setName name =>
    rw [State.callback, State.setName]
    split
    · exact .inl rfl
    · rename_i hne
      split
      · exact .inl rfl
      · exact .inr ⟨hne, .setName, by decide, rfl⟩

/-- A step reaches the object at most once: for itself before it notifies, and
after that for a call of the callback. -/
theorem run_accesses (h : run x s = .ok t) :
    t.accesses = s.accesses ∨
      stage s.new.run ≤ 6 ∧ t.accesses = (s.access .run).accesses ∨
      ∃ c rest agent, s.new.run = .callback (c :: rest) ∧ Reaches c ∧ agent ≠ .run ∧
        t.accesses = (s.access agent).accesses := by
  cases hr : s.new.run with
  | unborn | done =>
    rw [run, hr] at h
    cases h
  | setThis =>
    rw [run, hr] at h
    cases h
    exact .inl rfl
  | copyName | setId | setSystemName | swapCb | notify =>
    simp only [run, hr] at h
    cases h
    exact .inr (.inl ⟨by decide, rfl⟩)
  | invoke =>
    simp only [run, hr] at h
    split at h
    · cases h
    · cases h
      exact .inl rfl
  | callback rest =>
    cases rest with
    | nil =>
      simp only [run, hr] at h
      cases h
      exact .inl rfl
    | cons c rest =>
      simp only [run, hr] at h
      cases h
      obtain hsame | ⟨hreach, agent, hne, haccess⟩ := callback_accesses s c
      · exact .inl hsame
      · exact .inr (.inr ⟨c, rest, agent, rfl, hreach, hne, haccess⟩)

theorem forall_access {P : Access → Prop} (hs : ∀ a ∈ s.accesses, P a) {agent : Agent}
    (h : P ⟨agent, s.alive, s.new.run.notified⟩) : ∀ a ∈ (s.access agent).accesses, P a := by
  intro a ha
  obtain ha | ha := List.mem_append.mp ha
  · exact hs a ha
  · exact List.mem_singleton.mp ha ▸ h

/-- Until the new thread notifies, its owner waits. -/
theorem alive_of_stage (hs : Handshake s) (hr : stage s.new.run ≤ 6) : s.alive := by
  have halive : s.owner ≠ .gone := fun h => by
    have := hs.notified (.inr h)
    omega
  simpa [State.alive] using halive

theorem run_early (hs : Inv x s) (h : run x s = .ok t) : EarlyAccesses t := by
  rw [EarlyAccesses]
  obtain hsame | ⟨hr, haccess⟩ | ⟨c, rest, agent, _, _, hne, haccess⟩ := run_accesses h
  · rw [hsame]
    exact hs.early
  · have hn : ¬ s.new.run.notified := by
      rw [notified_iff]
      omega
    rw [haccess]
    exact forall_access hs.early fun _ => ⟨alive_of_stage hs.handshake hr, by simpa using hn⟩
  · rw [haccess]
    exact forall_access hs.early fun hagent => absurd hagent hne

/-- A call changes names only. -/
theorem callback_frame (s : State) (c : Call) :
    (s.callback c).owner = s.owner ∧
      (s.callback c).thread = { s.thread with name := (s.callback c).thread.name } ∧
      (s.callback c).new = { s.new with tThreadName := rename s.getName c } := by
  cases c with
  | getThis =>
    rw [State.callback]
    split <;> exact ⟨rfl, rfl, rfl⟩
  | setName name =>
    rw [State.callback, State.setName, rename]
    split
    · exact ⟨rfl, rfl, rfl⟩
    · split <;> exact ⟨rfl, rfl, rfl⟩

theorem callback_detached (s : State) (c : Call) :
    (s.callback c).detached = s.detached := by
  cases c with
  | getThis =>
    rw [State.callback]
    split <;> rfl
  | setName name =>
    rw [State.callback, State.setName]
    split_ifs <;> rfl

/-- A step of the new thread changes neither its owner nor its handle. -/
theorem run_frame (h : run x s = .ok t) :
    t.owner = s.owner ∧ t.thread.thread = s.thread.thread ∧ t.detached = s.detached := by
  cases hr : s.new.run with
  | unborn | done =>
    rw [run, hr] at h
    cases h
  | setThis | copyName | setId | setSystemName | swapCb | notify =>
    simp only [run, hr] at h
    cases h
    exact ⟨rfl, rfl, rfl⟩
  | invoke =>
    simp only [run, hr] at h
    split at h
    · cases h
    · cases h
      exact ⟨rfl, rfl, rfl⟩
  | callback rest =>
    cases rest with
    | nil =>
      simp only [run, hr] at h
      cases h
      exact ⟨rfl, rfl, rfl⟩
    | cons c rest =>
      simp only [run, hr] at h
      cases h
      obtain ⟨howner, hthread, _⟩ := callback_frame s c
      exact ⟨howner, by rw [State.goto, hthread], callback_detached s c⟩

theorem run_progress (hs : Progress x s) (h : run x s = .ok t) : Progress x t := by
  cases hr : s.new.run with
  | unborn | done =>
    rw [run, hr] at h
    cases h
  | setThis | copyName | setId | setSystemName | swapCb | notify =>
    simp only [run, hr] at h
    cases h
    obtain ⟨hthis, hid, hname, hget, hobj, hown, hinv⟩ := hs
    simp only [hr, stage] at hthis hid hname hget hobj hown hinv
    constructor <;> simp_all [stage, pending, State.getName, State.access]
  | invoke =>
    obtain ⟨hthis, hid, hname, hget, hobj, hown, hinv⟩ := hs
    simp only [hr, stage] at hthis hid hname hget hobj hown hinv
    simp only [run, hr, hown] at h
    cases h
    constructor <;> simp_all [stage, pending, State.getName]
  | callback rest =>
    obtain ⟨hthis, hid, hname, hget, hobj, hown, hinv⟩ := hs
    simp only [hr, stage] at hthis hid hname hget hobj hown hinv
    cases rest with
    | nil =>
      simp only [run, hr] at h
      cases h
      constructor <;> simp_all [stage, pending, State.getName, State.goto]
    | cons c rest =>
      simp only [run, hr] at h
      cases h
      obtain ⟨_, hthread, hnew⟩ := callback_frame s c
      obtain ⟨made, hmade, hrename⟩ := hget (by decide)
      refine ⟨?_, fun _ => ?_, nofun, fun _ => ?_, ?_, ?_, ?_⟩
      · simpa [State.goto, hnew, stage] using hthis
      · rw [State.goto, hthread]
        exact hid (by decide)
      · refine ⟨made ++ [c], by simpa [State.goto, pending] using hmade, ?_⟩
        simp [State.goto, State.getName, hnew, ← hrename]
      · rw [State.goto, hthread]
        exact hobj
      · rw [State.goto, hnew]
        exact hown
      · rw [State.goto, hnew]
        exact hinv

/-- A step of the new thread leaves its owner where it is, and raises the
semaphore as it notifies. -/
theorem run_handshake (hs : Handshake s) (h : run x s = .ok t) : Handshake t := by
  obtain ⟨hcreating, hnotified, hsem⟩ := hs
  cases hr : s.new.run with
  | unborn | done =>
    rw [run, hr] at h
    cases h
  | setThis | copyName | setId | setSystemName | swapCb =>
    simp only [run, hr] at h
    cases h
    simp only [hr, stage] at hcreating hnotified hsem
    constructor <;> simp_all [stage, State.access]
  | notify =>
    simp only [run, hr] at h
    cases h
    simp only [hr, stage] at hcreating hnotified hsem
    have howner : s.owner = .waiting := by
      cases howner : s.owner <;> simp_all
    constructor <;> simp_all [stage, State.access, Semaphore.notify]
  | invoke =>
    simp only [run, hr] at h
    split at h
    · cases h
    · cases h
      simp only [hr, stage] at hcreating hnotified hsem
      constructor <;> simp_all [stage]
  | callback rest =>
    simp only [hr, stage] at hcreating hnotified hsem
    cases rest with
    | nil =>
      simp only [run, hr] at h
      cases h
      constructor <;> simp_all [stage, State.goto]
    | cons c rest =>
      simp only [run, hr] at h
      cases h
      obtain ⟨howner, hthread, _⟩ := callback_frame s c
      refine ⟨?_, fun _ => by simp [State.goto, stage], ?_⟩
      · simpa [State.goto, stage, howner] using hcreating
      · rw [State.goto, hthread]
        simpa [stage, howner] using hsem

theorem run_inv (hs : Inv x s) (h : run x s = .ok t) : Inv x t :=
  ⟨run_progress hs.progress h, run_handshake hs.handshake h, run_early hs h⟩

/-! ### Steps of the owner -/

theorem Progress.of_same (hs : Progress x s) (hnew : t.new = s.new)
    (hid : t.thread.id = s.thread.id) (hname : t.thread.name = s.thread.name)
    (hcb : t.thread.cb = s.thread.cb) : Progress x t := by
  obtain ⟨hthis, hid', hname', hget, hobj, hown, hinv⟩ := hs
  rw [← hnew] at hthis hid' hname' hget hobj hown hinv
  rw [← hid] at hid'
  rw [← hname] at hname'
  rw [← hcb] at hobj
  refine ⟨hthis, hid', hname', ?_, hobj, hown, hinv⟩
  simpa [State.getName, hnew] using hget

theorem step_inv (hs : Inv x s) {a : Act} (h : step x s a = .ok t) : Inv x t := by
  cases a with
  | create =>
    rw [step] at h
    split at h
    · rename_i howner
      cases h
      have hr := hs.handshake.creating.mp howner
      have hsem := hs.handshake.semaphore
      obtain ⟨hthis, hid, hname, hget, hobj, hown, hinv⟩ := hs.progress
      simp only [hr, howner] at hthis hid hname hget hobj hown hinv hsem
      refine ⟨?_, ?_, hs.early⟩
      · constructor <;> simp_all [stage]
      · constructor <;> simp_all [stage]
    · cases h
  | wait =>
    rw [step] at h
    split at h
    · rename_i n howner hwait
      cases h
      obtain ⟨hcreating, hnotified, hsem⟩ := hs.handshake
      have hpos : s.thread.semaphore = n + 1 := by
        cases hn : s.thread.semaphore with
        | zero => simp [hn, Semaphore.wait] at hwait
        | succ m =>
          rw [hn] at hwait
          rw [Option.some.inj hwait]
      have hstage : 6 < stage s.new.run := by
        by_contra hlt
        simp [hlt, hpos] at hsem
      obtain rfl : n = 0 := by simpa [howner, hstage, hpos] using hsem
      refine ⟨hs.progress.of_same rfl rfl rfl rfl, ?_, hs.early⟩
      constructor <;> simp_all
    · cases h
  | join =>
    rw [step] at h
    split at h
    · split at h
      · cases h
        exact hs
      · split at h
        · cases h
          obtain ⟨hcreating, hnotified, hsem⟩ := hs.handshake
          exact ⟨hs.progress.of_same rfl rfl rfl rfl, ⟨hcreating, hnotified, hsem⟩, hs.early⟩
        · cases h
    · cases h
  | destroy =>
    rw [step] at h
    split at h
    · rename_i howner
      cases h
      refine ⟨hs.progress.of_same rfl rfl rfl rfl, ?_, hs.early⟩
      obtain ⟨hcreating, hnotified, hsem⟩ := hs.handshake
      constructor <;> simp_all
    · cases h
  | run => exact run_inv hs h

theorem inv_of_exec {acts : List Act} (h : exec (step x) (initial x) acts = .ok s) : Inv x s :=
  exec_invariant (P := fun _ => True) (fun _ _ _ _ hs hstep => step_inv hs hstep) acts
    (fun _ _ => trivial) (initial_inv x) h

/-! ### After the notification -/

/-- Once it has notified, the new thread goes by its own variables. -/
theorem run_new {s' : State} (hnew : s'.new = s.new) (hr : 6 < stage s.new.run)
    (h : run x s = .ok t) : ∃ t', run x s' = .ok t' ∧ t'.new = t.new ∧ 6 < stage t.new.run := by
  cases hrun : s.new.run with
  | unborn | setThis | copyName | setId | setSystemName | swapCb | notify =>
    rw [hrun] at hr
    exact absurd hr (by decide)
  | invoke =>
    simp only [run, hrun] at h
    split at h
    · cases h
    · rename_i calls hcalls
      cases h
      simp only [run, hnew, hrun, hcalls]
      exact ⟨_, rfl, rfl, by simp [stage]⟩
  | callback rest =>
    cases rest with
    | nil =>
      simp only [run, hrun] at h
      cases h
      simp only [run, hnew, hrun]
      refine ⟨_, rfl, ?_, by simp [State.goto, stage]⟩
      rw [State.goto, State.goto, hnew]
    | cons c rest =>
      simp only [run, hrun] at h
      cases h
      simp only [run, hnew, hrun]
      refine ⟨_, rfl, ?_, by simp [State.goto, stage]⟩
      rw [State.goto, State.goto, (callback_frame s' c).2.2, (callback_frame s c).2.2,
        State.getName, State.getName, hnew]
  | done =>
    rw [run, hrun] at h
    cases h

theorem exec_new {s' : State} (hnew : s'.new = s.new) (hr : 6 < stage s.new.run) (n : Nat)
    {u : State} (h : exec (step x) s (List.replicate n .run) = .ok u) :
    ∃ v, exec (step x) s' (List.replicate n .run) = .ok v ∧ v.new = u.new := by
  induction n generalizing s s' with
  | zero =>
    cases h
    exact ⟨s', rfl, hnew⟩
  | succ n ih =>
    rw [List.replicate_succ, exec] at h
    split at h
    · cases h
    · rename_i t ht
      obtain ⟨t', ht', hnew', hr'⟩ := run_new hnew hr ht
      obtain ⟨v, hv, hvu⟩ := ih hnew' hr' h
      exact ⟨v, exec_cons_ok ht' hv, hvu⟩

/-! ### The rest of a run -/

/-- How many steps the new thread has left. -/
def todo (x : Start) : Run → Nat
  | .callback rest => rest.length + 1
  | .done => 0
  | r => 9 - stage r + x.cb.length

theorem run_todo (hs : Progress x s) (hborn : 0 < stage s.new.run) (hr : s.new.run ≠ .done) :
    ∃ t, run x s = .ok t ∧ 0 < stage t.new.run ∧ todo x s.new.run = todo x t.new.run + 1 := by
  cases hrun : s.new.run with
  | unborn => simp [hrun, stage] at hborn
  | setThis | copyName | setId | setSystemName | swapCb | notify =>
    simp only [run, hrun]
    refine ⟨_, rfl, by simp [stage], ?_⟩
    simp only [todo, stage]
    omega
  | invoke =>
    have hown := hs.ownCb
    simp only [hrun, stage] at hown
    simp only [run, hrun, hown]
    refine ⟨_, rfl, by simp [stage], ?_⟩
    simp [todo, stage]
    omega
  | callback rest =>
    cases rest with
    | nil =>
      simp only [run, hrun]
      exact ⟨_, rfl, by simp [State.goto, stage], by simp [State.goto, todo]⟩
    | cons c rest =>
      simp only [run, hrun]
      exact ⟨_, rfl, by simp [State.goto, stage], by simp [State.goto, todo]⟩
  | done => exact absurd hrun hr

theorem run_finishes (hs : Inv x s) (hborn : 0 < stage s.new.run) :
    ∃ t, exec (step x) s (List.replicate (todo x s.new.run) .run) = .ok t ∧ Inv x t ∧
      t.new.run = .done := by
  induction hn : todo x s.new.run generalizing s with
  | zero =>
    refine ⟨s, rfl, hs, ?_⟩
    by_contra hr
    obtain ⟨t, _, _, htodo⟩ := run_todo hs.progress hborn hr
    omega
  | succ n ih =>
    have hr : s.new.run ≠ .done := by
      intro hr
      rw [hr] at hn
      cases hn
    obtain ⟨t, ht, hborn', htodo⟩ := run_todo hs.progress hborn hr
    obtain ⟨u, hu, hinv, hdone⟩ := ih (run_inv hs ht) hborn' (by omega)
    exact ⟨u, exec_cons_ok ht hu, hinv, hdone⟩

/-! ### The constructor and the new thread -/

/-- A start whose callback makes one call. -/
def calling (c : Call) : Start := ⟨[c], "worker".toList, 4096, 7, 1, by decide⟩

/-- What a constructor that has returned gives; `run` reaches the object before
that only, so it goes on as if the object were there; and it invokes the
callback once. -/
structure StartsUp (x : Start) (s : State) : Prop where
  returned : s.owner = .owning →
    s.getId = x.threadId ∧ s.getThis = some x.address ∧ s.thread.cb = none
  named : s.owner = .owning → ∃ made, made ++ pending x s.new.run = x.cb ∧
    s.getName = made.foldl rename (Thread.new x).name
  early : EarlyAccesses s
  unaffected : ∀ t, step x s .destroy = .ok t →
    ∀ n u, exec (step x) s (List.replicate n .run) = .ok u →
      ∃ v, exec (step x) t (List.replicate n .run) = .ok v ∧ v.new = u.new
  returns : s.owner = .waiting → s.new.run.notified → ∃ t, step x s .wait = .ok t
  once : s.new.invokedBy = [] ∨ s.new.invokedBy = [x.threadId] ∧ s.new.run.notified
  finishes : s.owner ≠ .creating → ∃ n t, exec (step x) s (List.replicate n .run) = .ok t ∧
    t.new.run = .done ∧ t.new.invokedBy = [x.threadId]

theorem Inv.unaffected (hs : Inv x s) (ht : step x s .destroy = .ok t) (n : Nat) {u : State}
    (hu : exec (step x) s (List.replicate n .run) = .ok u) :
    ∃ v, exec (step x) t (List.replicate n .run) = .ok v ∧ v.new = u.new := by
  rw [step] at ht
  split at ht
  · rename_i howner
    cases ht
    exact exec_new (by rfl) (hs.handshake.notified (.inl howner)) n hu
  · cases ht

theorem Inv.finishes (hs : Inv x s) (howner : s.owner ≠ .creating) :
    ∃ n t, exec (step x) s (List.replicate n .run) = .ok t ∧ t.new.run = .done ∧
      t.new.invokedBy = [x.threadId] := by
  have hborn : 0 < stage s.new.run := Nat.pos_of_ne_zero fun h =>
    howner (hs.handshake.creating.mpr h)
  obtain ⟨t, ht, hinv, hdone⟩ := run_finishes hs hborn
  have hinvoked := hinv.progress.invoked
  rw [hdone] at hinvoked
  exact ⟨_, t, ht, hdone, hinvoked⟩

/-- Start-up, for every callback and name and in every order of the steps of the
two threads. -/
theorem constructor_startsUp (x : Start) (acts : List Act) (s : State)
    (h : exec (step x) (initial x) acts = .ok s) : StartsUp x s := by
  have hs := inv_of_exec h
  refine ⟨fun howner => ?_, fun howner => ?_, hs.early, fun t ht n u hu => hs.unaffected ht n hu,
    fun howner hnotified => ?_, ?_, hs.finishes⟩
  · have hr := hs.handshake.notified (.inl howner)
    have hthis := hs.progress.this
    have hcb := hs.progress.objectCb
    rw [if_pos (by omega)] at hthis
    rw [if_neg (by omega)] at hcb
    exact ⟨hs.progress.id (by omega), hthis, hcb⟩
  · have hr := hs.handshake.notified (.inl howner)
    exact hs.progress.getName (by omega)
  · have hsem := hs.handshake.semaphore
    rw [notified_iff] at hnotified
    simp only [howner, hnotified, and_self, if_true] at hsem
    simp only [step, howner, hsem, Semaphore.wait]
    exact ⟨_, rfl⟩
  · have hinvoked := hs.progress.invoked
    split at hinvoked
    · exact .inl hinvoked
    · refine .inr ⟨hinvoked, ?_⟩
      rw [notified_iff]
      omega

theorem calling_startsUp :
    ∃ s, exec (step (calling .getThis)) (initial (calling .getThis))
        [.create, .run, .run, .run, .run, .run, .run, .wait] = .ok s ∧
      StartsUp (calling .getThis) s :=
  ⟨_, rfl, constructor_startsUp (calling .getThis)
    [.create, .run, .run, .run, .run, .run, .run, .wait] _ rfl⟩

/-- A callback can set another name before the constructor has returned. -/
theorem renamed_before_return :
    ∃ s, exec (step (calling (.setName "w1".toList))) (initial (calling (.setName "w1".toList)))
        [.create, .run, .run, .run, .run, .run, .run, .run, .run, .wait] = .ok s ∧
      s.owner = .owning ∧ s.getName ≠ "worker".toList :=
  ⟨_, rfl, rfl, by decide⟩

end Mumu.ThreadHandshake
