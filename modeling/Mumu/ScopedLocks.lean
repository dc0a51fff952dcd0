import Mumu.Executions
import Mumu.Mutexes

namespace Mumu.ScopedLocks

open Mumu.Executions Mumu.Mutexes

/-! ### Guards -/

/-- Where a guard is: before and after the call on its mutex in a constructor or
`lock`, between calls, and before and after the call in `unlock` or, for the
last time, in the destructor. -/
inductive Pc where
  | locking
  | gotLock
  | idle
  | unlocking (last : Bool)
  | gaveLock (last : Bool)
  | gone
  deriving DecidableEq

/-- A guard with its flag, and how often it has locked and unlocked the mutex. -/
structure Guard (Mode : Type) where
  mode : Mode
  pc : Pc
  locked : Bool
  acquired : Nat
  released : Nat

namespace Guard

variable {Mode State : Type}

def construct (m : Mode) : Guard Mode := ⟨m, .locking, false, 0, 0⟩

/-- `lock`, `rdlock` or `wrlock`, each in its own template. -/
def lock (g : Guard Mode) : Guard Mode := if g.locked then g else { g with pc := .locking }

def unlock (g : Guard Mode) : Guard Mode :=
  if g.locked then { g with pc := .unlocking false } else g

/-- The destructor does not look at the flag. -/
def destroy (g : Guard Mode) : Guard Mode := { g with pc := .unlocking true }

/-- The next step of the call that a guard is in. -/
def run (M : MutexType Mode State) (g : Guard Mode) (s : State) : Option (State × Guard Mode) :=
  match g.pc with
  | .locking =>
    (M.lock g.mode s).map (fun s => (s, { g with pc := .gotLock, acquired := g.acquired + 1 }))
  | .gotLock => some (s, { g with pc := .idle, locked := true })
  | .unlocking last =>
    some (M.unlock s, { g with pc := .gaveLock last, released := g.released + 1 })
  | .gaveLock last => some (s, { g with pc := if last then .gone else .idle, locked := false })
  | .idle | .gone => none

def holds (g : Guard Mode) : Bool := g.released < g.acquired

end Guard

/-! ### Any number of guards on one mutex -/

inductive Act (Mode : Type) where
  | construct (m : Mode)
  | lock (i : Nat)
  | unlock (i : Nat)
  | destroy (i : Nat)
  | run (i : Nat)

def scopedLockTmpl : Act Unit := .construct ()

def readScopedLockTmpl : Act RWMode := .construct .read

def writeScopedLockTmpl : Act RWMode := .construct .write

structure Guards (Mode State : Type) where
  mutex : State
  guards : List (Guard Mode)

section

variable {Mode State : Type}

/-- A guard is called between its calls only, by the thread that has it. -/
def call (s : Guards Mode State) (i : Nat) (f : Guard Mode → Guard Mode) :
    Except Unit (Guards Mode State) :=
  match s.guards[i]? with
  | none => .error ()
  | some g =>
    if g.pc = .idle then .ok { s with guards := s.guards.set i (f g) } else .error ()

/-- One step of one thread; there is none where the thread has to wait. -/
def step (M : MutexType Mode State) (s : Guards Mode State) :
    Act Mode → Except Unit (Guards Mode State)
  | .construct m => .ok { s with guards := s.guards ++ [.construct m] }
  | .lock i => call s i Guard.lock
  | .unlock i => call s i Guard.unlock
  | .destroy i => call s i Guard.destroy
  | .run i =>
    match s.guards[i]? with
    | none => .error ()
    | some g =>
      match g.run M s.mutex with
      | none => .error ()
      | some (mutex, g') => .ok ⟨mutex, s.guards.set i g'⟩

def initial (M : MutexType Mode State) : Guards Mode State := ⟨M.free, []⟩

/-- A guard releases the mutex as often as it acquires it, and only while it
holds it; one that does not share the mutex holds it alone. -/
structure Disciplined (M : MutexType Mode State) (s : Guards Mode State) : Prop where
  balanced : ∀ g ∈ s.guards, g.released ≤ g.acquired ∧ (g.pc = .gone → g.released = g.acquired)
  releases : ∀ g ∈ s.guards, ∀ last, g.pc = .unlocking last → g.holds
  alone : ∀ (i j : Nat) (g h : Guard Mode), s.guards[i]? = some g → s.guards[j]? = some h →
    g.holds → h.holds → M.shared g.mode = false → i = j

/-- No guard is destroyed after its last `unlock`. -/
def DestroysLocked (s : Guards Mode State) : Act Mode → Prop
  | .destroy i => ∀ g, s.guards[i]? = some g → g.pc = .idle → g.locked = true
  | _ => True

end

/-! ### The invariant -/

section

variable {Mode State : Type} {M : MutexType Mode State}

/-- What a guard has acquired and released, by where it is. -/
def Guard.Sound (g : Guard Mode) : Prop :=
  g.acquired = g.released +
    match g.pc with
    | .gotLock | .unlocking _ => 1
    | .idle => if g.locked then 1 else 0
    | .locking | .gaveLock _ | .gone => 0

/-- A guard between calls holds the mutex as its flag says. -/
theorem holds_idle {g : Guard Mode} (hg : g.Sound) (hidle : g.pc = .idle) :
    g.holds = g.locked := by
  simp only [Guard.Sound, hidle] at hg
  cases hl : g.locked <;> simp [Guard.holds, hg, hl]

theorem Guard.run_mode {g g' : Guard Mode} {s s' : State} (h : g.run M s = some (s', g')) :
    g'.mode = g.mode := by
  cases hpc : g.pc with
  | locking =>
    simp only [Guard.run, hpc] at h
    obtain ⟨_, _, heq⟩ := Option.map_eq_some_iff.mp h
    cases heq
    rfl
  | gotLock | unlocking last | gaveLock last =>
    simp only [Guard.run, hpc] at h
    cases h
    rfl
  | idle | gone =>
    simp only [Guard.run, hpc] at h
    cases h

variable [DecidableEq Mode]

def held (s : Guards Mode State) (m : Mode) : Nat :=
  s.guards.countP (fun g => g.holds && g.mode = m)

structure Inv (hM : Lawful M) (s : Guards Mode State) : Prop where
  sound : ∀ g ∈ s.guards, g.Sound
  counts : hM.Counts s.mutex (held s)

variable {hM : Lawful M} {s : Guards Mode State}

theorem initial_inv : Inv hM (initial M) := ⟨fun _ h => absurd h List.not_mem_nil, hM.free⟩

section

variable {i : Nat} {g : Guard Mode} (hi : s.guards[i]? = some g) (g' : Guard Mode)
  (hmode : g'.mode = g.mode)

include hi hmode

theorem held_set (mutex : State) (m : Mode) :
    held ⟨mutex, s.guards.set i g'⟩ m + (if g.holds ∧ g.mode = m then 1 else 0) =
      held s m + (if g'.holds ∧ g.mode = m then 1 else 0) := by
  have h := countP_set_add (p := fun g => g.holds && g.mode = m) hi g'
  simpa [held, hmode] using h

theorem held_same (mutex : State) (hholds : g'.holds = g.holds) :
    held ⟨mutex, s.guards.set i g'⟩ = held s := by
  funext m
  have h := held_set hi g' hmode mutex m
  rw [hholds] at h
  omega

theorem held_gain (mutex : State) (hold : g.holds = false) (hnew : g'.holds = true) :
    held ⟨mutex, s.guards.set i g'⟩ = Function.update (held s) g.mode (held s g.mode + 1) := by
  funext m
  have h := held_set hi g' hmode mutex m
  rw [hold, hnew] at h
  by_cases hm : m = g.mode
  · subst hm
    simpa using h
  · simpa [hm, Ne.symm hm] using h

theorem held_loss (mutex : State) (hold : g.holds = true) (hnew : g'.holds = false) :
    held ⟨mutex, s.guards.set i g'⟩ = Function.update (held s) g.mode (held s g.mode - 1) := by
  funext m
  have h := held_set hi g' hmode mutex m
  rw [hold, hnew] at h
  by_cases hm : m = g.mode
  · subst hm
    simp only [true_and, if_true] at h
    rw [Function.update_self]
    simp at h
    omega
  · simpa [hm, Ne.symm hm] using h

end

theorem sound_set (hs : Inv hM s) {i : Nat} {g' : Guard Mode} (hg' : g'.Sound) :
    ∀ g ∈ s.guards.set i g', g.Sound := by
  intro g hg
  obtain hg | rfl := List.mem_or_eq_of_mem_set hg
  · exact hs.sound g hg
  · exact hg'

/-- A call begins, and the mutex does not change. -/
theorem call_inv (hs : Inv hM s) {i : Nat} {f : Guard Mode → Guard Mode} {t : Guards Mode State}
    (h : call s i f = .ok t)
    (hf : ∀ g, s.guards[i]? = some g → g.pc = .idle → g.Sound →
      (f g).Sound ∧ (f g).mode = g.mode ∧ (f g).holds = g.holds) : Inv hM t := by
  rw [call] at h
  split at h
  · cases h
  · rename_i g hg
    split at h
    · rename_i hidle
      cases h
      obtain ⟨hsound, hmode, hholds⟩ := hf g hg hidle (hs.sound g (List.mem_of_getElem? hg))
      refine ⟨sound_set hs hsound, ?_⟩
      rw [held_same hg _ hmode _ hholds]
      exact hs.counts
    · cases h

theorem run_inv (hs : Inv hM s) {i : Nat} {g g' : Guard Mode} (hg : s.guards[i]? = some g)
    {mutex : State} (h : g.run M s.mutex = some (mutex, g')) :
    Inv hM ⟨mutex, s.guards.set i g'⟩ := by
  have hsound := hs.sound g (List.mem_of_getElem? hg)
  have hmode := Guard.run_mode h
  cases hpc : g.pc with
  | locking =>
    simp only [Guard.Sound, hpc] at hsound
    simp only [Guard.run, hpc] at h
    obtain ⟨s', hlock, heq⟩ := Option.map_eq_some_iff.mp h
    cases heq
    refine ⟨sound_set hs (congrArg (· + 1) hsound), ?_⟩
    rw [held_gain hg _ hmode mutex (by simp [Guard.holds, hsound]) (by simp [Guard.holds, hsound])]
    exact hM.lock hs.counts hlock
  | gotLock =>
    simp only [Guard.Sound, hpc] at hsound
    simp only [Guard.run, hpc] at h
    cases h
    refine ⟨sound_set hs hsound, ?_⟩
    rw [held_same hg _ hmode s.mutex rfl]
    exact hs.counts
  | unlocking last =>
    simp only [Guard.Sound, hpc] at hsound
    simp only [Guard.run, hpc] at h
    cases h
    have hholds : g.holds = true := by simp [Guard.holds, hsound]
    have hpos : 0 < held s g.mode :=
      List.countP_pos_iff.mpr ⟨g, List.mem_of_getElem? hg, by simp [hholds]⟩
    refine ⟨sound_set hs hsound, ?_⟩
    rw [held_loss hg _ hmode _ hholds (by simp [Guard.holds, hsound])]
    exact hM.unlock hs.counts hpos
  | gaveLock last =>
    simp only [Guard.Sound, hpc] at hsound
    simp only [Guard.run, hpc] at h
    cases h
    refine ⟨sound_set hs ?_, ?_⟩
    · cases last <;> exact hsound
    · rw [held_same hg _ hmode s.mutex rfl]
      exact hs.counts
  | idle =>
    simp only [Guard.run, hpc] at h
    cases h
  | gone =>
    simp only [Guard.run, hpc] at h
    cases h

theorem step_inv (s : Guards Mode State) (a : Act Mode) (t : Guards Mode State) (_ : True)
    (hs : Inv hM s) (hlocked : DestroysLocked s a) (h : step M s a = .ok t) : Inv hM t := by
  cases a with
  | construct m =>
    cases h
    refine ⟨fun g hg => ?_, ?_⟩
    · obtain hg | hg := List.mem_append.mp hg
      · exact hs.sound g hg
      · rw [List.mem_singleton.mp hg]
        rfl
    · have hsame : held ⟨s.mutex, s.guards ++ [.construct m]⟩ = held s := by
        funext m'
        simp [held, List.countP_append, Guard.holds, Guard.construct]
      rw [hsame]
      exact hs.counts
  | lock i =>
    apply call_inv hs h
    intro g _ hidle hsound
    rw [Guard.lock]
    split
    · exact ⟨hsound, rfl, rfl⟩
    · rename_i hl
      rw [Guard.Sound, hidle] at hsound
      simp only [hl] at hsound
      exact ⟨hsound, rfl, rfl⟩
  | unlock i =>
    apply call_inv hs h
    intro g _ hidle hsound
    rw [Guard.unlock]
    split
    · rename_i hl
      rw [Guard.Sound, hidle] at hsound
      simp only [hl] at hsound
      exact ⟨hsound, rfl, rfl⟩
    · exact ⟨hsound, rfl, rfl⟩
  | destroy i =>
    apply call_inv hs h
    intro g hg hidle hsound
    have hl := hlocked g hg hidle
    rw [Guard.Sound, hidle] at hsound
    simp only [hl] at hsound
    exact ⟨hsound, rfl, rfl⟩
  | run i =>
    rw [step] at h
    split at h
    · cases h
    · rename_i g hg
      split at h
      · cases h
      · rename_i hrun
        cases h
        exact run_inv hs hg hrun

theorem Inv.disciplined (hs : Inv hM s) : Disciplined M s := by
  refine ⟨fun g hg => ?_, fun g hg last hpc => ?_, fun i j g h hg hh hgh hhh hm => ?_⟩
  · have hsound := hs.sound g hg
    rw [Guard.Sound] at hsound
    refine ⟨by omega, fun hpc => ?_⟩
    rw [hpc] at hsound
    exact hsound.symm
  · have hsound := hs.sound g hg
    rw [Guard.Sound, hpc] at hsound
    simp [Guard.holds, hsound]
  · have hgmem : 0 < held s g.mode :=
      List.countP_pos_iff.mpr ⟨g, List.mem_of_getElem? hg, by simp [hgh]⟩
    have hhmem : 0 < held s h.mode :=
      List.countP_pos_iff.mpr ⟨h, List.mem_of_getElem? hh, by simp [hhh]⟩
    obtain ⟨hone, hnone⟩ := hM.alone hs.counts hm hgmem
    have hmode : h.mode = g.mode := by
      by_contra hne
      have := hnone h.mode hne
      omega
    exact eq_of_countP_le_one hone.le hg hh (by simp [hgh]) (by simp [hhh, hmode])

theorem step_destroys (s : Guards Mode State) (a : Act Mode) (_ : True) (hs : Inv hM s)
    (hunlocked : ¬ DestroysLocked s a) : ∃ t, step M s a = .ok t ∧ ¬ Disciplined M t := by
  cases a with
  | destroy i =>
    simp only [DestroysLocked, not_forall] at hunlocked
    obtain ⟨g, hg, hidle, hl⟩ := hunlocked
    refine ⟨⟨s.mutex, s.guards.set i g.destroy⟩, ?_, fun h => ?_⟩
    · simp [step, call, hg, hidle]
    · have hholds := holds_idle (hs.sound g (List.mem_of_getElem? hg)) hidle
      have hlt : i < s.guards.length := (List.getElem?_eq_some_iff.mp hg).1
      have hmem : g.destroy ∈ s.guards.set i g.destroy := List.mem_set hlt _
      have hdestroy : g.destroy.holds = g.holds := rfl
      have hrelease := h.releases g.destroy hmem true rfl
      rw [hdestroy, hholds] at hrelease
      exact hl hrelease
  | _ => exact absurd trivial hunlocked

end

/-- Guards keep discipline in every state of a run exactly if none is destroyed
unlocked: both for an exclusive mutex, and for one with readers and writers. -/
theorem guards_disciplined_iff (acts : List (Act Unit)) (acts' : List (Act RWMode)) :
    ((∀ pre s, pre <+: acts → exec (step exclusive) (initial exclusive) pre = .ok s →
        Disciplined exclusive s) ↔
      Meets (step exclusive) DestroysLocked (initial exclusive) acts) ∧
    ((∀ pre s, pre <+: acts' → exec (step rwMutex) (initial rwMutex) pre = .ok s →
        Disciplined rwMutex s) ↔
      Meets (step rwMutex) DestroysLocked (initial rwMutex) acts') :=
  ⟨exec_always_iff (I := Inv exclusive_lawful) (fun _ hs => hs.disciplined) step_inv step_destroys
      acts (fun _ _ => trivial) initial_inv,
    exec_always_iff (I := Inv rwMutex_lawful) (fun _ hs => hs.disciplined) step_inv step_destroys
      acts' (fun _ _ => trivial) initial_inv⟩

/-- A guard that is destroyed unlocked lets a third one in beside the second. -/
theorem two_guards_hold :
    ∃ s, exec (step exclusive) (initial exclusive)
        [scopedLockTmpl, .run 0, .run 0, .unlock 0, .run 0, .run 0,
          scopedLockTmpl, .run 1, .run 1, .destroy 0, .run 0, scopedLockTmpl, .run 2] = .ok s ∧
      (s.guards.map Guard.holds = [false, true, true] ∧ ¬ Disciplined exclusive s) := by
  refine ⟨_, rfl, rfl, fun h => ?_⟩
  exact absurd (h.alone 1 2 _ _ rfl rfl rfl rfl rfl) (by decide)

end Mumu.ScopedLocks
