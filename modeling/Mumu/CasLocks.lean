import Mumu.ScopedLocks
import Mathlib.Algebra.Ring.Int.Defs

namespace Mumu.CasLocks

open Mumu.Executions Mumu.Mutexes Mumu.ScopedLocks

/-! ### The lock -/

/-- The old value of an atomic flag, and the flag as it is then: set. -/
def testAndSet (flag : Bool) : Bool × Bool := (flag, true)

def clear (_flag : Bool) : Bool := false

/-- One round of the loop in `lock`, which ends the loop if the flag was clear.
The constructor clears the flag, whatever it is. -/
def casLock : MutexType Unit Bool where
  free := clear true
  lock _ flag := if (testAndSet flag).1 then none else some (testAndSet flag).2
  unlock flag := clear flag
  shared _ := false

/-- Seen from the rounds that end the loop, the lock is an exclusive mutex. -/
def casLock_lawful : Lawful casLock := exclusive_lawful

/-! ### Threads -/

variable {R : Type}

/-- What a thread does next under its guard; it writes one more than it has read. -/
inductive Body (R : Type) where
  | read
  | write (v : R)
  | leave

/-- A thread with the number of critical sections that it has not begun. Between
two of them the guard of the first one is gone. -/
structure Thread (R : Type) where
  sections : Nat
  guard : Guard Unit
  body : Body R

def Thread.start (k : Nat) : Thread R := ⟨k, ⟨(), .gone, false, 0, 0⟩, .leave⟩

/-- The thread is between its successful test-and-set and its clear. -/
def Thread.inside (t : Thread R) : Bool := t.guard.holds

def Thread.finished (t : Thread R) : Prop := t.sections = 0 ∧ t.guard.pc = .gone

structure State (R : Type) where
  flag : Bool
  counter : R
  threads : List (Thread R)

/-- The next step of a thread: in its critical section, or in the constructor or
the destructor of its guard. -/
def Thread.run [Add R] [One R] (flag : Bool) (counter : R) (t : Thread R) :
    Option (Bool × R × Thread R) :=
  match t.guard.pc with
  | .gone =>
    match t.sections with
    | 0 => none
    | n + 1 => some (flag, counter, ⟨n, .construct (), .read⟩)
  | .idle =>
    match t.body with
    | .read => some (flag, counter, { t with body := .write counter })
    | .write v => some (flag, v + 1, { t with body := .leave })
    | .leave => some (flag, counter, { t with guard := t.guard.destroy })
  | _ =>
    match t.guard.run casLock flag with
    | some (flag, guard) => some (flag, counter, { t with guard := guard })
    -- a round that finds the flag set has set it again
    | none => some ((testAndSet flag).2, counter, t)

/-- One atomic step of the `i`-th thread. -/
def step [Add R] [One R] (s : State R) (i : Nat) : Except Unit (State R) :=
  match s.threads[i]? with
  | none => .error ()
  | some t =>
    match t.run s.flag s.counter with
    | none => .error ()
    | some (flag, counter, t') => .ok ⟨flag, counter, s.threads.set i t'⟩

def initial (counter : R) (ks : List Nat) : State R := ⟨casLock.free, counter, ks.map Thread.start⟩

/-! ### What holds of a thread -/

/-- The guards of the threads, as guards on one mutex. -/
def State.guards (s : State R) : Guards Unit Bool := ⟨s.flag, s.threads.map Thread.guard⟩

/-- Where a thread is in its section, by where its guard is; what it has read
there is what the counter still is. -/
def Thread.Sound (counter : R) (t : Thread R) : Prop :=
  match t.guard.pc with
  | .locking | .gotLock => t.body = .read
  | .idle => t.guard.locked = true ∧ ∀ v, t.body = .write v → v = counter
  | .unlocking last | .gaveLock last => last = true ∧ t.body = .leave
  | .gone => t.body = .leave

/-- The writes that a thread still has to make. -/
def Thread.owed (t : Thread R) : Nat :=
  t.sections +
    match t.body with
    | .leave => 0
    | .read | .write _ => 1

variable {s s' : State R} {i : Nat} {t t' : Thread R}

theorem get_guard (ht : s.threads[i]? = some t) : s.guards.guards[i]? = some t.guard := by
  rw [State.guards, List.getElem?_map, ht]
  rfl

/-- A thread outside its section may find another value in the counter. -/
theorem sound_outside (hs : ScopedLocks.Inv casLock_lawful s.guards) (ht : t ∈ s.threads)
    (hsound : t.Sound s.counter) (hout : t.inside = false) (counter : R) : t.Sound counter := by
  have hguard := hs.sound t.guard (List.mem_map_of_mem ht)
  rw [Thread.inside] at hout
  cases hpc : t.guard.pc with
  | idle =>
    have hlocked := holds_idle hguard hpc
    simp only [Thread.Sound, hpc] at hsound
    rw [hout, hsound.1] at hlocked
    cases hlocked
  | _ =>
    simp only [Thread.Sound, hpc] at hsound ⊢
    exact hsound

theorem guards_set (s : State R) (flag : Bool) (counter : R) (i : Nat) (t' : Thread R) :
    State.guards ⟨flag, counter, s.threads.set i t'⟩ =
      ⟨flag, s.guards.guards.set i t'.guard⟩ := by
  rw [State.guards, State.guards, List.map_set]

/-! ### The kinds of steps -/

variable [AddMonoidWithOne R]

inductive Moves (s : State R) (i : Nat) : State R → Prop
  | enter {t : Thread R} {n : Nat} (ht : s.threads[i]? = some t) (hpc : t.guard.pc = .gone)
      (hn : t.sections = n + 1) :
      Moves s i { s with threads := s.threads.set i ⟨n, .construct (), .read⟩ }
  | read {t : Thread R} (ht : s.threads[i]? = some t) (hpc : t.guard.pc = .idle)
      (hbody : t.body = .read) :
      Moves s i { s with threads := s.threads.set i { t with body := .write s.counter } }
  | write {t : Thread R} {v : R} (ht : s.threads[i]? = some t) (hpc : t.guard.pc = .idle)
      (hbody : t.body = .write v) :
      Moves s i { s with counter := v + 1, threads := s.threads.set i { t with body := .leave } }
  | leave {t : Thread R} (ht : s.threads[i]? = some t) (hpc : t.guard.pc = .idle)
      (hbody : t.body = .leave) :
      Moves s i { s with threads := s.threads.set i { t with guard := t.guard.destroy } }
  | guard {t : Thread R} {flag : Bool} {g : Guard Unit} (ht : s.threads[i]? = some t)
      (hrun : t.guard.run casLock s.flag = some (flag, g)) :
      Moves s i ⟨flag, s.counter, s.threads.set i { t with guard := g }⟩
  | spin (hflag : s.flag = true) : Moves s i s

/-- Only the loop in `lock` has to wait, and only while the flag is set. -/
theorem run_eq_none {g : Guard Unit} {flag : Bool} (h : g.run casLock flag = none)
    (hidle : g.pc ≠ .idle) (hgone : g.pc ≠ .gone) : flag = true := by
  cases hpc : g.pc with
  | locking =>
    simp only [Guard.run, hpc, casLock, Option.map_eq_none_iff] at h
    cases flag with
    | true => rfl
    | false => cases h
  | gotLock | unlocking last | gaveLock last =>
    simp only [Guard.run, hpc] at h
    cases h
  | idle => exact absurd hpc hidle
  | gone => exact absurd hpc hgone

theorem step_moves (h : step s i = .ok s') : Moves s i s' := by
  rw [step] at h
  split at h
  · cases h
  · rename_i t ht
    split at h
    · cases h
    · rename_i flag counter t' hrun
      cases h
      rw [Thread.run] at hrun
      split at hrun
      · rename_i hpc
        split at hrun
        · cases hrun
        · rename_i n hn
          cases hrun
          exact .enter ht hpc hn
      · rename_i hpc
        split at hrun <;> rename_i hbody <;> cases hrun
        · exact .read ht hpc hbody
        · exact .write ht hpc hbody
        · exact .leave ht hpc hbody
      · rename_i hgone hidle
        split at hrun <;> rename_i hguard <;> cases hrun
        · exact .guard ht hguard
        · have hflag := run_eq_none hguard hidle hgone
          have hset : (testAndSet s.flag).2 = s.flag := hflag.symm
          rw [set_same ht, hset]
          exact .spin hflag

/-! ### The invariant -/

structure Inv (counter : R) (total : Nat) (s : State R) : Prop where
  guards : ScopedLocks.Inv casLock_lawful s.guards
  sound : ∀ t ∈ s.threads, t.Sound s.counter
  count : ∃ n : Nat, s.counter = counter + n ∧ n + (s.threads.map Thread.owed).sum = total

variable {c : R} {total : Nat}

theorem initial_inv (c : R) (ks : List Nat) : Inv c ks.sum (initial c ks) := by
  refine ⟨⟨fun g hg => ?_, ?_⟩, fun t ht => ?_, 0, by simp [initial], ?_⟩
  · simp only [State.guards, initial, List.map_map, List.mem_map] at hg
    obtain ⟨k, -, rfl⟩ := hg
    rfl
  · have hnone : held (initial c ks).guards = fun _ => 0 := by
      funext m
      simp [held, State.guards, initial, Thread.start, Guard.holds, Function.comp_def]
    rw [hnone]
    exact casLock_lawful.free
  · obtain ⟨k, -, rfl⟩ := List.mem_map.mp ht
    rfl
  · have howed : ∀ k, (Thread.start k : Thread R).owed = k := fun k => rfl
    simp [initial, Function.comp_def, howed]

/-- The other threads need not be looked at if the counter stays, or if the thread
that changes it is inside. -/
theorem sound_set (hs : Inv c total s) (ht : s.threads[i]? = some t) {counter : R}
    (hcounter : counter = s.counter ∨ t.inside = true) (ht' : t'.Sound counter) :
    ∀ u ∈ s.threads.set i t', u.Sound counter := by
  intro u hu
  obtain ⟨j, hj⟩ := List.getElem?_of_mem hu
  by_cases hij : i = j
  · subst hij
    rw [List.getElem?_set_self (List.getElem?_eq_some_iff.mp ht).1] at hj
    exact Option.some.inj hj ▸ ht'
  · rw [List.getElem?_set_ne hij] at hj
    have hmem := List.mem_of_getElem? hj
    obtain rfl | hin := hcounter
    · exact hs.sound u hmem
    · refine sound_outside hs.guards hmem (hs.sound u hmem) ?_ counter
      by_contra hout
      rw [Bool.not_eq_false] at hout
      exact hij (hs.guards.disciplined.alone i j _ _ (get_guard ht) (get_guard hj) hin hout rfl)

theorem owed_set (hs : Inv c total s) (ht : s.threads[i]? = some t) (howed : t'.owed = t.owed) :
    ∃ n : Nat, s.counter = c + n ∧ n + ((s.threads.set i t').map Thread.owed).sum = total := by
  obtain ⟨n, hcounter, htotal⟩ := hs.count
  have hsum := sum_map_set_add Thread.owed ht t'
  exact ⟨n, hcounter, by omega⟩

/-- The guards stay as they are in the section itself. -/
theorem guards_body (hs : Inv c total s) (ht : s.threads[i]? = some t) (counter : R)
    (body : Body R) :
    ScopedLocks.Inv casLock_lawful
      (State.guards ⟨s.flag, counter, s.threads.set i { t with body := body }⟩) := by
  rw [guards_set, set_same (get_guard ht)]
  exact hs.guards

theorem enter_inv (hs : Inv c total s) (ht : s.threads[i]? = some t) (hpc : t.guard.pc = .gone)
    {n : Nat} (hn : t.sections = n + 1) :
    Inv c total { s with threads := s.threads.set i ⟨n, .construct (), .read⟩ } := by
  have hsound := hs.sound t (List.mem_of_getElem? ht)
  simp only [Thread.Sound, hpc] at hsound
  have hguard := hs.guards.sound t.guard (List.mem_of_getElem? (get_guard ht))
  simp only [Guard.Sound, hpc] at hguard
  refine ⟨?_, sound_set hs ht (.inl rfl) rfl, owed_set hs ht ?_⟩
  · rw [guards_set]
    refine ⟨ScopedLocks.sound_set hs.guards rfl, ?_⟩
    have hholds : (Guard.construct ()).holds = t.guard.holds := by
      simp [Guard.holds, Guard.construct, hguard]
    rw [held_same (get_guard ht) (.construct ()) rfl s.flag hholds]
    exact hs.guards.counts
  · simp [Thread.owed, hsound, hn]

theorem read_inv (hs : Inv c total s) (ht : s.threads[i]? = some t) (hpc : t.guard.pc = .idle)
    (hbody : t.body = .read) :
    Inv c total { s with threads := s.threads.set i { t with body := .write s.counter } } := by
  have hsound := hs.sound t (List.mem_of_getElem? ht)
  simp only [Thread.Sound, hpc] at hsound
  refine ⟨guards_body hs ht _ _, sound_set hs ht (.inl rfl) ?_, owed_set hs ht ?_⟩
  · simp [Thread.Sound, hpc, hsound.1]
  · simp [Thread.owed, hbody]

/-- The thread that writes is inside, so the counter is still what it has read. -/
theorem write_inv (hs : Inv c total s) (ht : s.threads[i]? = some t) (hpc : t.guard.pc = .idle)
    {v : R} (hbody : t.body = .write v) :
    Inv c total { s with
      counter := v + 1
      threads := s.threads.set i { t with body := .leave } } := by
  have hsound := hs.sound t (List.mem_of_getElem? ht)
  simp only [Thread.Sound, hpc] at hsound
  obtain ⟨hlocked, hread⟩ := hsound
  have hguard := hs.guards.sound t.guard (List.mem_of_getElem? (get_guard ht))
  have hinside : t.inside = true := by rw [Thread.inside, holds_idle hguard hpc, hlocked]
  refine ⟨guards_body hs ht _ _, sound_set hs ht (.inr hinside) ?_, ?_⟩
  · simp [Thread.Sound, hpc, hlocked]
  · obtain ⟨n, hcounter, htotal⟩ := hs.count
    have hsum := sum_map_set_add Thread.owed ht { t with body := .leave }
    simp only [Thread.owed, hbody] at hsum
    refine ⟨n + 1, ?_, ?_⟩
    · rw [hread v hbody, hcounter, Nat.cast_succ, add_assoc]
    · dsimp only
      omega

theorem leave_inv (hs : Inv c total s) (ht : s.threads[i]? = some t) (hpc : t.guard.pc = .idle)
    (hbody : t.body = .leave) :
    Inv c total { s with threads := s.threads.set i { t with guard := t.guard.destroy } } := by
  have hsound := hs.sound t (List.mem_of_getElem? ht)
  simp only [Thread.Sound, hpc] at hsound
  refine ⟨?_, sound_set hs ht (.inl rfl) ⟨rfl, hbody⟩, owed_set hs ht rfl⟩
  rw [guards_set]
  apply ScopedLocks.step_inv s.guards (.destroy i) _ trivial hs.guards
  · intro g hg _
    rw [get_guard ht, Option.some.injEq] at hg
    exact hg ▸ hsound.1
  · rw [ScopedLocks.step, call, get_guard ht]
    dsimp only
    rw [if_pos hpc]
    rfl

theorem guard_inv (hs : Inv c total s) (ht : s.threads[i]? = some t) {flag : Bool} {g : Guard Unit}
    (hrun : t.guard.run casLock s.flag = some (flag, g)) :
    Inv c total ⟨flag, s.counter, s.threads.set i { t with guard := g }⟩ := by
  refine ⟨?_, sound_set hs ht (.inl rfl) ?_, owed_set hs ht rfl⟩
  · rw [guards_set]
    exact run_inv hs.guards (get_guard ht) hrun
  · have hsound := hs.sound t (List.mem_of_getElem? ht)
    cases hpc : t.guard.pc with
    | locking =>
      simp only [Thread.Sound, hpc] at hsound
      simp only [Guard.run, hpc] at hrun
      obtain ⟨_, _, heq⟩ := Option.map_eq_some_iff.mp hrun
      cases heq
      exact hsound
    | gotLock =>
      simp only [Thread.Sound, hpc] at hsound
      simp only [Guard.run, hpc] at hrun
      cases hrun
      simp [Thread.Sound, hsound]
    | unlocking last =>
      simp only [Thread.Sound, hpc] at hsound
      simp only [Guard.run, hpc] at hrun
      cases hrun
      exact hsound
    | gaveLock last =>
      simp only [Thread.Sound, hpc] at hsound
      simp only [Guard.run, hpc, hsound.1] at hrun
      cases hrun
      exact hsound.2
    | idle | gone =>
      simp only [Guard.run, hpc] at hrun
      cases hrun

theorem step_inv (s : State R) (i : Nat) (s' : State R) (_ : True) (hs : Inv c total s)
    (h : step s i = .ok s') : Inv c total s' := by
  cases step_moves h with
  | enter ht hpc hn => exact enter_inv hs ht hpc hn
  | read ht hpc hbody => exact read_inv hs ht hpc hbody
  | write ht hpc hbody => exact write_inv hs ht hpc hbody
  | leave ht hpc hbody => exact leave_inv hs ht hpc hbody
  | guard ht hrun => exact guard_inv hs ht hrun
  | spin hflag => exact hs

theorem exec_inv {ks acts : List Nat} (h : exec step (initial c ks) acts = .ok s) :
    Inv c ks.sum s :=
  exec_invariant step_inv acts (fun _ _ => trivial) (initial_inv c ks) h

/-! ### Updates -/

theorem flag_iff (hs : Inv c total s) : s.flag = true ↔ ∃ t ∈ s.threads, t.inside := by
  have hcounts : held s.guards () = if s.flag then 1 else 0 := hs.guards.counts
  have hpos : 0 < held s.guards () ↔ ∃ t ∈ s.threads, t.inside := by
    rw [held, List.countP_pos_iff]
    simp [State.guards, Thread.inside]
  rw [← hpos, hcounts]
  cases s.flag <;> simp

theorem owed_finished (hs : Inv c total s) (ht : t ∈ s.threads) (hf : t.finished) : t.owed = 0 := by
  obtain ⟨hsections, hpc⟩ := hf
  have hsound := hs.sound t ht
  simp only [Thread.Sound, hpc] at hsound
  simp [Thread.owed, hsections, hsound]

theorem counter_finished (hs : Inv c total s) (hf : ∀ t ∈ s.threads, t.finished) :
    s.counter = c + total := by
  obtain ⟨n, hcounter, htotal⟩ := hs.count
  have hnone : (s.threads.map Thread.owed).sum = 0 := by
    rw [List.sum_eq_zero_iff_forall_eq_nat]
    intro x hx
    obtain ⟨t, ht, rfl⟩ := List.mem_map.mp hx
    exact owed_finished hs ht (hf t ht)
  rw [hcounter, ← htotal, hnone, Nat.add_zero]

/-- The steps of a thread that are left, but for rounds of the loop in `lock`. -/
def Thread.left (t : Thread R) : Nat :=
  8 * t.sections +
    match t.guard.pc with
    | .locking => 7
    | .gotLock => 6
    | .idle =>
      match t.body with
      | .read => 5
      | .write _ => 4
      | .leave => 3
    | .unlocking _ => 2
    | .gaveLock _ => 1
    | .gone => 0

/-- A thread that has not finished gets on, unless it waits for the flag. -/
theorem run_left (hsound : t.Sound s.counter) (hf : ¬ t.finished)
    (hwait : t.guard.pc = .locking → s.flag = false) :
    ∃ r, t.run s.flag s.counter = some r ∧ r.2.2.left < t.left := by
  cases hpc : t.guard.pc with
  | locking =>
    simp [Thread.run, Guard.run, Thread.left, hpc, hwait hpc, casLock, testAndSet]
  | gotLock =>
    simp only [Thread.Sound, hpc] at hsound
    simp [Thread.run, Guard.run, Thread.left, hpc, hsound]
  | idle =>
    cases hbody : t.body with
    | read | write v => simp [Thread.run, Thread.left, hpc, hbody]
    | leave => simp [Thread.run, Thread.left, hpc, hbody, Guard.destroy]
  | unlocking last => simp [Thread.run, Guard.run, Thread.left, hpc]
  | gaveLock last =>
    simp only [Thread.Sound, hpc] at hsound
    simp [Thread.run, Guard.run, Thread.left, hpc, hsound.1]
  | gone =>
    cases hn : t.sections with
    | zero => exact absurd ⟨hn, hpc⟩ hf
    | succ n =>
      have hlt : 8 * n + 7 < 8 * (n + 1) := by omega
      simpa [Thread.run, Thread.left, hpc, hn, Guard.construct] using hlt

theorem step_left (hs : Inv c total s) (hf : ¬ ∀ t ∈ s.threads, t.finished) :
    ∃ i s', step s i = .ok s' ∧ Inv c total s' ∧
      (s'.threads.map Thread.left).sum < (s.threads.map Thread.left).sum := by
  have hgets : ∃ t ∈ s.threads, ¬ t.finished ∧ (t.guard.pc = .locking → s.flag = false) := by
    cases hflag : s.flag with
    | true =>
      -- the thread inside goes on
      obtain ⟨t, ht, hin⟩ := (flag_iff hs).mp hflag
      have hsound := hs.guards.sound t.guard (List.mem_map_of_mem ht)
      rw [Thread.inside, Guard.holds, decide_eq_true_eq] at hin
      refine ⟨t, ht, fun hf => ?_, fun hpc => ?_⟩
      · simp only [Guard.Sound, hf.2] at hsound
        omega
      · simp only [Guard.Sound, hpc] at hsound
        omega
    | false =>
      simp only [not_forall] at hf
      obtain ⟨t, ht, hf⟩ := hf
      exact ⟨t, ht, hf, fun _ => rfl⟩
  obtain ⟨t, ht, hf, hwait⟩ := hgets
  obtain ⟨i, hi⟩ := List.getElem?_of_mem ht
  obtain ⟨⟨flag, counter, t'⟩, hrun, hlt⟩ := run_left (hs.sound t ht) hf hwait
  have hstep : step s i = .ok ⟨flag, counter, s.threads.set i t'⟩ := by
    simp [step, hi, hrun]
  refine ⟨i, _, hstep, step_inv s i _ trivial hs hstep, ?_⟩
  have hsum := sum_map_set_add Thread.left hi t'
  dsimp only at hlt ⊢
  omega

/-- Every run can go on to where all threads have finished, with every update made. -/
theorem casLock_finishes {ks acts : List Nat} (h : exec step (initial c ks) acts = .ok s) :
    ∃ more t, exec step s more = .ok t ∧ (∀ th ∈ t.threads, th.finished) ∧
      t.counter = c + (ks.sum : R) := by
  obtain ⟨more, t, ht, hinv, hf⟩ := exec_finishes (I := Inv c ks.sum)
    (D := fun s => ∀ th ∈ s.threads, th.finished) (fun s => (s.threads.map Thread.left).sum)
    (fun s hs hf => step_left hs hf) (exec_inv h)
  exact ⟨more, t, ht, hf, counter_finished hinv hf⟩

/-- Under guards of the lock one thread at a time is inside, with the flag set, and
no update of the counter is lost. -/
theorem casLock_keepsUpdates (c : R) (ks acts : List Nat) (s : State R)
    (h : exec step (initial c ks) acts = .ok s) :
    (∀ (i j : Nat) (t u : Thread R), s.threads[i]? = some t → s.threads[j]? = some u →
        t.inside → u.inside → i = j) ∧
      (s.flag = true ↔ ∃ t ∈ s.threads, t.inside) ∧
      ((∀ t ∈ s.threads, t.finished) → s.counter = c + (ks.sum : R)) := by
  have hs := exec_inv h
  refine ⟨fun i j t u ht hu hti hui => ?_, flag_iff hs, counter_finished hs⟩
  exact hs.guards.disciplined.alone i j _ _ (get_guard ht) (get_guard hu) hti hui rfl

/-- Two threads, of which the second has to wait. -/
theorem casLock_keepsUpdates_two :
    let acts := [0, 1, 0, 1, 0, 0, 1, 0, 0, 0, 1, 0, 1, 1, 1, 1, 1, 1]
    ∃ s : State Int, exec step (initial 5 [1, 1]) acts = .ok s ∧ s.counter = 5 + 2 := by
  intro acts
  let s : State Int := ⟨false, 7, List.replicate 2 ⟨0, ⟨(), .gone, false, 1, 1⟩, .leave⟩⟩
  have hrun : exec step (initial 5 [1, 1]) acts = .ok s := rfl
  refine ⟨s, hrun, (casLock_keepsUpdates 5 [1, 1] acts s hrun).2.2 fun t ht => ?_⟩
  rw [List.eq_of_mem_replicate ht]
  exact ⟨rfl, rfl⟩

end Mumu.CasLocks
