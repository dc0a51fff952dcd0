import Mumu.ThreadHandshake

namespace Mumu.FailedStarts

open Mumu.Executions Mumu.Threads

/-! ### Constructors that fail -/

/-- A thread and its owner, and whether the constructor has left by an exception. -/
structure State where
  base : Threads.State
  threw : Bool

def initial (x : Start) : State := ⟨Threads.initial x, false⟩

/-- The calls of `pthread_create` and of `sem_wait` that fail, and the other steps. -/
inductive Act where
  | createFails
  | waitFails
  | other (a : Threads.Act)

/-- The exception destroys the members; the destructor does not run. -/
def State.throws (s : State) : State := ⟨{ s.base with owner := .gone }, true⟩

def step (x : Start) (s : State) : Act → Except Unit State
  | .createFails => if s.base.owner = .creating then .ok s.throws else .error ()
  | .waitFails => if s.base.owner = .waiting then .ok s.throws else .error ()
  | .other a => (Threads.step x s.base a).map (fun base => ⟨base, s.threw⟩)

/-- After an exception there is no thread that was started and neither joined nor
detached, and `run` has not reached the object after its end. -/
def LeavesNothing (s : State) : Prop :=
  s.threw →
    (s.base.new.run ≠ .unborn → s.base.thread.thread = 0 ∨ s.base.detached = true) ∧
    ∀ a ∈ s.base.accesses, a.agent = .run → a.alive

def WaitSucceeds (s : State) : Act → Prop
  | .waitFails => s.base.owner ≠ .waiting
  | _ => True

/-! ### Threads that are started -/

/-- The handle of a thread stays with its owner until it is joined. -/
structure Attached (x : Start) (s : Threads.State) : Prop where
  start : ThreadHandshake.Inv x s
  handle : s.owner = .waiting → s.thread.thread = x.handle
  attached : s.owner ≠ .gone → s.detached = false

variable {x : Start}

theorem step_attached {s t : Threads.State} (hs : Attached x s) {a : Threads.Act}
    (h : Threads.step x s a = .ok t) : Attached x t := by
  have hstart := ThreadHandshake.step_inv hs.start h
  cases a with
  | create =>
    rw [Threads.step] at h
    split at h
    · rename_i howner
      cases h
      exact ⟨hstart, fun _ => rfl, fun _ => hs.attached (by rw [howner]; decide)⟩
    · cases h
  | wait =>
    rw [Threads.step] at h
    split at h
    · rename_i howner hwait
      cases h
      exact ⟨hstart, (fun hwaiting => by cases hwaiting), fun _ => hs.attached (by rw [howner]; decide)⟩
    · cases h
  | join =>
    rw [Threads.step] at h
    split at h
    · rename_i howner
      split at h
      · cases h
        exact hs
      · split at h
        · cases h
          exact ⟨hstart, fun hwaiting => absurd (howner.symm.trans hwaiting) (by decide),
            hs.attached⟩
        · cases h
    · cases h
  | destroy =>
    rw [Threads.step] at h
    split at h
    · cases h
      exact ⟨hstart, (fun hwaiting => by cases hwaiting), fun hgone => absurd rfl hgone⟩
    · cases h
  | run =>
    obtain ⟨howner, hhandle, hdetached⟩ := ThreadHandshake.run_frame h
    refine ⟨hstart, ?_, ?_⟩
    · rw [howner, hhandle]
      exact hs.handle
    · rw [howner, hdetached]
      exact hs.attached

/-! ### Runs -/

/-- Until the constructor throws, the thread is attached; when it throws without a
thread, there will be none. -/
def Inv (x : Start) (s : State) : Prop :=
  s.threw = false ∧ Attached x s.base ∨
    s.base.owner = .gone ∧ s.base.new.run = .unborn ∧ ThreadHandshake.EarlyAccesses s.base

theorem Inv.leavesNothing {s : State} (hs : Inv x s) : LeavesNothing s := by
  intro hthrew
  obtain ⟨hfalse, -⟩ | ⟨-, hunborn, hearly⟩ := hs
  · rw [hfalse] at hthrew
    cases hthrew
  · exact ⟨fun hborn => absurd hunborn hborn, fun a ha hrun => (hearly a ha hrun).1⟩

/-- Without a thread and its owner nothing can happen. -/
theorem other_unborn {s : State} (hgone : s.base.owner = .gone) (hunborn : s.base.new.run = .unborn)
    (a : Threads.Act) : step x s (.other a) = .error () := by
  cases a <;> simp [step, Threads.step, Threads.run, hgone, hunborn, Except.map]

theorem step_inv {s t : State} {a : Act} (hs : Inv x s) (hwait : WaitSucceeds s a)
    (h : step x s a = .ok t) : Inv x t := by
  cases a with
  | createFails =>
    rw [step] at h
    split at h
    · rename_i howner
      cases h
      obtain ⟨-, hattached⟩ | ⟨hgone, -⟩ := hs
      · have hstage := hattached.start.handshake.creating.mp howner
        have hunborn : s.base.new.run = .unborn := by
          cases hr : s.base.new.run <;> simp [hr, ThreadHandshake.stage] at hstage ⊢
        exact .inr ⟨rfl, hunborn, hattached.start.early⟩
      · exact absurd (hgone.symm.trans howner) (by decide)
    · cases h
  | waitFails =>
    rw [step, if_neg hwait] at h
    cases h
  | other a =>
    obtain ⟨hthrew, hattached⟩ | ⟨hgone, hunborn, -⟩ := hs
    · rw [step] at h
      cases hbase : Threads.step x s.base a with
      | error e =>
        rw [hbase] at h
        cases h
      | ok base =>
        rw [hbase] at h
        cases h
        exact .inl ⟨hthrew, step_attached hattached hbase⟩
    · rw [other_unborn hgone hunborn] at h
      cases h

/-- An exception out of the wait leaves the thread behind. -/
theorem step_leaves {s : State} {a : Act} (hs : Inv x s) (hwait : ¬ WaitSucceeds s a) :
    ∃ t, step x s a = .ok t ∧ ¬ LeavesNothing t := by
  cases a with
  | waitFails =>
    have howner : s.base.owner = .waiting := not_not.mp hwait
    refine ⟨s.throws, if_pos howner, fun h => ?_⟩
    obtain ⟨-, hattached⟩ | ⟨hgone, -⟩ := hs
    · have hborn : s.base.new.run ≠ .unborn := fun hunborn => by
        have hcreating := hattached.start.handshake.creating.mpr (by rw [hunborn]; rfl)
        exact absurd (howner.symm.trans hcreating) (by decide)
      obtain hjoined | hdetached := (h rfl).1 hborn
      · exact x.handle_ne_zero ((hattached.handle howner).symm.trans hjoined)
      · have hnot := hattached.attached (by rw [howner]; decide)
        rw [State.throws, hnot] at hdetached
        cases hdetached
    · exact absurd (hgone.symm.trans howner) (by decide)
  | createFails | other a => exact absurd trivial hwait

/-- A constructor that throws leaves no thread behind, in any state of a run, exactly
if no wait of the run fails. -/
theorem constructor_leavesNothing_iff (x : Start) (acts : List Act) :
    (∀ pre s, pre <+: acts → exec (step x) (initial x) pre = .ok s → LeavesNothing s) ↔
      Meets (step x) WaitSucceeds (initial x) acts :=
  exec_always_iff (P := fun _ => True) (I := Inv x) (fun _ hs => hs.leavesNothing)
    (fun _ _ _ _ hs hwait h => step_inv hs hwait h)
    (fun _ _ _ hs hwait => step_leaves hs hwait) acts (fun _ _ => trivial)
    (.inl ⟨rfl, ThreadHandshake.initial_inv x, nofun, fun _ => rfl⟩)

/-- The wait is interrupted before the new thread has made a step. -/
theorem constructor_leaves_thread :
    ∃ s, exec (step (ThreadHandshake.calling .getThis))
        (initial (ThreadHandshake.calling .getThis))
        [.other .create, .waitFails, .other .run, .other .run] = .ok s ∧
      s.threw = true ∧ s.base.new.run = .setId ∧ s.base.thread.thread ≠ 0 ∧
      s.base.detached = false ∧ s.base.accesses = [⟨.run, false, false⟩] ∧ ¬ LeavesNothing s := by
  refine ⟨_, rfl, rfl, rfl, by decide, rfl, rfl, fun h => ?_⟩
  exact absurd ((h rfl).2 ⟨.run, false, false⟩ (by decide) rfl) (by decide)

end Mumu.FailedStarts
