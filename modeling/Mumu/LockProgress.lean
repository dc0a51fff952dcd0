import Mathlib.Logic.Hydra
import Mathlib.Order.WellFounded
import Mumu.LockOrder

namespace Mumu.LockProgress

open Mumu.Executions Mumu.Mutexes Mumu.LockOrder

variable {L S : Type}

/-- What a program comes to in one step, in some state. -/
inductive After : Prog L S → Prog L S → Prop where
  | lock (l : L) (m : RWMode) (rest : Prog L S) : After rest (.lock l m rest)
  | unlock (l : L) (rest : Prog L S) : After rest (.unlock l rest)
  | act (f : S → S) (rest : S → Prog L S) (s : S) : After (rest s) (.act f rest)

theorem after_wellFounded : WellFounded (After : Prog L S → Prog L S → Prop) := by
  refine ⟨fun p => ?_⟩
  induction p with
  | done => exact ⟨_, nofun⟩
  | lock l m rest ih => exact ⟨_, fun _ h => by cases h; exact ih⟩
  | unlock l rest ih => exact ⟨_, fun _ h => by cases h; exact ih⟩
  | act f rest ih => exact ⟨_, fun _ h => by cases h; exact ih _⟩

instance : Std.Irrefl (After : Prog L S → Prog L S → Prop) := after_wellFounded.irrefl

def progs (s : System L S) : Multiset (Prog L S) := (s.threads.map Thread.prog : List (Prog L S))

theorem coe_set_add {α : Type} {l : List α} {i : Nat} {a : α} (hi : l[i]? = some a) (b : α) :
    (↑(l.set i b) : Multiset α) + {a} = ↑l + {b} := by
  obtain ⟨hlt, rfl⟩ := List.getElem?_eq_some_iff.mp hi
  have hset : (↑(l.set i b) : Multiset α) = {b} + ↑(l.eraseIdx i) :=
    Multiset.coe_eq_coe.mpr (List.set_perm_cons_eraseIdx hlt b)
  have hl : (↑l : Multiset α) = {l[i]} + ↑(l.eraseIdx i) :=
    Multiset.coe_eq_coe.mpr (List.getElem_cons_eraseIdx_perm hlt).symm
  rw [hset, hl, add_right_comm, add_assoc, add_comm]

variable [DecidableEq L]

/-- A step replaces the program of one thread by what comes after. -/
theorem step_after {s s' : System L S} {i : Nat} (h : step s (.run i) = .ok s') :
    ∃ t u, s.threads[i]? = some t ∧ s'.threads = s.threads.set i u ∧ After u.prog t.prog := by
  simp only [step] at h
  split at h
  · rename_i held l m rest hi
    split at h
    · cases h
      exact ⟨_, _, hi, rfl, .lock l m rest⟩
    · cases h
  · rename_i held l rest hi
    cases h
    exact ⟨_, _, hi, rfl, .unlock l rest⟩
  · rename_i held f rest hi
    cases h
    exact ⟨_, _, hi, rfl, .act f rest s.shared⟩
  · cases h

/-- Threads that begin nothing new come to an end, in whatever order they run. -/
theorem run_wellFounded :
    WellFounded fun s' s : System L S => ∃ i, step s (.run i) = .ok s' := by
  refine Subrelation.wf ?_ (InvImage.wf progs after_wellFounded.cutExpand)
  rintro s' s ⟨i, h⟩
  obtain ⟨t, u, ht, hu, hafter⟩ := step_after h
  refine ⟨{u.prog}, t.prog, fun p hp => Multiset.mem_singleton.mp hp ▸ hafter, ?_⟩
  rw [progs, progs, hu, List.map_set]
  exact coe_set_add (by rw [List.getElem?_map, ht, Option.map_some]) u.prog

/-- No thread has work left, and none holds a lock. -/
def Idle (s : System L S) : Prop := ∀ t ∈ s.threads, t = ⟨[], .done⟩

/-- Calls return: nobody is in a deadlock, threads that begin nothing new do not go
on for ever, and once none of them can go on all are at their end. -/
structure Returning (rank : L → Nat) (s : System L S) : Prop where
  deadlockFree : DeadlockFree rank s
  finite : ∀ run : Nat → System L S, run 0 = s →
    ¬ ∀ k, ∃ i, step (run k) (.run i) = .ok (run (k + 1))
  idle : ∀ (is : List Nat) s', exec step s (is.map .run) = .ok s' →
    (∀ i u, step s' (.run i) ≠ .ok u) → Idle s'
  returns : ∃ (is : List Nat) (s' : System L S), exec step s (is.map .run) = .ok s' ∧ Idle s'

variable {rank : L → Nat} {I : S → Prop} {s : System L S}

theorem exec_run_inv (hs : Inv rank I s) {is : List Nat} {s' : System L S}
    (h : exec step s (is.map .run) = .ok s') : Inv rank I s' := by
  refine exec_invariant (P := Act.Good rank I) step_inv _ (fun a ha => ?_) hs h
  obtain ⟨i, _, rfl⟩ := List.mem_map.mp ha
  trivial

/-- The runs of one system are those of the other. -/
theorem exec_same {t : System L S} (hst : Same I s t) (hs : Inv rank I s) {is : List Nat}
    {s' : System L S} (h : exec step s (is.map .run) = .ok s') :
    ∃ t', exec step t (is.map .run) = .ok t' ∧ Same I s' t' := by
  induction is generalizing s t with
  | nil =>
    cases h
    exact ⟨t, rfl, hst⟩
  | cons i is ih =>
    rw [List.map_cons, exec] at h
    cases hu : step s (.run i) with
    | error e =>
      rw [hu] at h
      cases h
    | ok u =>
      rw [hu] at h
      obtain ⟨v, hv, huv⟩ := hst.step hs.shared hu
      obtain ⟨t', ht', hsame⟩ := ih huv (step_inv s (.run i) u trivial hs hu) h
      exact ⟨t', exec_cons_ok hv ht', hsame⟩

/-- A thread that is at the end of its program holds nothing. -/
theorem Inv.idle (hs : Inv rank I s) (hstuck : ∀ i u, step s (.run i) ≠ .ok u) : Idle s := by
  intro t ht
  by_cases hwork : t.prog = .done
  · have hheld := hs.threads t ht
    obtain ⟨held, prog⟩ := t
    obtain rfl : prog = .done := hwork
    exact congrArg (Thread.mk · _) hheld
  · obtain ⟨i, u, h⟩ := hs.progress ht hwork
    exact absurd h (hstuck i u)

theorem Inv.returns (hs : Inv rank I s) :
    ∃ (is : List Nat) (s' : System L S), exec step s (is.map .run) = .ok s' ∧ Idle s' := by
  induction s using (run_wellFounded (L := L) (S := S)).induction with
  | _ s ih =>
    by_cases hstuck : ∀ i u, step s (.run i) ≠ .ok u
    · exact ⟨[], s, rfl, Inv.idle hs hstuck⟩
    · simp only [ne_eq, not_forall, not_not] at hstuck
      obtain ⟨i, u, hu⟩ := hstuck
      obtain ⟨is, s', hrun, hidle⟩ := ih u ⟨i, hu⟩ (step_inv s (.run i) u trivial hs hu)
      exact ⟨i :: is, s', exec_cons_ok hu hrun, hidle⟩

theorem Inv.returning (hs : Inv rank I s) : Returning rank s where
  deadlockFree := hs.deadlockFree
  finite run _ h := (wellFounded_iff_isEmpty_descending_chain.mp run_wellFounded).false ⟨run, h⟩
  idle _ _ h := Inv.idle (exec_run_inv hs h)
  returns := Inv.returns hs

theorem exec_returning {shared : S} (hI : I shared) (n : Nat) {acts : List (Act L S)}
    (hacts : ∀ a ∈ acts, a.Good rank I)
    (h : exec step ⟨shared, List.replicate n ⟨[], .done⟩⟩ acts = .ok s) : Returning rank s :=
  Inv.returning (exec_inv hI n hacts h)

end Mumu.LockProgress
