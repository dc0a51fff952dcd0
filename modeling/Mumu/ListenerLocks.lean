import Mathlib.Algebra.Group.Nat.Defs
import Mathlib.Logic.Relation
import Mumu.KeyedSets
import Mumu.Mutexes

namespace Mumu.ListenerLocks

open Mumu.KeyedSets Mumu.Mutexes

/-! ### Listeners that use their variable -/

/-- The calls of a variable. A listener makes some of them on the variable that
calls it back. -/
inductive Op (T : Type) where
  | getValue
  | setValue (v : T)
  | addListener (cb : T → T → List (Op T))
  | delListener (key : Nat)
  | getListener (key : Nat)
  | clearListener

abbrev Callback (T : Type) := T → T → List (Op T)

structure ConfigVar (T : Type) where
  val : T
  cbs : KeyedMap Nat (Callback T)
  sFunId : Nat

/-- What a thread has left to do: a call, the loop over the callbacks, the end of
the scope of a read lock, and the scope of a write lock. -/
inductive Task (T : Type) where
  | call (op : Op T)
  | notify (v : T) (cbs : List (Nat × Callback T))
  | endRead
  | write (op : Op T)

/-- A thread alone with a variable, whose mutex no other thread holds. -/
structure State (T : Type) where
  var : ConfigVar T
  mutex : RWState
  tasks : List (Task T)

variable {T : Type}

/-- What a call does under the write lock. -/
def Op.change (var : ConfigVar T) : Op T → ConfigVar T
  | setValue v => { var with val := v }
  | addListener cb =>
    let sFunId := (var.sFunId + 1) % 2 ^ 64
    { var with cbs := KeyedMap.set var.cbs sFunId cb, sFunId := sFunId }
  | delListener key => { var with cbs := var.cbs.erase key }
  | clearListener => { var with cbs := .empty }
  | getValue | getListener _ => var

section

variable [BEq T]

/-- Enter a call; `setValue` leaves the scope of its read lock before it takes the
write lock. -/
def enter (s : State T) (op : Op T) (tasks : List (Task T)) : Option (State T) :=
  match op with
  | .getValue =>
    (rwMutex.lock .read s.mutex).map fun mutex => ⟨s.var, mutex, .endRead :: tasks⟩
  | .setValue v =>
    (rwMutex.lock .read s.mutex).map fun mutex =>
      if v == s.var.val then ⟨s.var, mutex, .endRead :: tasks⟩
      else ⟨s.var, mutex, .notify v s.var.cbs.toList :: .endRead :: .write (.setValue v) :: tasks⟩
  | op => some ⟨s.var, s.mutex, .write op :: tasks⟩

/-- There is no step at the end, nor where the thread has to wait. -/
def step (s : State T) : Option (State T) :=
  match s.tasks with
  | [] => none
  | .call op :: tasks => enter s op tasks
  | .notify _ [] :: tasks => some ⟨s.var, s.mutex, tasks⟩
  | .notify v ((_, cb) :: cbs) :: tasks =>
    some ⟨s.var, s.mutex, (cb s.var.val v).map .call ++ .notify v cbs :: tasks⟩
  | .endRead :: tasks => some ⟨s.var, rwMutex.unlock s.mutex, tasks⟩
  | .write op :: tasks =>
    (rwMutex.lock .write s.mutex).map fun mutex => ⟨op.change s.var, rwMutex.unlock mutex, tasks⟩

def run : Nat → State T → Option (State T)
  | 0, s => some s
  | n + 1, s => (step s).bind (run n)

/-- The thread requests the write lock while it holds the mutex for reading. -/
def SelfLocked (s : State T) : Prop :=
  (∃ op tasks, s.tasks = .write op :: tasks) ∧ s.mutex.readers ≠ 0

def setValue (var : ConfigVar T) (v : T) : State T := ⟨var, rwMutex.free, [.call (.setValue v)]⟩

/-! ### The calls of the listeners -/

/-- A call that only reads: `setValue` does with a value that is the stored one. -/
def OnlyReads (val : T) : Op T → Bool
  | .getValue => true
  | .setValue v => v == val
  | _ => false

/-- All the calls that the listeners make for a new value, in order. -/
def listenerCalls (var : ConfigVar T) (cbs : List (Nat × Callback T)) (v : T) : List (Op T) :=
  cbs.flatMap (fun e => e.2 var.val v)

/-- The first call of the listeners that does more than read. -/
def firstChange (var : ConfigVar T) (v : T) : Option (Op T) :=
  (listenerCalls var var.cbs.toList v).find? (fun op => !OnlyReads var.val op)

/-- The value of the `setValue` call that is reached at some depth, each nested in
the one before. -/
def nested (var : ConfigVar T) : Nat → T → Option T
  | 0, v => some v
  | n + 1, v =>
    match firstChange var v with
    | some (.setValue w) => nested var n w
    | _ => none

/-! ### Runs step by step -/

/-- A step of a thread that is not locked by itself. -/
def Passes (s t : State T) : Prop := ¬ SelfLocked s ∧ step s = some t

theorem passes_of_step {s t : State T} (hs : ∀ op tasks, s.tasks ≠ .write op :: tasks)
    (h : step s = some t) : Passes s t := by
  refine ⟨?_, h⟩
  rintro ⟨⟨op, tasks, hwrite⟩, -⟩
  exact hs op tasks hwrite

/-- The thread is not locked by itself within some steps. -/
def Safe (n : Nat) (s : State T) : Prop := ∀ k ≤ n, ∀ t, run k s = some t → ¬ SelfLocked t

theorem Passes.safe {s t : State T} (h : Passes s t) {n : Nat} (ht : Safe n t) : Safe (n + 1) s := by
  intro k hk u hu
  cases k with
  | zero =>
    obtain rfl := Option.some.inj hu
    exact h.1
  | succ k =>
    rw [run, h.2, Option.bind_some] at hu
    exact ht k (Nat.le_of_succ_le_succ hk) u hu

theorem Safe.mono {n m : Nat} {s : State T} (h : Safe n s) (hm : m ≤ n) : Safe m s :=
  fun k hk => h k (hk.trans hm)

theorem safe_of_passes {s t : State T} (h : Relation.ReflTransGen Passes s t) {n : Nat}
    (ht : Safe n t) : Safe n s := by
  induction h using Relation.ReflTransGen.head_induction_on with
  | refl => exact ht
  | head hfirst _ ih => exact (hfirst.safe ih).mono (Nat.le_succ n)

theorem selfLocked_of_passes {s t : State T} (h : Relation.ReflTransGen Passes s t)
    (ht : SelfLocked t) : ∃ n u, run n s = some u ∧ SelfLocked u := by
  induction h using Relation.ReflTransGen.head_induction_on with
  | refl => exact ⟨0, t, rfl, ht⟩
  | head hfirst _ ih =>
    obtain ⟨n, u, hu, hlocked⟩ := ih
    exact ⟨n + 1, u, by rw [run, hfirst.2, Option.bind_some, hu], hlocked⟩

/-! ### The loop over the callbacks -/

variable {var : ConfigVar T} (tasks : List (Task T))

theorem passes_read {op : Op T} (h : OnlyReads var.val op = true) (n : Nat) :
    Relation.ReflTransGen Passes ⟨var, ⟨n, false⟩, .call op :: tasks⟩ ⟨var, ⟨n, false⟩, tasks⟩ := by
  have hend : Passes ⟨var, ⟨n + 1, false⟩, .endRead :: tasks⟩ ⟨var, ⟨n, false⟩, tasks⟩ :=
    passes_of_step nofun rfl
  have hbegin : Passes ⟨var, ⟨n, false⟩, .call op :: tasks⟩
      ⟨var, ⟨n + 1, false⟩, .endRead :: tasks⟩ := by
    refine passes_of_step nofun ?_
    cases op with
    | getValue => rfl
    | setValue v =>
      have hsame : (v == var.val) = true := h
      simp [step, enter, rwMutex, hsame]
    | addListener cb | delListener key | getListener key | clearListener => cases h
  exact (Relation.ReflTransGen.single hend).head hbegin

theorem passes_reads {ops : List (Op T)} (h : ∀ op ∈ ops, OnlyReads var.val op = true) (n : Nat) :
    Relation.ReflTransGen Passes ⟨var, ⟨n, false⟩, ops.map .call ++ tasks⟩
      ⟨var, ⟨n, false⟩, tasks⟩ := by
  induction ops with
  | nil => exact .refl
  | cons op ops ih =>
    exact (passes_read _ (h op (by simp)) n).trans (ih fun op' hop' => h op' (by simp [hop']))

/-- Callbacks that only read are all called. -/
theorem passes_notify {v : T} {cbs : List (Nat × Callback T)}
    (h : ∀ op ∈ listenerCalls var cbs v, OnlyReads var.val op = true) (n : Nat) :
    Relation.ReflTransGen Passes ⟨var, ⟨n, false⟩, .notify v cbs :: tasks⟩
      ⟨var, ⟨n, false⟩, tasks⟩ := by
  induction cbs with
  | nil => exact .single (passes_of_step nofun rfl)
  | cons e cbs ih =>
    obtain ⟨key, cb⟩ := e
    have hcall : Passes ⟨var, ⟨n, false⟩, .notify v ((key, cb) :: cbs) :: tasks⟩
        ⟨var, ⟨n, false⟩, (cb var.val v).map .call ++ .notify v cbs :: tasks⟩ :=
      passes_of_step nofun rfl
    have hbody := passes_reads (.notify v cbs :: tasks)
      (fun op hop => h op (List.mem_append_left _ hop)) n
    exact (hbody.trans (ih fun op hop => h op (List.mem_append_right _ hop))).head hcall

/-- The first call that does more than read is reached. -/
theorem passes_to_change {v : T} {cbs : List (Nat × Callback T)} {op : Op T}
    (h : (listenerCalls var cbs v).find? (fun op => !OnlyReads var.val op) = some op) (n : Nat) :
    ∃ tasks', Relation.ReflTransGen Passes ⟨var, ⟨n, false⟩, .notify v cbs :: tasks⟩
      ⟨var, ⟨n, false⟩, .call op :: tasks'⟩ := by
  induction cbs with
  | nil => cases h
  | cons e cbs ih =>
    obtain ⟨key, cb⟩ := e
    have hcall : Passes ⟨var, ⟨n, false⟩, .notify v ((key, cb) :: cbs) :: tasks⟩
        ⟨var, ⟨n, false⟩, (cb var.val v).map .call ++ .notify v cbs :: tasks⟩ :=
      passes_of_step nofun rfl
    rw [listenerCalls, List.flatMap_cons, List.find?_append] at h
    cases hbody : (cb var.val v).find? (fun op => !OnlyReads var.val op) with
    | none =>
      have hreads := passes_reads (.notify v cbs :: tasks)
        (fun op hop => by simpa using List.find?_eq_none.mp hbody op hop) n
      rw [hbody, Option.none_or] at h
      obtain ⟨tasks', hrest⟩ := ih h
      exact ⟨tasks', (hreads.trans hrest).head hcall⟩
    | some op' =>
      obtain rfl : op' = op := by simpa [hbody] using h
      obtain ⟨-, before, after, hsplit, hbefore⟩ := List.find?_eq_some_iff_append.mp hbody
      have hreads : ∀ op ∈ before, OnlyReads var.val op = true := fun op hop => by
        simpa using hbefore op hop
      refine ⟨after.map .call ++ .notify v cbs :: tasks, .head hcall ?_⟩
      rw [hsplit, List.map_append, List.map_cons, List.append_assoc, List.cons_append]
      exact passes_reads _ hreads n

/-! ### Calls of `setValue` -/

/-- A call with another value goes into the loop. -/
theorem passes_enter {v : T} (hv : ¬ (v == var.val) = true) (n : Nat) :
    Passes ⟨var, ⟨n, false⟩, .call (.setValue v) :: tasks⟩
      ⟨var, ⟨n + 1, false⟩,
        .notify v var.cbs.toList :: .endRead :: .write (.setValue v) :: tasks⟩ := by
  refine passes_of_step nofun ?_
  simp [step, enter, rwMutex, hv]

theorem firstChange_eq_none {v : T} (h : firstChange var v = none) :
    ∀ op ∈ listenerCalls var var.cbs.toList v, OnlyReads var.val op = true :=
  fun op hop => by simpa using List.find?_eq_none.mp h op hop

theorem not_onlyReads_firstChange {v : T} {op : Op T} (h : firstChange var v = some op) :
    OnlyReads var.val op = false := by
  simpa using List.find?_some h

/-- Where the listeners only read, the call gets to its second scope. -/
theorem passes_to_write {v : T} (hv : ¬ (v == var.val) = true) (h : firstChange var v = none)
    (n : Nat) :
    Relation.ReflTransGen Passes ⟨var, ⟨n, false⟩, .call (.setValue v) :: tasks⟩
      ⟨var, ⟨n, false⟩, .write (.setValue v) :: tasks⟩ := by
  have hend : Passes ⟨var, ⟨n + 1, false⟩, .endRead :: .write (.setValue v) :: tasks⟩
      ⟨var, ⟨n, false⟩, .write (.setValue v) :: tasks⟩ := passes_of_step nofun rfl
  exact ((passes_notify _ (firstChange_eq_none h) (n + 1)).tail hend).head (passes_enter _ hv n)

/-- Where the listeners do more, the call gets to the first such call of theirs. -/
theorem passes_to_firstChange {v : T} (hv : ¬ (v == var.val) = true) {op : Op T}
    (h : firstChange var v = some op) (n : Nat) :
    ∃ tasks', Relation.TransGen Passes ⟨var, ⟨n, false⟩, .call (.setValue v) :: tasks⟩
      ⟨var, ⟨n + 1, false⟩, .call op :: tasks'⟩ := by
  obtain ⟨tasks', hpass⟩ := passes_to_change _ h (n + 1)
  exact ⟨tasks', .head' (passes_enter tasks hv n) hpass⟩

/-- A call of a listener that does more than read takes the write lock, now or
when the calls nested in it are done. -/
theorem change_selfLocks {op : Op T} (hreads : OnlyReads var.val op = false) (n : Nat)
    (hset : ∀ w, op = .setValue w → ∃ t, Relation.ReflTransGen Passes
      ⟨var, ⟨n + 1, false⟩, .call (.setValue w) :: tasks⟩ t ∧ SelfLocked t) :
    ∃ t, Relation.ReflTransGen Passes ⟨var, ⟨n + 1, false⟩, .call op :: tasks⟩ t ∧
      SelfLocked t := by
  cases op with
  | getValue => cases hreads
  | setValue w => exact hset w rfl
  | addListener cb | delListener key | getListener key | clearListener =>
    exact ⟨_, .single (passes_of_step nofun rfl), ⟨_, tasks, rfl⟩, Nat.succ_ne_zero n⟩

/-- A nested call whose own nesting comes to an end. -/
theorem nested_selfLocks {v : T} (hv : ¬ (v == var.val) = true) {k : Nat}
    (hk : nested var k v = none) (n : Nat) :
    ∃ t, Relation.ReflTransGen Passes
      ⟨var, ⟨n + 1, false⟩, .call (.setValue v) :: tasks⟩ t ∧ SelfLocked t := by
  induction k generalizing v n tasks with
  | zero => cases hk
  | succ k ih =>
    rw [nested] at hk
    cases hfirst : firstChange var v with
    | none =>
      exact ⟨_, passes_to_write tasks hv hfirst (n + 1), ⟨_, _, rfl⟩, by simp⟩
    | some op =>
      have hreads := not_onlyReads_firstChange hfirst
      obtain ⟨tasks', hpass⟩ := passes_to_firstChange tasks hv hfirst (n + 1)
      obtain ⟨t, hreach, hlocked⟩ := change_selfLocks tasks' hreads (n + 1) (by
        rintro w rfl
        rw [hfirst] at hk
        exact ih tasks' (by simpa [OnlyReads] using hreads) hk (n + 1))
      exact ⟨t, hpass.to_reflTransGen.trans hreach, hlocked⟩

/-- A call whose nesting never ends always goes on. -/
theorem nested_safe {v : T} (hv : ¬ (v == var.val) = true)
    (h : ∀ k, (nested var k v).isSome) (m n : Nat) :
    Safe m ⟨var, ⟨n, false⟩, .call (.setValue v) :: tasks⟩ := by
  induction m generalizing v n tasks with
  | zero =>
    intro k hk t ht
    obtain rfl := Nat.le_zero.mp hk
    obtain rfl := Option.some.inj ht
    exact (passes_enter tasks hv n).1
  | succ m ih =>
    have hfirst : ∃ w, firstChange var v = some (.setValue w) := by
      have hdeep := h 1
      rw [nested] at hdeep
      split at hdeep
      · exact ⟨_, by assumption⟩
      · cases hdeep
    obtain ⟨w, hw⟩ := hfirst
    have hdeeper : ∀ k, (nested var k w).isSome := fun k => by
      simpa [nested, hw] using h (k + 1)
    obtain ⟨tasks', hpass⟩ := passes_to_firstChange tasks hv hw n
    obtain ⟨s, hs, hrest⟩ := Relation.TransGen.head'_iff.mp hpass
    have hv' : ¬ (w == var.val) = true := by
      simpa [OnlyReads] using not_onlyReads_firstChange hw
    have hnested := ih tasks' hv' hdeeper (n + 1)
    exact hs.safe (safe_of_passes hrest hnested)

/-- A call that returns does what the two scopes do. -/
theorem passes_to_end {v : T} (h : (v == var.val) = true ∨ firstChange var v = none) :
    Relation.ReflTransGen Passes (setValue var v)
      ⟨if v == var.val then var else { var with val := v }, rwMutex.free, []⟩ := by
  by_cases hv : (v == var.val) = true
  · rw [if_pos hv]
    exact passes_read [] (show OnlyReads var.val (.setValue v) = true from hv) 0
  · rw [if_neg hv]
    have hwrite : Passes ⟨var, ⟨0, false⟩, [.write (.setValue v)]⟩
        ⟨{ var with val := v }, rwMutex.free, []⟩ := ⟨fun hlocked => hlocked.2 rfl, rfl⟩
    exact (passes_to_write [] hv (h.resolve_left hv) 0).tail hwrite

theorem safe_end (m : Nat) (var : ConfigVar T) (mutex : RWState) : Safe m ⟨var, mutex, []⟩ := by
  intro k _ t ht
  cases k with
  | zero =>
    obtain rfl := Option.some.inj ht
    rintro ⟨⟨op, tasks, hwrite⟩, -⟩
    cases hwrite
  | succ k => cases ht

/-- A call of `setValue` never waits for itself exactly if the value is the stored
one, the listeners only read, or the calls of `setValue` nest for ever. -/
theorem setValue_safe_iff (var : ConfigVar T) (v : T) :
    (∀ n t, run n (setValue var v) = some t → ¬ SelfLocked t) ↔
      (v == var.val) = true ∨ firstChange var v = none ∨ ∀ n, (nested var n v).isSome := by
  constructor
  · intro h
    have hfree : ∀ t, Relation.ReflTransGen Passes (setValue var v) t → ¬ SelfLocked t := by
      intro t hpass hlocked
      obtain ⟨n, u, hu, hulocked⟩ := selfLocked_of_passes hpass hlocked
      exact h n u hu hulocked
    by_contra hnot
    obtain ⟨hv, hfirst, hends⟩ : ¬ (v == var.val) = true ∧ ¬ firstChange var v = none ∧
        ¬ ∀ n, (nested var n v).isSome := by simpa only [not_or] using hnot
    obtain ⟨op, hop⟩ := Option.ne_none_iff_exists'.mp hfirst
    obtain ⟨k, hk⟩ := not_forall.mp hends
    obtain ⟨tasks', hpass⟩ := passes_to_firstChange [] hv hop 0
    have hreads := not_onlyReads_firstChange hop
    obtain ⟨t, hreach, hlocked⟩ := change_selfLocks tasks' hreads 0 (by
      rintro w rfl
      cases k with
      | zero => exact absurd rfl hk
      | succ k =>
        rw [nested, hop] at hk
        exact nested_selfLocks _ (by simpa [OnlyReads] using hreads) (by simpa using hk) 0)
    exact hfree t (hpass.to_reflTransGen.trans hreach) hlocked
  · intro h n
    have hsafe : Safe n (setValue var v) := by
      by_cases hreturns : (v == var.val) = true ∨ firstChange var v = none
      · exact safe_of_passes (passes_to_end hreturns) (safe_end n _ _)
      · obtain ⟨hv, hfirst⟩ := not_or.mp hreturns
        exact nested_safe [] hv ((h.resolve_left hv).resolve_left hfirst) n 0
    exact hsafe n le_rfl

end

/-- A listener that removes itself. -/
theorem delListener_selfLocks :
    let cb : Callback Nat := fun _ _ => [.delListener 1]
    ∃ t, run 3 (setValue ⟨0, KeyedSet.insert .empty (1, cb), 1⟩ 7) = some t ∧ SelfLocked t :=
  ⟨_, rfl, ⟨_, _, rfl⟩, by decide⟩

end Mumu.ListenerLocks
