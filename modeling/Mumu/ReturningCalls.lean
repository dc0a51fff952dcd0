import Mumu.ConfigLocks
import Mumu.LockProgress

namespace Mumu.ReturningCalls

open Mumu.LogLevels Mumu.LogItems Mumu.LogAppenders Mumu.Loggers Mumu.PointerHeap
open Mumu.KeyedSets
open Mumu.ConfigVars Mumu.Config Mumu.LogIniter Mumu.Executions Mumu.Mutexes Mumu.LockOrder
open Mumu.LockProgress Mumu.LoggerLocks Mumu.ConfigLocks

variable {κ : Type} {V : κ → Type} [DecidableEq κ] [∀ k, BEq (V k)]

/-- What a callback does with a variable: it calls the library, or logs on the root
what such calls give. -/
inductive Action (V : κ → Type) where
  | call (op : Operation V)
  | logOnRoot (lvl : Level) (args : List (Operation V))

def Action.ops : Action V → List (Operation V)
  | call op => [op]
  | logOnRoot _ args => args

variable (x : Setting V)

def Action.routine : Action V → Routine (Val V)
  | call op => op.routine x
  | logOnRoot lvl args => ConfigLocks.logOnRoot x lvl (forEach (Operation.routine x) args)

def visit (order : Order) (cb : Ptr → List (Action V)) : Routine (Val V) :=
  guarded .registry .read <| inspect fun s =>
    forEach (fun e => forEach (Action.routine x) (cb e.2)) (order.apply s.registry.datas.toList)

theorem action_safe (root : Ptr) {a : Action V} (ha : ∀ op ∈ a.ops, op.usesRegistry = false) :
    Safe root 1 (a.routine x) := by
  cases a with
  | call op => exact routine_safe_one x root (ha op (List.mem_singleton_self op))
  | logOnRoot lvl args =>
    exact logOnRoot_safe x lvl (by decide) (Above.forEach fun op hop =>
      routine_safe_one x root (ha op hop))

theorem visit_safe (root : Ptr) (order : Order) {cb : Ptr → List (Action V)}
    (hcb : ∀ p, ∀ a ∈ cb p, ∀ op ∈ a.ops, op.usesRegistry = false) :
    Safe root 0 (visit x order cb) := by
  refine Above.guarded le_rfl (Above.inspect fun s _ => ?_)
  exact Above.forEach fun e _ => Above.forEach fun a ha => action_safe x root (hcb e.2 a ha)

/-- A thread calls an operation, visits the variables, or goes on. -/
inductive Request (V : κ → Type) where
  | call (i : Nat) (op : Operation V)
  | visit (i : Nat) (order : Order) (cb : Ptr → List (Action V))
  | run (i : Nat)

def Request.act : Request V → Act Lock (Shared (Val V))
  | call i op => .start i (op.routine x)
  | visit i order cb => .start i (ReturningCalls.visit x order cb)
  | run i => .run i

/-- Callbacks that leave the registry alone while it is visited. -/
def Request.Polite : Request V → Prop
  | visit _ _ cb => ∀ p, ∀ a ∈ cb p, ∀ op ∈ a.ops, op.usesRegistry = false
  | _ => True

section

variable (registry : Registry World Fault (Val V)) (sFunId : VarType κ → Nat) (n : Nat)
  (reqs : List (Request V)) (hreqs : ∀ r ∈ reqs, r.Polite) (s : System Lock (Shared (Val V)))

include hreqs

theorem requests_good :
    ∀ a ∈ reqs.map (Request.act x), a.Good (rank World.initial.root)
      (fun s : Shared (Val V) => Rooted World.initial.root s.world) := by
  intro a ha
  obtain ⟨r, hr, rfl⟩ := List.mem_map.mp ha
  cases r with
  | call i op => exact routine_safe x _ op
  | visit i order cb => exact visit_safe x _ order (hreqs _ hr)
  | run i => trivial

/-- Any number of threads that call the library and visit its variables, whatever
state their steps have led to. -/
theorem calls_return (h : exec step (idle registry sFunId n) (reqs.map (Request.act x)) = .ok s) :
    Returning (rank World.initial.root) s :=
  exec_returning (I := fun s : Shared (Val V) => Rooted World.initial.root s.world)
    initial_rooted n (requests_good x reqs hreqs) h

/-- A call of `log` in any such state. What follows it with a larger bound on its hops
than two follows with two. -/
theorem log_two_hops
    (h : exec step (idle registry sFunId n) (reqs.map (Request.act x)) = .ok s) (lvl : Level)
    (event : LogEvent) (hops : Nat) (p : Ptr) (i : Nat) (is : List Nat)
    (t u : System Lock (Shared (Val V)))
    (ht : step s (.start i (log x.env lvl event (hops + 2) p)) = .ok t)
    (hu : exec step t (is.map .run) = .ok u) :
    ∃ t' u', step s (.start i (log x.env lvl event 2 p)) = .ok t' ∧
      exec step t' (is.map .run) = .ok u' ∧
      Same (fun s => Rooted World.initial.root s.world) u u' := by
  have hs : Inv (rank World.initial.root) (fun s => Rooted World.initial.root s.world) s :=
    exec_inv initial_rooted n (requests_good x reqs hreqs) h
  have hsafe : Safe World.initial.root 0 (log x.env lvl event (hops + 2) p : Routine (Val V)) :=
    (log_safe x.env lvl event (hops + 2) p).mono (Nat.zero_le _)
  have hgood : (Act.start i (log x.env lvl event (hops + 2) p : Routine (Val V))).Good
      (rank World.initial.root) (fun s => Rooted World.initial.root s.world) := hsafe
  obtain ⟨t', ht', hsame⟩ := Same.start (log_hops x.env lvl event hops p) ht
  obtain ⟨u', hu', hsame'⟩ := exec_same hsame (step_inv s _ t hgood hs ht) hu
  exact ⟨t', u', ht', hu', hsame'⟩

end

/-- Each variable is logged with its text. -/
def logVariable (p : Ptr) : List (Action (fun _ : Empty => Unit)) :=
  [.logOnRoot .info [.toString p]]

/-- A lookup while the variable of the one before it is visited. -/
def visiting : List (Request fun _ : Empty => Unit) :=
  [.call 0 (.lookup ['a'] .logs .empty []), .run 0, .run 0, .run 0, .run 0,
    .visit 0 ⟨id, List.Perm.refl⟩ logVariable, .run 0, .run 0, .run 0,
    .call 1 (.lookup ['a'] .logs .empty [])]

theorem visiting_polite : ∀ r ∈ visiting, r.Polite := by
  intro r hr
  cases r with
  | call i op | run i => trivial
  | visit i order cb =>
    obtain ⟨-, -, rfl⟩ : i = 0 ∧ _ ∧ cb = logVariable := by simpa [visiting] using hr
    intro p a ha op hop
    obtain rfl := List.mem_singleton.mp ha
    obtain rfl := List.mem_singleton.mp hop
    rfl

theorem calls_return_visiting :
    ∃ s, exec step (idle .empty (fun _ => 0) 2)
        (visiting.map (Request.act bare)) = .ok s ∧
      Waits s 1 0 ∧ Returning (rank World.initial.root) s := by
  refine ⟨_, rfl, ?_, ?_⟩
  · exact ⟨_, _, .registry, .write, _, .read, rfl, rfl, rfl, List.mem_singleton.mpr rfl⟩
  · exact calls_return bare .empty (fun _ => 0) 2 visiting visiting_polite _ rfl

end Mumu.ReturningCalls
