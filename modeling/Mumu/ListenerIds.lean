import Mathlib.Data.List.Nodup
import Mathlib.Data.Set.Subsingleton
import Mumu.ConfigVars
import Mumu.LockSections

namespace Mumu.ListenerIds

open Mumu.KeyedSets Mumu.ConfigVars Mumu.Executions Mumu.Mutexes Mumu.LockSections

variable {σ ε T P : Type} [DecidableEq P]

/-- The variables of one type, and the counter that `addListener` has for all of them. -/
structure Memory (σ ε T P : Type) where
  sFunId : Nat
  vars : P → ConfigVar σ ε T

/-- Before any call, no variable has a listener. -/
def Memory.start (vars : P → ConfigVar σ ε T) : Memory σ ε T P :=
  ⟨0, fun p => { vars p with cbs := .empty }⟩

/-- The assignment to an entry of the callbacks of a variable. -/
def Memory.register (m : Memory σ ε T P) (p : P) (key : Nat) (cb : Listener σ ε T) :
    Memory σ ε T P :=
  let var := m.vars p
  ⟨m.sFunId, Function.update m.vars p { var with cbs := KeyedMap.set var.cbs key cb }⟩

/-- The counter is read and written for the increment, and read again for the key
and for the result. -/
def addListenerBody (p : P) (cb : Listener σ ε T) :
    Body (Memory σ ε T P) ((P × Listener σ ε T) × Nat) :=
  .act id fun m =>
    let incremented := (m.sFunId + 1) % 2 ^ 64
    .act (fun m => { m with sFunId := incremented }) fun _ =>
      .act id fun m =>
        let key := m.sFunId
        .act (fun m => m.register p key cb) fun _ =>
          .act id fun m => .ret ((p, cb), m.sFunId)

/-- A call that nobody interrupts. -/
def addListener (q : P × Listener σ ε T) (m : Memory σ ε T P) : Memory σ ε T P × Nat :=
  let (id, var) := (m.vars q.1).addListener q.2 m.sFunId
  (⟨id, Function.update m.vars q.1 var⟩, id)

/-- Each variable has a mutex of its own, but there is one memory for all. -/
def addListeners (σ ε T P : Type) [DecidableEq P] :
    Calls rwMutex P Unit (Memory σ ε T P) (P × Listener σ ε T) Nat where
  alone := addListener
  sec q := ⟨q.1, .write, (), addListenerBody q.1 q.2, nofun⟩
  run _ _ := rfl

abbrev History (σ ε T P : Type) :=
  List (Entry rwMutex P Unit (Memory σ ε T P) ((P × Listener σ ε T) × Nat))

/-- The variables and the identifiers of the calls so far. -/
def identifiers (h : History σ ε T P) : List (P × Nat) :=
  h.map fun e => (e.result.1.1, e.result.2)

/-- The calls on one variable have got different identifiers, each of which leads to
the listener of its call when nobody is registering one. -/
structure Identified (s : LockSections.State rwMutex P Unit (Memory σ ε T P)
    ((P × Listener σ ε T) × Nat)) : Prop where
  nodup : (identifiers s.history).Nodup
  leads : (∀ t ∈ s.threads, ¬ t.Writes ()) → ∀ e ∈ s.history,
    ((s.data ()).vars e.result.1.1).getListener e.result.2 = some e.result.1.2

/-! ### One variable -/

theorem after_addListener (q : P × Listener σ ε T) (d : Unit → Memory σ ε T P) :
    (addListeners σ ε T P).after q d () = (addListener q (d ())).1 :=
  rfl

theorem getListener_addListener (var : ConfigVar σ ε T) (cb : Listener σ ε T) (sFunId key : Nat) :
    (var.addListener cb sFunId).2.getListener key =
      if (sFunId + 1) % 2 ^ 64 = key then some cb else var.getListener key := by
  rw [ConfigVar.addListener, ConfigVar.getListener, ConfigVar.getListener]
  exact KeyedMap.get?_set ..

theorem getListener_after (q : P × Listener σ ε T) (m : Memory σ ε T P) (p : P) (key : Nat) :
    ((addListener q m).1.vars p).getListener key =
      if q.1 = p ∧ (m.sFunId + 1) % 2 ^ 64 = key then some q.2 else (m.vars p).getListener key := by
  by_cases hp : q.1 = p
  · subst hp
    have hvar : (addListener q m).1.vars q.1 = ((m.vars q.1).addListener q.2 m.sFunId).2 :=
      Function.update_self ..
    rw [hvar, getListener_addListener]
    simp only [true_and]
  · have hvar : (addListener q m).1.vars p = m.vars p := Function.update_of_ne (Ne.symm hp) ..
    rw [hvar, if_neg fun h => hp h.1]

/-- Calls in turn get the identifiers in turn, and no later call takes one again. -/
theorem serial_ids {d : Unit → Memory σ ε T P} {h : History σ ε T P} (hs : Serial d h)
    (hcalls : ∀ e ∈ h, ∃ q, e.call = (addListeners σ ε T P).sec q)
    (hlen : (d ()).sFunId + h.length < 2 ^ 64) :
    h.map (fun e => e.result.2) = List.range' ((d ()).sFunId + 1) h.length ∧
      (∀ e ∈ h, ((replay d h ()).vars e.result.1.1).getListener e.result.2 =
        some e.result.1.2) ∧
      ∀ p key, key ≤ (d ()).sFunId →
        ((replay d h ()).vars p).getListener key = ((d ()).vars p).getListener key := by
  induction h generalizing d with
  | nil => exact ⟨rfl, fun e he => absurd he List.not_mem_nil, fun _ _ _ => rfl⟩
  | cons e h ih =>
    obtain ⟨q, hq⟩ := hcalls e List.mem_cons_self
    have hafter : e.after d () = (addListener q (d ())).1 := by
      rw [Calls.after_call hq, after_addListener]
    rw [List.length_cons] at hlen
    have hid : ((d ()).sFunId + 1) % 2 ^ 64 = (d ()).sFunId + 1 := Nat.mod_eq_of_lt (by omega)
    have hresult : e.result = (q, (d ()).sFunId + 1) :=
      (Calls.result_call hq hs.1).trans (congrArg (Prod.mk q) hid)
    have hcounter : (e.after d ()).sFunId = (d ()).sFunId + 1 := by
      rw [hafter]
      exact hid
    obtain ⟨hids, hleads, hkept⟩ := ih hs.2 (fun e he => hcalls e (List.mem_cons_of_mem _ he))
      (by rw [hcounter]; omega)
    refine ⟨?_, fun e' he' => ?_, fun p key hkey => ?_⟩
    · rw [List.map_cons, hids, hcounter, hresult, List.length_cons, List.range'_succ]
    · obtain rfl | he' := List.mem_cons.mp he'
      · rw [replay, List.foldl_cons, ← replay, hkept _ _ (by rw [hresult, hcounter]), hafter,
          getListener_after, hresult, if_pos ⟨rfl, hid⟩]
      · exact hleads e' he'
    · rw [replay, List.foldl_cons, ← replay, hkept p key (by omega), hafter, getListener_after,
        if_neg (by omega)]

theorem identified_of_subsingleton {ps : Set P} (hps : ps.Subsingleton)
    {clients : List (Client rwMutex P Unit (Memory σ ε T P) ((P × Listener σ ε T) × Nat))}
    (hclients : ∀ c ∈ clients, c.All fun sec =>
      ∃ q, q.1 ∈ ps ∧ sec = (addListeners σ ε T P).sec q)
    {vars : P → ConfigVar σ ε T} {acts : List Nat}
    {s : LockSections.State rwMutex P Unit (Memory σ ε T P) ((P × Listener σ ε T) × Nat)}
    (hrun : exec LockSections.step (initial rwMutex clients fun _ => .start vars) acts = .ok s)
    (hlen : s.history.length < 2 ^ 64) : Identified s := by
  by_cases hP : Nonempty P
  · have hguarded : ∀ c ∈ clients, c.All (Guarded fun _ => Classical.epsilon (· ∈ ps)) := by
      refine fun c hc => (hclients c hc).mono ?_
      rintro _ ⟨q, hq, rfl⟩
      exact hps hq (Classical.epsilon_spec (p := (· ∈ ps)) ⟨q.1, hq⟩)
    have hs := run_serial rwMutex_lawful hguarded hrun
    have hcalls : ∀ e ∈ s.history, ∃ q, e.call = (addListeners σ ε T P).sec q := by
      refine hs.all (P := fun sec => ∃ q, sec = (addListeners σ ε T P).sec q) fun c hc =>
        (hclients c hc).mono ?_
      rintro _ ⟨q, _, rfl⟩
      exact ⟨q, rfl⟩
    obtain ⟨hids, hleads, _⟩ := serial_ids hs.serial hcalls (by simpa [Memory.start] using hlen)
    refine ⟨List.Nodup.of_map Prod.snd ?_, fun hquiet => ?_⟩
    · rw [identifiers, List.map_map]
      change (s.history.map fun e => e.result.2).Nodup
      rw [hids]
      exact List.nodup_range'
    · rw [hs.data () hquiet]
      exact hleads
  · have hnone : s.history = [] :=
      List.eq_nil_iff_forall_not_mem.mpr fun e _ => hP ⟨e.result.1.1⟩
    refine ⟨?_, fun _ => ?_⟩
    · rw [hnone]
      exact List.nodup_nil
    · rw [hnone]
      exact fun e he => absurd he List.not_mem_nil

/-! ### Two variables -/

/-- A thread that registers listeners in turn. -/
def registering (qs : List (P × Listener σ ε T)) :
    Client rwMutex P Unit (Memory σ ε T P) ((P × Listener σ ε T) × Nat) :=
  .ofList (qs.map (addListeners σ ε T P).sec)

theorem registering_all {I : Section rwMutex P Unit (Memory σ ε T P)
      ((P × Listener σ ε T) × Nat) → Prop} {qs : List (P × Listener σ ε T)}
    (hqs : ∀ q ∈ qs, I ((addListeners σ ε T P).sec q)) : (registering qs).All I := by
  induction qs with
  | nil => trivial
  | cons q qs ih =>
    exact ⟨hqs q List.mem_cons_self, fun _ => ih fun q hq => hqs q (List.mem_cons_of_mem _ hq)⟩

theorem exec_registering {s : LockSections.State rwMutex P Unit (Memory σ ε T P)
      ((P × Listener σ ε T) × Nat)} {i : Nat} {q : P × Listener σ ε T}
    {qs : List (P × Listener σ ε T)}
    (ht : s.threads[i]? = some (.idle (registering (q :: qs))))
    (hm : s.mutexes q.1 = rwMutex.free) :
    ∃ acts t, exec LockSections.step s acts = .ok t ∧
      t.threads = s.threads.set i (.idle (registering qs)) ∧ t.mutexes q.1 = rwMutex.free ∧
      t.data () = (addListener q (s.data ())).1 ∧
      t.history.map Entry.result =
        s.history.map Entry.result ++ [(q, ((s.data ()).sFunId + 1) % 2 ^ 64)] := by
  have hlock : rwMutex.lock .write (s.mutexes q.1) = some ⟨0, true⟩ := by
    rw [hm]
    rfl
  obtain ⟨acts, hacts⟩ := (addListeners σ ε T P).exec_call ht hlock
  exact ⟨acts, _, hacts, rfl, Function.update_self .., rfl, List.map_append⟩

/-- While a call on one variable is between the read and the write of the counter,
two calls on another go through; its write takes the counter back, and the next
call on the other variable gets an identifier again, in the place of the listener
that had it. -/
theorem identifier_twice {p q : P} (hpq : p ≠ q) (cb first second : Listener σ ε T)
    (vars : P → ConfigVar σ ε T) :
    ∃ acts s, exec LockSections.step (initial rwMutex
        [registering [(p, cb)], registering [(q, cb), (q, first), (q, second)]]
        fun _ => .start vars) acts = .ok s ∧
      (∀ t ∈ s.threads, ¬ t.Writes ()) ∧
      s.history.map Entry.result =
        [((q, cb), 1), ((q, first), 2), ((p, cb), 1), ((q, second), 2)] ∧
      ((s.data ()).vars q).getListener 2 = some second := by
  obtain ⟨s₁, rest, h₁, ht₁, hm₁, hd₁, hh₁, hrest⟩ : ∃ s₁ rest, exec LockSections.step
      (initial rwMutex [registering [(p, cb)], registering [(q, cb), (q, first), (q, second)]]
        fun _ => .start vars) [0, 0] = .ok s₁ ∧
      s₁.threads = [.inside ((addListeners σ ε T P).sec (p, cb)) rest fun _ => .done,
        .idle (registering [(q, cb), (q, first), (q, second)])] ∧
      s₁.mutexes q = rwMutex.free ∧ (s₁.data ()).sFunId = 0 ∧ s₁.history = [] ∧
      ∀ m, (rest.run m).1.sFunId = 1 ∧ (rest.run m).2 = ((p, cb), 1) :=
    ⟨_, _, rfl, rfl, Function.update_of_ne hpq.symm .., rfl, rfl, fun _ => ⟨rfl, rfl⟩⟩
  obtain ⟨a₂, s₂, h₂, ht₂, hm₂, hd₂, hh₂⟩ :=
    exec_registering (s := s₁) (i := 1) (q := (q, cb)) (by rw [ht₁]; rfl) hm₁
  obtain ⟨a₃, s₃, h₃, ht₃, hm₃, hd₃, hh₃⟩ :=
    exec_registering (s := s₂) (i := 1) (q := (q, first)) (by rw [ht₂, ht₁]; rfl) hm₂
  have hinside : s₃.threads[0]? =
      some (.inside ((addListeners σ ε T P).sec (p, cb)) rest fun _ => .done) := by
    rw [ht₃, ht₂, ht₁]
    rfl
  obtain ⟨a₄, h₄⟩ := exec_body hinside
  obtain ⟨a₅, s₅, h₅, ht₅, _, hd₅, hh₅⟩ := exec_registering (i := 1) (q := (q, second))
    (s := { s₃ with
      data := Function.update s₃.data () (rest.run (s₃.data ())).1
      threads := s₃.threads.set 0 (.leaving ((addListeners σ ε T P).sec (p, cb)) .done)
      history := s₃.history ++
        [⟨0, (addListeners σ ε T P).sec (p, cb), (rest.run (s₃.data ())).2⟩] })
    (by rw [ht₃, ht₂, ht₁]; rfl) hm₃
  -- the call on the first variable has put the counter back to one
  have hstored : (Function.update s₃.data () (rest.run (s₃.data ())).1 ()).sFunId = 1 := by
    rw [Function.update_self]
    exact (hrest _).1
  refine ⟨_, s₅, exec_append_ok h₁ (exec_append_ok h₂ (exec_append_ok h₃ (exec_append_ok h₄ h₅))),
    ?_, ?_, ?_⟩
  · have hidle : s₅.threads =
        [.leaving ((addListeners σ ε T P).sec (p, cb)) .done, .idle (registering [])] := by
      rw [ht₅, ht₃, ht₂, ht₁]
      rfl
    rw [hidle]
    intro t ht
    obtain rfl | ht := List.mem_cons.mp ht
    · exact id
    · rw [List.mem_singleton.mp ht]
      exact id
  · have hcounter : (s₂.data ()).sFunId = 1 := by
      rw [hd₂]
      exact congrArg (fun n => (n + 1) % 2 ^ 64) hd₁
    rw [hh₅, List.map_append, hh₃, hh₂, hh₁, hd₁, hcounter]
    dsimp only
    rw [hstored, List.map_singleton, (hrest _).2]
    rfl
  · rw [hd₅, getListener_after]
    exact if_pos ⟨rfl, congrArg (fun n => (n + 1) % 2 ^ 64) hstored⟩

/-- A state of a run of threads that call `addListener` on some of the variables. -/
def Reached (vars : P → ConfigVar σ ε T) (ps : Set P)
    (s : LockSections.State rwMutex P Unit (Memory σ ε T P) ((P × Listener σ ε T) × Nat)) : Prop :=
  ∃ (clients : List (Client rwMutex P Unit (Memory σ ε T P) ((P × Listener σ ε T) × Nat)))
    (acts : List Nat),
    (∀ c ∈ clients, c.All fun sec => ∃ q, q.1 ∈ ps ∧ sec = (addListeners σ ε T P).sec q) ∧
      exec LockSections.step (initial rwMutex clients fun _ => .start vars) acts = .ok s

theorem reached_twice (vars : P → ConfigVar σ ε T) {ps : Set P} {p q : P} (hp : p ∈ ps)
    (hq : q ∈ ps) (hpq : p ≠ q) (first second : Listener σ ε T) :
    ∃ s, Reached vars ps s ∧ (∀ t ∈ s.threads, ¬ t.Writes ()) ∧
      s.history.map Entry.result =
        [((q, first), 1), ((q, first), 2), ((p, first), 1), ((q, second), 2)] ∧
      ((s.data ()).vars q).getListener 2 = some second := by
  obtain ⟨acts, s, hrun, hrest⟩ := identifier_twice hpq first first second vars
  refine ⟨s, ⟨_, acts, fun c hc => ?_, hrun⟩, hrest⟩
  obtain rfl | hc := List.mem_cons.mp hc
  · exact registering_all fun r hr => ⟨r, by rw [List.mem_singleton.mp hr]; exact hp, rfl⟩
  · rw [List.mem_singleton.mp hc]
    refine registering_all fun r hr => ⟨r, ?_, rfl⟩
    have hon : ∀ r ∈ [(q, first), (q, first), (q, second)], r.1 = q := by simp
    rw [hon r hr]
    exact hq

/-- Listeners are identified in every run exactly if there is one variable of their type.
With two, a listener can be registered in the place of another. -/
theorem identified_iff (vars : P → ConfigVar σ ε T) (ps : Set P) :
    ((∀ s, Reached vars ps s → s.history.length < 2 ^ 64 → Identified s) ↔ ps.Subsingleton) ∧
      ∀ p ∈ ps, ∀ q ∈ ps, p ≠ q → ∀ first second : Listener σ ε T,
        ∃ s, Reached vars ps s ∧ (∀ t ∈ s.threads, ¬ t.Writes ()) ∧
          ((q, first), 2) ∈ s.history.map Entry.result ∧
          ((q, second), 2) ∈ s.history.map Entry.result ∧
          ((s.data ()).vars q).getListener 2 = some second := by
  refine ⟨⟨?_, ?_⟩, ?_⟩
  · intro hall p hp q hq
    by_contra hpq
    obtain ⟨s, hs, _, hhistory, _⟩ :=
      reached_twice vars hp hq hpq (fun _ _ surroundings => (.ok (), surroundings))
        (fun _ _ surroundings => (.ok (), surroundings))
    have hlen : s.history.length = 4 := by
      rw [← List.length_map (f := Entry.result), hhistory]
      rfl
    have hnodup := (hall s hs (by rw [hlen]; decide)).nodup
    have hids : identifiers s.history =
        (s.history.map Entry.result).map fun r => (r.1.1, r.2) := by
      rw [identifiers, List.map_map]
      rfl
    rw [hids, hhistory] at hnodup
    simp at hnodup
  · rintro hps s ⟨clients, acts, hclients, hrun⟩ hlen
    exact identified_of_subsingleton hps hclients hrun hlen
  · intro p hp q hq hpq first second
    obtain ⟨s, hs, hquiet, hhistory, hfound⟩ := reached_twice vars hp hq hpq first second
    refine ⟨s, hs, hquiet, ?_, ?_, hfound⟩
    · rw [hhistory]
      simp
    · rw [hhistory]
      simp

end Mumu.ListenerIds
