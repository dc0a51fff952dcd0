import Mathlib.Data.Fintype.EquivFin
import Mathlib.Data.List.FinRange
import Mathlib.Logic.Function.Basic
import Mumu.LockSections

namespace Mumu.SharedValues

open Mumu.Executions Mumu.Mutexes Mumu.LockSections

variable {n : Nat} {W P : Type}

/-- What the mutex of a variable guards: a value of several words, and the keys of
its callbacks. -/
structure Var (n : Nat) (W : Type) where
  val : Fin n → W
  cbs : List Nat

/-- A callback reads the old value through a reference while it runs. -/
structure Told (n : Nat) (W : Type) where
  key : Nat
  oldValue : Fin n → W
  newValue : Fin n → W

inductive Op (n : Nat) (W : Type) where
  | getValue
  | notify (v : Fin n → W)
  | assign (v : Fin n → W)
  | delListener (key : Nat)

inductive Answer (n : Nat) (W : Type) where
  | value (v : Fin n → W)
  | same
  | told (calls : List (Told n W))
  | done

/-! ### Words -/

section

variable {R : Type}

def copyWords (k : (Fin n → W) → Body (Var n W) R) :
    List (Fin n) → (Fin n → W) → Body (Var n W) R
  | [], acc => k acc
  | i :: is, acc => .act id fun var => copyWords k is (Function.update acc i (var.val i))

def compareWords [BEq W] (v : Fin n → W) (k : Bool → Body (Var n W) R) :
    List (Fin n) → Body (Var n W) R
  | [] => k true
  | i :: is => .act id fun var => if v i == var.val i then compareWords v k is else k false

def storeWords (v : Fin n → W) (k : Body (Var n W) R) : List (Fin n) → Body (Var n W) R
  | [] => k
  | i :: is => .act (fun var => { var with val := Function.update var.val i (v i) }) fun _ =>
      storeWords v k is

/-- The loop over the callbacks. -/
def notifyAll (v : Fin n → W) (k : List (Told n W) → Body (Var n W) R) :
    List Nat → List (Told n W) → Body (Var n W) R
  | [], calls => k calls
  | key :: keys, calls =>
    copyWords (fun oldValue => notifyAll v k keys (calls ++ [⟨key, oldValue, v⟩]))
      (List.finRange n) v

theorem copyWords_run (k : (Fin n → W) → Body (Var n W) R) (is : List (Fin n)) (acc : Fin n → W)
    (var : Var n W) :
    (copyWords k is acc).run var = (k fun i => if i ∈ is then var.val i else acc i).run var := by
  induction is generalizing acc with
  | nil => simp [copyWords]
  | cons i is ih =>
    rw [copyWords, Body.run, id, ih]
    congr 2
    funext j
    by_cases hj : j = i
    · subst hj
      simp
    · simp [hj]

theorem copyWords_run_all (k : (Fin n → W) → Body (Var n W) R) (acc : Fin n → W) (var : Var n W) :
    (copyWords k (List.finRange n) acc).run var = (k var.val).run var := by
  rw [copyWords_run]
  simp only [List.mem_finRange, if_true]

theorem copyWords_readsOnly {k : (Fin n → W) → Body (Var n W) R} (hk : ∀ v, (k v).ReadsOnly)
    (is : List (Fin n)) (acc : Fin n → W) : (copyWords k is acc).ReadsOnly := by
  induction is generalizing acc with
  | nil => exact hk acc
  | cons i is ih => exact fun _ => ⟨rfl, ih _⟩

theorem storeWords_run (v : Fin n → W) (k : Body (Var n W) R) (is : List (Fin n)) (var : Var n W) :
    (storeWords v k is).run var =
      k.run { var with val := fun i => if i ∈ is then v i else var.val i } := by
  induction is generalizing var with
  | nil => simp [storeWords]
  | cons i is ih =>
    rw [storeWords, Body.run, ih]
    congr 2
    funext j
    by_cases hj : j = i
    · subst hj
      simp
    · simp [hj]

theorem notifyAll_run (v : Fin n → W) (k : List (Told n W) → Body (Var n W) R) (keys : List Nat)
    (calls : List (Told n W)) (var : Var n W) :
    (notifyAll v k keys calls).run var =
      (k (calls ++ keys.map fun key => ⟨key, var.val, v⟩)).run var := by
  induction keys generalizing calls with
  | nil => rw [notifyAll, List.map_nil, List.append_nil]
  | cons key keys ih => rw [notifyAll, copyWords_run_all, ih, List.append_assoc]; rfl

theorem notifyAll_readsOnly (v : Fin n → W) {k : List (Told n W) → Body (Var n W) R}
    (hk : ∀ calls, (k calls).ReadsOnly) (keys : List Nat) (calls : List (Told n W)) :
    (notifyAll v k keys calls).ReadsOnly := by
  induction keys generalizing calls with
  | nil => exact hk calls
  | cons key keys ih => exact copyWords_readsOnly (fun _ => ih _) _ _

variable [BEq W]

theorem compareWords_run (v : Fin n → W) (k : Bool → Body (Var n W) R) (is : List (Fin n))
    (var : Var n W) :
    (compareWords v k is).run var = (k (is.all fun i => v i == var.val i)).run var := by
  induction is with
  | nil => rfl
  | cons i is ih =>
    rw [compareWords, Body.run, id, List.all_cons]
    cases v i == var.val i with
    | true => exact ih
    | false => rfl

theorem compareWords_readsOnly (v : Fin n → W) {k : Bool → Body (Var n W) R}
    (hk : ∀ eq, (k eq).ReadsOnly) (is : List (Fin n)) : (compareWords v k is).ReadsOnly := by
  induction is with
  | nil => exact hk true
  | cons i is ih =>
    refine fun var => ⟨rfl, ?_⟩
    dsimp only
    split
    · exact ih
    · exact hk false

end

/-! ### Sections -/

variable [BEq W]

def body (q : P × Op n W) : Body (Var n W) ((P × Op n W) × Answer n W) :=
  match q.2 with
  | .getValue => .act id fun var =>
      copyWords (fun v => .ret (q, .value v)) (List.finRange n) var.val
  | .notify v => compareWords v (fun
      | true => .ret (q, .same)
      | false => .act id fun var => notifyAll v (fun calls => .ret (q, .told calls)) var.cbs [])
      (List.finRange n)
  | .assign v => storeWords v (.ret (q, .done)) (List.finRange n)
  | .delListener key =>
    .act (fun var => { var with cbs := var.cbs.erase key }) fun _ => .ret (q, .done)

/-- The first scope of `setValue` is guarded for reading, its second for writing. -/
def Op.mode : Op n W → RWMode
  | getValue | notify _ => .read
  | assign _ | delListener _ => .write

def sec (q : P × Op n W) : Section rwMutex P P (Var n W) ((P × Op n W) × Answer n W) where
  lock := q.1
  mode := q.2.mode
  place := q.1
  body := body q
  reads := by
    obtain ⟨p, op⟩ := q
    cases op with
    | getValue =>
      refine fun _ var => ⟨rfl, ?_⟩
      apply copyWords_readsOnly
      exact fun _ => trivial
    | notify v =>
      refine fun _ => compareWords_readsOnly v (fun eq => ?_) _
      cases eq with
      | true => trivial
      | false =>
        refine fun var => ⟨rfl, ?_⟩
        apply notifyAll_readsOnly
        exact fun _ => trivial
    | assign v | delListener key => exact nofun

/-- A section that nobody interrupts. -/
def Op.alone (var : Var n W) : Op n W → Var n W × Answer n W
  | getValue => (var, .value var.val)
  | notify v =>
    (var, if (List.finRange n).all fun i => v i == var.val i then .same
      else .told (var.cbs.map fun key => ⟨key, var.val, v⟩))
  | assign v => ({ var with val := v }, .done)
  | delListener key => ({ var with cbs := var.cbs.erase key }, .done)

theorem body_run (q : P × Op n W) (var : Var n W) :
    (sec q).body.run var = ((q.2.alone var).1, q, (q.2.alone var).2) := by
  obtain ⟨p, op⟩ := q
  cases op with
  | getValue => exact copyWords_run_all _ _ _
  | notify v =>
    change (compareWords v _ _).run var = _
    rw [compareWords_run, Op.alone]
    cases (List.finRange n).all fun i => v i == var.val i with
    | true => rfl
    | false => exact notifyAll_run v _ _ _ _
  | assign v =>
    change (storeWords v _ _).run var = _
    rw [storeWords_run]
    simp only [List.mem_finRange, if_true]
    rfl
  | delListener key => rfl

def values (n : Nat) (W P : Type) [BEq W] :
    Calls rwMutex P P (Var n W) (P × Op n W) (Answer n W) where
  alone q var := q.2.alone var
  sec := sec
  run := body_run

/-! ### No value is torn -/

/-- The values that an answer was read from. -/
def Answer.reads : Answer n W → List (Fin n → W)
  | value v => [v]
  | told calls => calls.map Told.oldValue
  | same | done => []

theorem alone_reads (op : Op n W) (var : Var n W) :
    ∀ v ∈ (op.alone var).2.reads, v = var.val := by
  intro v hv
  cases op with
  | getValue => exact List.mem_singleton.mp hv
  | notify v' =>
    rw [Op.alone] at hv
    split at hv
    · cases hv
    · simp only [Answer.reads, List.map_map, List.mem_map] at hv
      obtain ⟨key, _, rfl⟩ := hv
      rfl
  | assign v' | delListener key => cases hv

variable [DecidableEq P] {d : P → Var n W}
  {h : List (Entry rwMutex P P (Var n W) ((P × Op n W) × Answer n W))}

/-- A value that is there from the start, or that some thread assigns. -/
def Given (d : P → Var n W) (h : List (Entry rwMutex P P (Var n W) ((P × Op n W) × Answer n W)))
    (p : P) (v : Fin n → W) : Prop :=
  v = (d p).val ∨ ∃ e ∈ h, e.call = sec (p, .assign v)

theorem alone_val (op : Op n W) (var : Var n W) :
    (op.alone var).1.val = var.val ∨ ∃ v, op = .assign v ∧ (op.alone var).1.val = v := by
  cases op with
  | assign v => exact .inr ⟨v, rfl, rfl⟩
  | getValue | notify v | delListener key => exact .inl rfl

theorem read_given (hs : Serial d h) (hcalls : ∀ e ∈ h, ∃ q, e.call = (values n W P).sec q) :
    (∀ p, Given d h p (replay d h p).val) ∧
      ∀ e ∈ h, ∀ v ∈ e.result.2.reads, Given d h e.call.place v := by
  refine serial_lasting (I := fun d' => ∀ p, Given d h p (d' p).val)
    (P := fun e _ => ∀ v ∈ e.result.2.reads, Given d h e.call.place v) hs (fun p => .inl rfl)
    ?_ ?_ fun _ _ _ _ _ hv => hv
  · intro e he d' hd' p
    obtain ⟨⟨p', op⟩, hq⟩ := hcalls e he
    rw [Calls.after_call hq, Calls.after]
    by_cases hp : p = p'
    · subst hp
      have hself : Function.update d' p (op.alone (d' p)).1 p = (op.alone (d' p)).1 :=
        Function.update_self ..
      change Given d h p (Function.update d' p (op.alone (d' p)).1 p).val
      rw [hself]
      obtain hval | ⟨v, rfl, hval⟩ := alone_val op (d' p)
      · rw [hval]
        exact hd' p
      · rw [hval]
        exact .inr ⟨e, he, hq⟩
    · have hother : Function.update d' p' (op.alone (d' p')).1 p = d' p :=
        Function.update_of_ne hp ..
      change Given d h p (Function.update d' p' (op.alone (d' p')).1 p).val
      rw [hother]
      exact hd' p
  · intro e he d' hd' hresult v hv
    obtain ⟨q, hq⟩ := hcalls e he
    rw [Calls.result_call hq hresult] at hv
    have hval := alone_reads q.2 _ v hv
    rw [hq, hval]
    exact hd' q.1

/-- Threads that get and set values of several words, word by word, get what they
would get in some order of the scopes, and no callback and no caller sees a value
that nobody has given. -/
theorem values_untorn {clients : List (Client rwMutex P P (Var n W) ((P × Op n W) × Answer n W))}
    (hclients : ∀ c ∈ clients, c.All fun s => ∃ q, s = (values n W P).sec q) {acts : List Nat}
    {s : LockSections.State rwMutex P P (Var n W) ((P × Op n W) × Answer n W)}
    (hrun : exec LockSections.step (initial rwMutex clients d) acts = .ok s) :
    (values n W P).InTurn d (s.history.map Entry.result) ∧
      (∀ p, (∀ t ∈ s.threads, ¬ t.Writes p) →
        s.data p = (values n W P).afterAll d (s.history.map Entry.result) p ∧
        Given d s.history p (s.data p).val) ∧
      (∀ (i : Nat) c, clients[i]? = some c → ∃ t, s.threads[i]? = some t ∧
        Path c (s.history.filter (fun e => e.thread = i)) t.pending) ∧
      ∀ e ∈ s.history, ∀ v ∈ e.result.2.reads, Given d s.history e.call.place v := by
  have hguarded : ∀ c ∈ clients, c.All (Guarded id) := fun c hc =>
    (hclients c hc).mono fun _ ⟨_, hq⟩ => hq ▸ rfl
  have hs := run_serial rwMutex_lawful hguarded hrun
  have hcalls := hs.all hclients
  obtain ⟨hturn, hlast⟩ := Calls.inTurn_of_serial hs.serial hcalls
  obtain ⟨hvals, hreads⟩ := read_given hs.serial hcalls
  refine ⟨hturn, fun p hp => ?_, fun i c hc => hs.path hc, hreads⟩
  have hdata := hs.data p hp
  refine ⟨hdata.trans (congrFun hlast p), ?_⟩
  rw [hdata]
  exact hvals p

/-- One thread sets a value of two words while another gets it. -/
theorem values_untorn_two :
    let F := values 2 Nat Unit
    let clients := [Client.ofList [F.sec ((), .notify fun _ => 7), F.sec ((), .assign fun _ => 7)],
      Client.ofList [F.sec ((), .getValue)]]
    let d : Unit → Var 2 Nat := fun _ => ⟨fun _ => 0, [1]⟩
    ∃ s, exec LockSections.step (initial rwMutex clients d)
        [0, 1, 0, 1, 0, 1, 0, 1, 0, 1, 0, 1, 0, 0, 0, 0, 0, 0] = .ok s ∧
      F.InTurn d (s.history.map Entry.result) := by
  intro F clients d
  have hclients : ∀ c ∈ clients, c.All fun s => ∃ q, s = F.sec q := by
    intro c hc
    obtain rfl | hc := List.mem_cons.mp hc
    · exact ⟨⟨_, rfl⟩, fun _ => ⟨⟨_, rfl⟩, fun _ => trivial⟩⟩
    · rw [List.mem_singleton.mp hc]
      exact ⟨⟨_, rfl⟩, fun _ => trivial⟩
  have hends : (exec LockSections.step (initial rwMutex clients d)
      [0, 1, 0, 1, 0, 1, 0, 1, 0, 1, 0, 1, 0, 0, 0, 0, 0, 0]).toBool = true := by decide +kernel
  obtain ⟨s, hs⟩ := exec_ok_of_toBool hends
  exact ⟨s, hs, (values_untorn hclients hs).1⟩

end Mumu.SharedValues
