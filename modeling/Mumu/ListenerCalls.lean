import Mumu.ConfigVars
import Mumu.Executions

namespace Mumu.ListenerCalls

open Mumu.LogLevels Mumu.KeyedSets Mumu.Executions Mumu.ConfigVars

variable {σ ε T : Type}

/-- A list of changes that leads from one value to another. -/
def Chained : T → List (T × T) → T → Prop
  | v, [], w => v = w
  | v, (a, b) :: cs, w => a = v ∧ a ≠ b ∧ Chained b cs w

theorem Chained.append {u v w : T} {cs ds : List (T × T)} (h : Chained u cs v)
    (h' : Chained v ds w) : Chained u (cs ++ ds) w := by
  induction cs generalizing u with
  | nil =>
    obtain rfl : u = v := h
    exact h'
  | cons c cs ih => exact ⟨h.1, h.2.1, ih h.2.2⟩

/-- A variable, the counter it shares with the others of its type, and the
calls of its listeners so far. -/
structure State (σ ε T : Type) where
  var : ConfigVar σ ε T
  sFunId : Nat
  surroundings : σ
  calls : List (Call T)

namespace State

def Registered (key : Nat) (s : State σ ε T) : Prop := (s.var.getListener key).isSome

instance (key : Nat) (s : State σ ε T) : Decidable (s.Registered key) :=
  inferInstanceAs (Decidable (_ = true))

end State

inductive Op (σ ε T : Type) where
  | setValue (v : T)
  | getValue
  | addListener (cb : Listener σ ε T)
  | delListener (key : Nat)
  | clearListener
  | addElsewhere

namespace Op

def registers : Op σ ε T → Bool
  | addListener _ => true
  | addElsewhere => true
  | _ => false

def Removes (key : Nat) : Op σ ε T → Prop
  | delListener k => k = key
  | clearListener => True
  | _ => False

def Quiet : Op σ ε T → Prop
  | addListener cb => ConfigVars.Quiet cb
  | _ => True

end Op

def registrations (ops : List (Op σ ε T)) : Nat := ops.countP Op.registers

theorem registered_iff {key : Nat} {s : State σ ε T} :
    s.Registered key ↔ ∃ e ∈ s.var.cbs, e.1 = key := by
  constructor
  · intro h
    obtain ⟨cb, hcb⟩ := Option.isSome_iff_exists.mp h
    exact ⟨(key, cb), KeyedMap.get?_eq_some.mp hcb, rfl⟩
  · rintro ⟨e, he, rfl⟩
    exact Option.isSome_iff_exists.mpr ⟨e.2, KeyedMap.get?_eq_some.mpr he⟩

/-- The keys in use come from the counter, and no listener throws. -/
structure Sane (s : State σ ε T) : Prop where
  keys : ∀ e ∈ s.var.cbs, e.1 ≤ s.sFunId
  quiet : ∀ e ∈ s.var.cbs, ConfigVars.Quiet e.2
  calls : ∀ c ∈ s.calls, c.key ≤ s.sFunId

theorem registered_le {s : State σ ε T} (hs : Sane s) {key : Nat} (h : s.Registered key) :
    key ≤ s.sFunId := by
  obtain ⟨e, he, rfl⟩ := registered_iff.mp h
  exact hs.keys e he

theorem registrations_cons (op : Op σ ε T) (ops : List (Op σ ε T)) :
    registrations (op :: ops) = registrations [op] + registrations ops := by
  simp [registrations, List.countP_cons, Nat.add_comm]

variable [DecidableEq T]

def step (s : State σ ε T) : Op σ ε T → Except ε (State σ ε T)
  | .setValue v =>
    let (r, var) := s.var.setValue v s.surroundings
    match r.outcome with
    | .error e => .error e
    | .ok () => .ok { s with var := var, surroundings := r.state, calls := s.calls ++ r.calls }
  | .getValue => .ok s
  | .addListener cb =>
    let (key, var) := s.var.addListener cb s.sFunId
    .ok { s with var := var, sFunId := key }
  | .delListener key => .ok { s with var := s.var.delListener key }
  | .clearListener => .ok { s with var := s.var.clearListener }
  | .addElsewhere => .ok { s with sFunId := (s.sFunId + 1) % 2 ^ 64 }

def change (s t : State σ ε T) : List (T × T) :=
  if t.var.getValue = s.var.getValue then [] else [(s.var.getValue, t.var.getValue)]

/-- The changes of the stored value in the course of a run. -/
def changes (s : State σ ε T) : List (Op σ ε T) → List (T × T)
  | [] => []
  | op :: ops =>
    match step s op with
    | .error _ => []
    | .ok t => change s t ++ changes t ops

theorem change_chained (s t : State σ ε T) :
    Chained s.var.getValue (change s t) t.var.getValue := by
  rw [change]
  split
  · rename_i h
    exact h.symm
  · rename_i h
    exact ⟨rfl, Ne.symm h, rfl⟩

/-! ### One step -/

/-- What a step does to a listener that was registered under some key before. -/
structure Steps (op : Op σ ε T) (s t : State σ ε T) : Prop where
  sane : Sane t
  counter : t.sFunId = s.sFunId + registrations [op]
  told : ∀ key, told key t.calls =
    told key s.calls ++ if s.Registered key then change s t else []
  registered : ∀ key ≤ s.sFunId, t.Registered key ↔ s.Registered key ∧ ¬ op.Removes key

theorem told_self {s t : State σ ε T} (hcalls : t.calls = s.calls)
    (hval : t.var.getValue = s.var.getValue) (key : Nat) :
    told key t.calls = told key s.calls ++ if s.Registered key then change s t else [] := by
  rw [change, if_pos hval, hcalls, ite_self, List.append_nil]

theorem setValue_steps {s : State σ ε T} (hs : Sane s) (v : T) :
    ∃ t, step s (.setValue v) = .ok t ∧ Steps (.setValue v) s t := by
  have hset := setValue_quiet s.var hs.quiet v s.surroundings
  rw [step]
  dsimp only
  split at hset
  · rw [hset]
    refine ⟨_, rfl, ⟨hs.keys, hs.quiet, ?_⟩, rfl, ?_, fun key _ => (and_iff_left id).symm⟩
    · simpa using hs.calls
    · exact told_self (List.append_nil _) rfl
  · rename_i hne
    obtain ⟨hvar, hout, hcalls⟩ := hset
    generalize s.var.setValue v s.surroundings = r at hvar hout hcalls
    obtain ⟨⟨outcome, calls, state⟩, var⟩ := r
    dsimp only at hvar hout hcalls ⊢
    subst hvar hout hcalls
    refine ⟨_, rfl, ⟨hs.keys, hs.quiet, fun c hc => ?_⟩, rfl, fun key => ?_,
      fun key _ => (and_iff_left id).symm⟩
    · obtain hc | hc := List.mem_append.mp hc
      · exact hs.calls c hc
      · obtain ⟨e, he, rfl⟩ := List.mem_map.mp hc
        exact hs.keys e he
    · have hv : v ≠ s.var.val := fun h => hne (beq_iff_eq.mpr h)
      rw [told_append, told_notified]
      exact congrArg (_ ++ ·) (if_congr Iff.rfl (if_neg hv).symm rfl)

theorem addListener_steps {s : State σ ε T} (hs : Sane s) (cb : Listener σ ε T)
    (hcb : ConfigVars.Quiet cb) (hcount : s.sFunId + 1 < 2 ^ 64) :
    ∃ t, step s (.addListener cb) = .ok t ∧ Steps (.addListener cb) s t ∧
      t.Registered (s.sFunId + 1) := by
  have hmem : ∀ e, e ∈ KeyedMap.set s.var.cbs (s.sFunId + 1) cb ↔
      e = (s.sFunId + 1, cb) ∨ (e ∈ s.var.cbs ∧ e.1 ≠ s.sFunId + 1) := fun e => KeyedMap.mem_set
  unfold step ConfigVar.addListener
  rw [Nat.mod_eq_of_lt hcount]
  refine ⟨_, rfl, ⟨⟨fun e he => ?_, fun e he => ?_, fun c hc => Nat.le_succ_of_le (hs.calls c hc)⟩,
    rfl, told_self rfl rfl, fun key hkey => ?_⟩, ?_⟩
  · obtain rfl | ⟨he, _⟩ := (hmem e).mp he
    · exact Nat.le_refl _
    · exact Nat.le_succ_of_le (hs.keys e he)
  · obtain rfl | ⟨he, _⟩ := (hmem e).mp he
    · exact hcb
    · exact hs.quiet e he
  · rw [registered_iff, registered_iff]
    constructor
    · rintro ⟨e, he, rfl⟩
      obtain rfl | ⟨he, _⟩ := (hmem e).mp he
      · exact absurd hkey (Nat.not_succ_le_self _)
      · exact ⟨⟨e, he, rfl⟩, id⟩
    · rintro ⟨⟨e, he, rfl⟩, _⟩
      exact ⟨e, (hmem e).mpr (.inr ⟨he, Nat.ne_of_lt (Nat.lt_succ_of_le hkey)⟩), rfl⟩
  · exact registered_iff.mpr ⟨_, (hmem _).mpr (.inl rfl), rfl⟩

/-- A step that takes listeners away. -/
theorem removal_steps {s t : State σ ε T} {op : Op σ ε T} (hs : Sane s)
    (hop : op.registers = false) (hcbs : ∀ e, e ∈ t.var.cbs ↔ e ∈ s.var.cbs ∧ ¬ op.Removes e.1)
    (hval : t.var.getValue = s.var.getValue) (hcounter : t.sFunId = s.sFunId)
    (hcalls : t.calls = s.calls) : Steps op s t := by
  refine ⟨⟨fun e he => ?_, fun e he => hs.quiet e ((hcbs e).mp he).1, ?_⟩, ?_,
    told_self hcalls hval, fun key _ => ?_⟩
  · rw [hcounter]
    exact hs.keys e ((hcbs e).mp he).1
  · rw [hcalls, hcounter]
    exact hs.calls
  · simp [hcounter, registrations, hop]
  · rw [registered_iff, registered_iff]
    constructor
    · rintro ⟨e, he, rfl⟩
      obtain ⟨he, hkeep⟩ := (hcbs e).mp he
      exact ⟨⟨e, he, rfl⟩, hkeep⟩
    · rintro ⟨⟨e, he, rfl⟩, hkeep⟩
      exact ⟨e, (hcbs e).mpr ⟨he, hkeep⟩, rfl⟩

theorem step_steps {s : State σ ε T} (hs : Sane s) {op : Op σ ε T} (hop : op.Quiet)
    (hcount : s.sFunId + registrations [op] < 2 ^ 64) :
    ∃ t, step s op = .ok t ∧ Steps op s t := by
  cases op with
  | setValue v => exact setValue_steps hs v
  | getValue => exact ⟨s, rfl, removal_steps hs rfl (by simp [Op.Removes]) rfl rfl rfl⟩
  | addListener cb =>
    obtain ⟨t, ht, hsteps, _⟩ := addListener_steps hs cb hop hcount
    exact ⟨t, ht, hsteps⟩
  | delListener key =>
    refine ⟨_, rfl, removal_steps hs rfl (fun e => ?_) rfl rfl rfl⟩
    exact KeyedSet.mem_erase.trans (and_congr_right fun _ => not_congr eq_comm)
  | clearListener =>
    exact ⟨_, rfl, removal_steps hs rfl (fun e => by
      simp [Op.Removes, ConfigVar.clearListener]) rfl rfl rfl⟩
  | addElsewhere =>
    have hcount : s.sFunId + 1 < 2 ^ 64 := hcount
    refine ⟨_, rfl, ⟨fun e he => ?_, hs.quiet, fun c hc => ?_⟩, Nat.mod_eq_of_lt hcount,
      told_self rfl rfl, fun key _ => (and_iff_left id).symm⟩
    · simpa only [Nat.mod_eq_of_lt hcount] using Nat.le_succ_of_le (hs.keys e he)
    · simpa only [Nat.mod_eq_of_lt hcount] using Nat.le_succ_of_le (hs.calls c hc)

/-! ### Runs -/

/-- What a run does to the listeners registered before it. -/
structure Runs (ops : List (Op σ ε T)) (s t : State σ ε T) : Prop where
  sane : Sane t
  counter : t.sFunId = s.sFunId + registrations ops
  chained : Chained s.var.getValue (changes s ops) t.var.getValue
  kept : ∀ key, s.Registered key → (∀ op ∈ ops, ¬ op.Removes key) →
    t.Registered key ∧ told key t.calls = told key s.calls ++ changes s ops
  gone : ∀ key ≤ s.sFunId, ¬ s.Registered key → told key t.calls = told key s.calls

theorem exec_runs (ops : List (Op σ ε T)) {s : State σ ε T} (hs : Sane s)
    (hops : ∀ op ∈ ops, op.Quiet) (hcount : s.sFunId + registrations ops < 2 ^ 64) :
    ∃ t, exec step s ops = .ok t ∧ Runs ops s t := by
  induction ops generalizing s with
  | nil => exact ⟨s, rfl, hs, rfl, rfl, fun key h _ => ⟨h, (List.append_nil _).symm⟩, fun _ _ _ => rfl⟩
  | cons op ops ih =>
    rw [registrations_cons op ops, ← Nat.add_assoc] at hcount
    obtain ⟨u, hu, hstep⟩ := step_steps hs (hops op (by simp)) (Nat.lt_of_add_right_lt hcount)
    rw [← hstep.counter] at hcount
    obtain ⟨t, ht, hrun⟩ := ih hstep.sane (fun op h => hops op (by simp [h])) hcount
    have hchanges : changes s (op :: ops) = change s u ++ changes u ops := by rw [changes, hu]
    refine ⟨t, exec_cons_ok hu ht, hrun.sane, ?_, ?_, fun key hkey hkeep => ?_, fun key hle hkey => ?_⟩
    · rw [hrun.counter, hstep.counter, registrations_cons op ops, Nat.add_assoc]
    · rw [hchanges]
      exact (change_chained s u).append hrun.chained
    · have hreg := (hstep.registered key (registered_le hs hkey)).mpr ⟨hkey, hkeep op (by simp)⟩
      obtain ⟨ht, hcalls⟩ := hrun.kept key hreg fun op h => hkeep op (by simp [h])
      exact ⟨ht, by rw [hcalls, hstep.told key, if_pos hkey, hchanges, List.append_assoc]⟩
    · have hreg : ¬ u.Registered key := fun h => hkey ((hstep.registered key hle).mp h).1
      have hle' : key ≤ u.sFunId := hstep.counter ▸ Nat.le_add_right_of_le hle
      rw [hrun.gone key hle' hreg, hstep.told key, if_neg hkey, List.append_nil]

/-- A removal ends the calls of a listener for good. -/
theorem exec_removed (ops : List (Op σ ε T)) {s : State σ ε T} (hs : Sane s)
    (hops : ∀ op ∈ ops, op.Quiet) (hcount : s.sFunId + registrations ops < 2 ^ 64) {key : Nat}
    (hle : key ≤ s.sFunId) (hremoved : ∀ op ∈ ops.head?, op.Removes key) :
    ∃ t, exec step s ops = .ok t ∧ told key t.calls = told key s.calls := by
  cases ops with
  | nil => exact ⟨s, rfl, rfl⟩
  | cons op ops =>
    rw [registrations_cons op ops, ← Nat.add_assoc] at hcount
    obtain ⟨u, hu, hstep⟩ := step_steps hs (hops op (by simp)) (Nat.lt_of_add_right_lt hcount)
    rw [← hstep.counter] at hcount
    obtain ⟨t, ht, hrun⟩ := exec_runs ops hstep.sane (fun op h => hops op (by simp [h])) hcount
    have hop := hremoved op rfl
    have hreg : ¬ u.Registered key := fun h => ((hstep.registered key hle).mp h).2 hop
    have hsame : change s u = [] := by
      cases op with
      | delListener k =>
        cases hu
        exact if_pos rfl
      | clearListener =>
        cases hu
        exact if_pos rfl
      | _ => exact absurd hop id
    have hle' : key ≤ u.sFunId := hstep.counter ▸ Nat.le_add_right_of_le hle
    refine ⟨t, exec_cons_ok hu ht, ?_⟩
    rw [hrun.gone key hle' hreg, hstep.told key, hsame, ite_self, List.append_nil]

/-- A variable as it is constructed, with no listeners. -/
def State.start (name description : Str) (val : T) (sFunId : Nat) (surroundings : σ) :
    State σ ε T :=
  ⟨⟨name, description, val, .empty⟩, sFunId, surroundings, []⟩

/-- Between its registration and its removal a listener is told of every change
of the stored value once, in order, and of nothing else. -/
theorem listener_told_changes (name description : Str) (val : T) (sFunId : Nat) (surroundings : σ)
    (before during after : List (Op σ ε T)) (cb : Listener σ ε T)
    (hquiet : ∀ op ∈ before ++ .addListener cb :: during ++ after, op.Quiet)
    (hcount : sFunId + registrations (before ++ .addListener cb :: during ++ after) < 2 ^ 64)
    (hduring : ∀ op ∈ during, ¬ op.Removes (sFunId + registrations before + 1))
    (hafter : ∀ op ∈ after.head?, op.Removes (sFunId + registrations before + 1)) :
    ∃ s t u,
      exec step (.start name description val sFunId surroundings) before = .ok s ∧
      exec step s (.addListener cb :: during) = .ok t ∧ exec step t after = .ok u ∧
      (s.var.addListener cb s.sFunId).1 = sFunId + registrations before + 1 ∧
      told (sFunId + registrations before + 1) s.calls = [] ∧
      told (sFunId + registrations before + 1) t.calls = changes s (.addListener cb :: during) ∧
      told (sFunId + registrations before + 1) u.calls = changes s (.addListener cb :: during) ∧
      Chained s.var.getValue (changes s (.addListener cb :: during)) t.var.getValue := by
  have hsplit : registrations (before ++ .addListener cb :: during ++ after) =
      registrations before + 1 + registrations during + registrations after := by
    simp [registrations, Op.registers, List.countP_cons]
    omega
  rw [hsplit] at hcount
  obtain ⟨s, hs, hbefore⟩ := exec_runs before
    (s := .start name description val sFunId surroundings)
    ⟨fun e he => absurd he (KeyedSet.not_mem_empty e), fun e he =>
      absurd he (KeyedSet.not_mem_empty e), fun c hc => absurd hc List.not_mem_nil⟩
    (fun op h => hquiet op (by simp [h])) (Nat.lt_of_le_of_lt (by
      change sFunId + registrations before ≤ _
      omega) hcount)
  have hkey : s.sFunId = sFunId + registrations before := hbefore.counter
  rw [← hkey] at hduring hafter ⊢
  obtain ⟨r, hr, hadd, hreg⟩ := addListener_steps hbefore.sane cb
    (hquiet (.addListener cb) (by simp)) (by omega)
  have hcounter : r.sFunId = s.sFunId + 1 := hadd.counter
  obtain ⟨t, ht, hrun⟩ := exec_runs during hadd.sane
    (fun op h => hquiet op (by simp [h])) (by omega)
  obtain ⟨u, hu, hgone⟩ := exec_removed after hrun.sane
    (fun op h => hquiet op (by simp [h])) (by rw [hrun.counter]; omega)
    (by rw [hrun.counter]; omega) hafter
  have hnone : told (s.sFunId + 1) s.calls = [] :=
    told_eq_nil fun c hc => Nat.ne_of_lt (Nat.lt_succ_of_le (hbefore.sane.calls c hc))
  have hfresh : ¬ s.Registered (s.sFunId + 1) := fun h =>
    absurd (registered_le hbefore.sane h) (Nat.not_succ_le_self _)
  have hchanges : changes s (.addListener cb :: during) = changes r during := by
    have hval : r.var.getValue = s.var.getValue := by
      cases hr
      rfl
    rw [changes, hr]
    simp [change, hval]
  have htold : told (s.sFunId + 1) t.calls = changes s (.addListener cb :: during) := by
    rw [(hrun.kept _ hreg hduring).2, hadd.told, if_neg hfresh, hnone, hchanges]
    rfl
  refine ⟨s, t, u, hs, exec_cons_ok hr ht, hu, ?_, hnone, htold, hgone.trans htold, ?_⟩
  · exact Nat.mod_eq_of_lt (by omega)
  · have hval : r.var.getValue = s.var.getValue := by
      cases hr
      rfl
    rw [hchanges, ← hval]
    exact hrun.chained

/-- A listener added after the first of four calls, one of which changes nothing. -/
theorem listener_told_changes_twice :
    ∃ s t u : State Unit Empty Nat,
      exec step (.start [] [] 0 0 ()) [.setValue 1] = .ok s ∧
      exec step s [.addListener (fun _ _ x => (.ok (), x)), .setValue 2, .setValue 2, .setValue 3] =
        .ok t ∧
      exec step t [.delListener 1, .setValue 4] = .ok u ∧ told 1 u.calls = [(1, 2), (2, 3)] := by
  obtain ⟨s, t, u, hs, ht, hu, _, _, _, hcalls, _⟩ := listener_told_changes (σ := Unit) (ε := Empty)
    [] [] 0 0 () [.setValue 1] [.setValue 2, .setValue 2, .setValue 3] [.delListener 1, .setValue 4]
    (fun _ _ x => (.ok (), x)) (by simp [Op.Quiet, ConfigVars.Quiet]) (by decide)
    (by simp [Op.Removes]) (by simp [Op.Removes, registrations, Op.registers])
  refine ⟨s, t, u, hs, ht, hu, hcalls.trans ?_⟩
  cases hs
  rfl

end Mumu.ListenerCalls
