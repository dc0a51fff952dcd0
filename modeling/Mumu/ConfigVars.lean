import Mathlib.Algebra.Group.Nat.Defs
import Mathlib.Data.Nat.Basic
import Mumu.KeyedSets
import Mumu.LogLevels

namespace Mumu.ConfigVars

open Mumu.KeyedSets Mumu.LogLevels

variable {σ ε T : Type}

/-- A callback gets the old and the new value. It may change the state around
the variable, and it may throw. -/
abbrev Listener (σ ε T : Type) := T → T → σ → Except ε Unit × σ

structure Call (T : Type) where
  key : Nat
  oldValue : T
  newValue : T
  deriving DecidableEq

/-- A configuration variable; the callbacks are called in the order of their keys. -/
structure ConfigVar (σ ε T : Type) where
  name : Str
  description : Str
  val : T
  cbs : KeyedMap Nat (Listener σ ε T)

structure Notified (σ ε T : Type) where
  outcome : Except ε Unit
  calls : List (Call T)
  state : σ

/-- The loop over the callbacks, which an exception leaves at once. -/
def notify (oldValue newValue : T) : List (Nat × Listener σ ε T) → σ → Notified σ ε T
  | [], s => ⟨.ok (), [], s⟩
  | (key, cb) :: cbs, s =>
    match cb oldValue newValue s with
    | (.error e, s) => ⟨.error e, [⟨key, oldValue, newValue⟩], s⟩
    | (.ok (), s) =>
      let r := notify oldValue newValue cbs s
      { r with calls := ⟨key, oldValue, newValue⟩ :: r.calls }

namespace ConfigVar

/-- The section of `setValue` under the read lock; it ends the call when the
value is the stored one. -/
def setValueRead [BEq T] (var : ConfigVar σ ε T) (v : T) (s : σ) : Option (Notified σ ε T) :=
  if v == var.val then none else some (notify var.val v var.cbs.toList s)

/-- The section of `setValue` under the write lock. -/
def setValueWrite (var : ConfigVar σ ε T) (v : T) : ConfigVar σ ε T := { var with val := v }

def setValue [BEq T] (var : ConfigVar σ ε T) (v : T) (s : σ) : Notified σ ε T × ConfigVar σ ε T :=
  match var.setValueRead v s with
  | none => (⟨.ok (), [], s⟩, var)
  | some r =>
    match r.outcome with
    | .error _ => (r, var)
    | .ok () => (r, var.setValueWrite v)

def getValue (var : ConfigVar σ ε T) : T := var.val

/-- An exception of the conversion is logged, and the text is empty. -/
def toString (toStr : T → Except ε Str) (var : ConfigVar σ ε T) : Str :=
  match toStr var.val with
  | .ok text => text
  | .error _ => []

/-- The conversion and the update run in one guarded block, whose exceptions
are logged and dropped; the result is the same on every path. -/
def fromString [BEq T] (fromStr : Str → Except ε T) (var : ConfigVar σ ε T) (val : Str) (s : σ) :
    Bool × List (Call T) × σ × ConfigVar σ ε T :=
  match fromStr val with
  | .error _ => (false, [], s, var)
  | .ok v =>
    let (r, var) := var.setValue v s
    (false, r.calls, r.state, var)

/-- The identifier comes from a counter that all variables of one type share. -/
def addListener (var : ConfigVar σ ε T) (cb : Listener σ ε T) (sFunId : Nat) :
    Nat × ConfigVar σ ε T :=
  let sFunId := (sFunId + 1) % 2 ^ 64
  (sFunId, { var with cbs := KeyedMap.set var.cbs sFunId cb })

def delListener (var : ConfigVar σ ε T) (key : Nat) : ConfigVar σ ε T :=
  { var with cbs := var.cbs.erase key }

def getListener (var : ConfigVar σ ε T) (key : Nat) : Option (Listener σ ε T) :=
  KeyedMap.get? var.cbs key

def clearListener (var : ConfigVar σ ε T) : ConfigVar σ ε T :=
  { var with cbs := .empty }

end ConfigVar

/-! ### Listeners that do not throw -/

/-- The listeners, called in turn, all return. -/
def Returns (oldValue newValue : T) : List (Nat × Listener σ ε T) → σ → Prop
  | [], _ => True
  | (_, cb) :: cbs, s =>
    (cb oldValue newValue s).1 = .ok () ∧
      Returns oldValue newValue cbs (cb oldValue newValue s).2

def Quiet (cb : Listener σ ε T) : Prop := ∀ a b s, (cb a b s).1 = .ok ()

theorem Returns.of_quiet (oldValue newValue : T) {cbs : List (Nat × Listener σ ε T)}
    (hcbs : ∀ e ∈ cbs, Quiet e.2) (s : σ) : Returns oldValue newValue cbs s := by
  induction cbs generalizing s with
  | nil => trivial
  | cons e cbs ih =>
    exact ⟨hcbs e (by simp) oldValue newValue s, ih (fun e he => hcbs e (by simp [he])) _⟩

theorem notify_returns {oldValue newValue : T} {cbs : List (Nat × Listener σ ε T)} {s : σ}
    (h : Returns oldValue newValue cbs s) :
    (notify oldValue newValue cbs s).outcome = .ok () ∧
      (notify oldValue newValue cbs s).calls =
        cbs.map (fun e => ⟨e.1, oldValue, newValue⟩) := by
  induction cbs generalizing s with
  | nil => exact ⟨rfl, rfl⟩
  | cons e cbs ih =>
    obtain ⟨key, cb⟩ := e
    obtain ⟨hcb, hrest⟩ := h
    obtain ⟨hout, hcalls⟩ := ih hrest
    rw [notify]
    split
    · rename_i heq
      simp [heq] at hcb
    · rename_i heq
      simp only [heq] at hout hcalls
      exact ⟨hout, by simp [hcalls]⟩

/-- An exception reaches the caller. -/
theorem notify_throws {oldValue newValue : T} {cbs : List (Nat × Listener σ ε T)} {s : σ}
    (h : ¬ Returns oldValue newValue cbs s) :
    ∃ e, (notify oldValue newValue cbs s).outcome = .error e := by
  induction cbs generalizing s with
  | nil => exact absurd trivial h
  | cons e cbs ih =>
    obtain ⟨key, cb⟩ := e
    rw [notify]
    split
    · exact ⟨_, rfl⟩
    · rename_i heq
      exact ih fun hrest => h ⟨by rw [heq], by rw [heq]; exact hrest⟩

/-- The first listener is always called, the others at most. -/
theorem notify_cons_calls (oldValue newValue : T) (e : Nat × Listener σ ε T)
    (cbs : List (Nat × Listener σ ε T)) (s : σ) :
    ∃ calls, (notify oldValue newValue (e :: cbs) s).calls = ⟨e.1, oldValue, newValue⟩ :: calls ∧
      ∀ c ∈ calls, ∃ e' ∈ cbs, c.key = e'.1 := by
  induction cbs generalizing e s with
  | nil =>
    rw [notify]
    split
    · exact ⟨[], rfl, by simp⟩
    · exact ⟨[], rfl, by simp⟩
  | cons e' cbs ih =>
    rw [notify]
    split
    · exact ⟨[], rfl, by simp⟩
    · rename_i s' heq
      obtain ⟨calls, hcalls, hmem⟩ := ih e' s'
      refine ⟨_, rfl, fun c hc => ?_⟩
      rw [hcalls] at hc
      obtain rfl | hc := List.mem_cons.mp hc
      · exact ⟨e', by simp, rfl⟩
      · obtain ⟨e'', he'', hkey⟩ := hmem c hc
        exact ⟨e'', by simp [he''], hkey⟩

/-! ### What one listener is told -/

def told (key : Nat) (calls : List (Call T)) : List (T × T) :=
  (calls.filter (fun c => c.key = key)).map fun c => (c.oldValue, c.newValue)

theorem told_append (key : Nat) (calls calls' : List (Call T)) :
    told key (calls ++ calls') = told key calls ++ told key calls' := by
  simp [told]

theorem told_eq_nil {key : Nat} {calls : List (Call T)} (h : ∀ c ∈ calls, c.key ≠ key) :
    told key calls = [] := by
  have hfilter : calls.filter (fun c => c.key = key) = [] :=
    List.filter_eq_nil_iff.mpr fun c hc => by simpa using h c hc
  rw [told, hfilter, List.map_nil]

theorem told_notified (cbs : KeyedMap Nat (Listener σ ε T)) (oldValue newValue : T) (key : Nat) :
    told key (cbs.toList.map (fun e => ⟨e.1, oldValue, newValue⟩)) =
      if (KeyedMap.get? cbs key).isSome then [(oldValue, newValue)] else [] := by
  rw [told, List.filter_map, List.map_map]
  change (cbs.toList.filter (fun e => e.1 = key)).map (fun _ => (oldValue, newValue)) = _
  rw [KeyedSet.filter_key]
  have hreg : (KeyedMap.get? cbs key).isSome = (cbs.find? key).isSome := by
    rw [KeyedMap.get?, Option.isSome_map]
  cases hfind : cbs.find? key <;> simp [hreg, hfind]

theorem told_notified_of_mem {cbs : KeyedMap Nat (Listener σ ε T)} {e : Nat × Listener σ ε T}
    (he : e ∈ cbs) (oldValue newValue : T) :
    told e.1 (cbs.toList.map (fun e => ⟨e.1, oldValue, newValue⟩)) = [(oldValue, newValue)] := by
  rw [told_notified, KeyedMap.get?_eq_some.mpr he]
  rfl

/-! ### Calls that return -/

theorem setValue_same [BEq T] {var : ConfigVar σ ε T} {v : T} (h : (v == var.val) = true) (s : σ) :
    var.setValue v s = (⟨.ok (), [], s⟩, var) := by
  rw [ConfigVar.setValue, ConfigVar.setValueRead, if_pos h]

/-- What a call of `setValue` does when no callback throws. -/
theorem setValue_quiet [BEq T] (var : ConfigVar σ ε T) (hcbs : ∀ e ∈ var.cbs, Quiet e.2) (v : T)
    (s : σ) :
    if v == var.val then var.setValue v s = (⟨.ok (), [], s⟩, var)
    else
      (var.setValue v s).2 = { var with val := v } ∧
        (var.setValue v s).1.outcome = .ok () ∧
        (var.setValue v s).1.calls =
          var.cbs.toList.map (fun e => ⟨e.1, var.val, v⟩) := by
  obtain ⟨hout, hcalls⟩ := notify_returns (Returns.of_quiet var.val v hcbs s)
  split
  · rename_i hv
    exact setValue_same hv s
  · rename_i hv
    simp [ConfigVar.setValue, ConfigVar.setValueRead, ConfigVar.setValueWrite, hv, hout, hcalls]

end Mumu.ConfigVars
