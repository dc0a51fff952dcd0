import Mumu.ConfigVars
import Mumu.LexcalCasts

namespace Mumu.FailedUpdates

open Mumu.LogLevels Mumu.KeyedSets Mumu.ConfigVars Mumu.LexcalCasts

variable {σ ε T : Type}

/-! ### Listeners that throw -/

def callsOf (oldValue newValue : T) (cbs : List (Nat × Listener σ ε T)) : List (Call T) :=
  cbs.map (fun e => ⟨e.1, oldValue, newValue⟩)

/-- The loop over the listeners is left by the exception of one of them, after
those before it have returned. -/
def LeftBy (oldValue newValue : T) (cbs : List (Nat × Listener σ ε T)) (s : σ) (e : ε)
    (called : List (Nat × Listener σ ε T)) : Prop :=
  ∃ before key cb after, cbs = before ++ (key, cb) :: after ∧ called = before ++ [(key, cb)] ∧
    Returns oldValue newValue before s ∧
    (cb oldValue newValue (notify oldValue newValue before s).state).1 = .error e

theorem notify_error {oldValue newValue : T} {cbs : List (Nat × Listener σ ε T)} {s : σ} {e : ε}
    (h : (notify oldValue newValue cbs s).outcome = .error e) :
    ∃ called, LeftBy oldValue newValue cbs s e called ∧
      (notify oldValue newValue cbs s).calls = callsOf oldValue newValue called := by
  induction cbs generalizing s with
  | nil => cases h
  | cons l cbs ih =>
    obtain ⟨key, cb⟩ := l
    cases hcb : cb oldValue newValue s with
    | mk result t =>
      cases result with
      | error e' =>
        simp only [notify, hcb] at h ⊢
        cases h
        refine ⟨[(key, cb)], ⟨[], key, cb, cbs, rfl, rfl, trivial, ?_⟩, rfl⟩
        rw [notify, hcb]
      | ok =>
        simp only [notify, hcb] at h ⊢
        obtain ⟨called, ⟨before, key', cb', after, rfl, rfl, hreturns, hthrows⟩, hcalls⟩ := ih h
        refine ⟨(key, cb) :: (before ++ [(key', cb')]), ?_, by rw [hcalls]; rfl⟩
        refine ⟨(key, cb) :: before, key', cb', after, rfl, rfl, ?_, ?_⟩
        · rw [Returns, hcb]
          exact ⟨rfl, hreturns⟩
        · simp only [notify, hcb]
          exact hthrows

/-! ### setValue -/

theorem setValue_differs [BEq T] {var : ConfigVar σ ε T} {v : T} (h : ¬ (v == var.val) = true)
    (s : σ) :
    (var.setValue v s).1 = notify var.val v var.cbs.toList s ∧
      (Returns var.val v var.cbs.toList s → (var.setValue v s).2 = { var with val := v }) ∧
      (¬ Returns var.val v var.cbs.toList s → (var.setValue v s).2 = var) := by
  rw [ConfigVar.setValue, ConfigVar.setValueRead, if_neg h]
  by_cases hreturns : Returns var.val v var.cbs.toList s
  · simp only [(notify_returns hreturns).1]
    exact ⟨trivial, fun _ => rfl, fun hn => absurd hreturns hn⟩
  · obtain ⟨e, he⟩ := notify_throws hreturns
    simp only [he]
    exact ⟨trivial, fun hr => absurd hr hreturns, fun _ => trivial⟩

theorem setValue_returns_iff [BEq T] (var : ConfigVar σ ε T) (v : T) (s : σ) :
    (var.setValue v s).1.outcome = .ok () ↔
      (v == var.val) = true ∨ Returns var.val v var.cbs.toList s := by
  by_cases h : (v == var.val) = true
  · simp [setValue_same h, h]
  · rw [(setValue_differs h s).1]
    constructor
    · intro hok
      by_contra hreturns
      obtain ⟨e, he⟩ := notify_throws fun hr => hreturns (.inr hr)
      rw [he] at hok
      cases hok
    · exact fun hreturns => (notify_returns (hreturns.resolve_left h)).1

/-- A call that throws leaves the variable as it was, and has told the listeners up
to the one that throws of the new value. A call that returns has stored the value,
and has told all listeners when it was another one. -/
theorem setValue_told [BEq T] (var : ConfigVar σ ε T) (v : T) (s : σ) :
    (∀ e, (var.setValue v s).1.outcome = .error e →
      (var.setValue v s).2 = var ∧ ∃ called, LeftBy var.val v var.cbs.toList s e called ∧
        (var.setValue v s).1.calls = callsOf var.val v called) ∧
    ((var.setValue v s).1.outcome = .ok () →
      if v == var.val then (var.setValue v s).2 = var ∧ (var.setValue v s).1.calls = []
      else (var.setValue v s).2 = { var with val := v } ∧
        (var.setValue v s).1.calls = callsOf var.val v var.cbs.toList) := by
  by_cases h : (v == var.val) = true
  · rw [setValue_same h, if_pos h]
    exact ⟨nofun, fun _ => ⟨rfl, rfl⟩⟩
  · obtain ⟨hnotify, hstored, hkept⟩ := setValue_differs h s
    rw [if_neg h, setValue_returns_iff, hnotify]
    refine ⟨fun e he => ⟨hkept fun hreturns => ?_, notify_error he⟩, fun hok => ?_⟩
    · rw [(notify_returns hreturns).1] at he
      cases he
    · have hreturns := hok.resolve_left h
      exact ⟨hstored hreturns, (notify_returns hreturns).2⟩

/-- The first listener has returned before the second one throws. -/
theorem setValue_half_told :
    let quiet : Listener Unit Unit Nat := fun _ _ s => (.ok (), s)
    let throwing : Listener Unit Unit Nat := fun _ _ s => (.error (), s)
    let var : ConfigVar Unit Unit Nat :=
      ⟨[], [], 0, KeyedSet.insert (KeyedSet.insert .empty (1, quiet)) (2, throwing)⟩
    (var.setValue 1 ()).1.outcome = .error () ∧ (var.setValue 1 ()).2.getValue = 0 ∧
      ⟨1, 0, 1⟩ ∈ (var.setValue 1 ()).1.calls := by
  decide

/-! ### fromString -/

variable (fromStr : Str → Except ε T) (var : ConfigVar σ ε T) (val : Str) (s : σ)

/-- The conversion and the update end without an exception. -/
def Completes [BEq T] : Prop :=
  ∃ v, fromStr val = .ok v ∧ (var.setValue v s).1.outcome = .ok ()

/-- The result says whether the variable has got the value. -/
structure Truthful [BEq T] : Prop where
  reports : (var.fromString fromStr val s).1 = true ↔ Completes fromStr var val s
  stores : (var.fromString fromStr val s).1 = true → ∃ v, fromStr val = .ok v ∧
    ((var.fromString fromStr val s).2.2.2.getValue = v ∨
      (v == (var.fromString fromStr val s).2.2.2.getValue) = true)
  keeps : (var.fromString fromStr val s).1 = false →
    (var.fromString fromStr val s).2.2.2.getValue = var.getValue

theorem fromString_false [BEq T] : (var.fromString fromStr val s).1 = false := by
  rw [ConfigVar.fromString]
  cases fromStr val <;> rfl

theorem fromString_keeps [BEq T] (h : ¬ Completes fromStr var val s) :
    (var.fromString fromStr val s).2.2.2 = var := by
  rw [ConfigVar.fromString]
  cases hv : fromStr val with
  | error e => rfl
  | ok v =>
    have hthrows : ¬ (var.setValue v s).1.outcome = .ok () := fun hok => h ⟨v, hv, hok⟩
    rw [setValue_returns_iff, not_or] at hthrows
    exact (setValue_differs hthrows.1 s).2.2 hthrows.2

/-- The result is true in no case, so it tells the truth about failures only. -/
theorem fromString_truthful_iff [BEq T] : Truthful fromStr var val s ↔
    ∀ v, fromStr val = .ok v →
      ¬ (v == var.val) = true ∧ ¬ Returns var.val v var.cbs.toList s := by
  have hfails : (¬ Completes fromStr var val s) ↔ ∀ v, fromStr val = .ok v →
      ¬ (v == var.val) = true ∧ ¬ Returns var.val v var.cbs.toList s := by
    simp only [Completes, setValue_returns_iff, not_exists, not_and, not_or]
  rw [← hfails]
  constructor
  · intro h hcompletes
    have htrue := h.reports.mpr hcompletes
    rw [fromString_false] at htrue
    cases htrue
  · intro h
    refine ⟨?_, fun htrue => ?_, fun _ => by rw [fromString_keeps fromStr var val s h]⟩
    · rw [fromString_false]
      exact ⟨nofun, fun hcompletes => absurd hcompletes h⟩
    · rw [fromString_false] at htrue
      cases htrue

/-- The number is stored, and the result is false. -/
theorem fromString_untruthful :
    let var : ConfigVar Unit YamlNodes.Exn IntType.int.Val := ⟨[], [], ⟨0, by decide⟩, .empty⟩
    (var.fromString IntType.int.parse "7".toList ()).2.2.2.getValue = ⟨7, by decide⟩ ∧
      ¬ Truthful IntType.int.parse var "7".toList () := by
  refine ⟨rfl, fun h => ?_⟩
  have htrue := h.reports.mpr ⟨⟨7, by decide⟩, rfl, rfl⟩
  cases htrue

end Mumu.FailedUpdates
