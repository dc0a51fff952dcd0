import Mathlib.Algebra.GroupWithZero.Nat
import Mathlib.Data.List.Count
import Mathlib.Logic.Function.Basic
import Mathlib.Tactic.Common

namespace Mumu.Mutexes

/-! ### Kinds of mutexes -/

/-- A kind of mutex, which can be held in some modes. A lock that cannot be
granted yet has no result; a release does not say whose hold it ends. -/
structure MutexType (Mode State : Type) where
  free : State
  lock : Mode → State → Option State
  unlock : State → State
  shared : Mode → Bool

/-- A mutex that one holder has at a time. -/
def exclusive : MutexType Unit Bool where
  free := false
  lock _ s := if s then none else some true
  unlock _ := false
  shared _ := false

inductive RWMode where
  | read | write
  deriving DecidableEq

structure RWState where
  readers : Nat
  writer : Bool
  deriving DecidableEq

/-- A mutex that one writer or any number of readers have at a time. -/
def rwMutex : MutexType RWMode RWState where
  free := ⟨0, false⟩
  lock
    | .read, s => if s.writer then none else some { s with readers := s.readers + 1 }
    | .write, s => if s.writer ∨ s.readers ≠ 0 then none else some { s with writer := true }
  unlock s := if s.writer then { s with writer := false } else { s with readers := s.readers - 1 }
  shared
    | .read => true
    | .write => false

/-! ### Holds -/

/-- How the state of a mutex follows the number of holds in each mode. -/
structure Lawful {Mode State : Type} [DecidableEq Mode] (M : MutexType Mode State) where
  Counts : State → (Mode → Nat) → Prop
  free : Counts M.free (fun _ => 0)
  lock : ∀ {s s' c m}, Counts s c → M.lock m s = some s' →
    Counts s' (Function.update c m (c m + 1))
  unlock : ∀ {s c m}, Counts s c → 0 < c m → Counts (M.unlock s) (Function.update c m (c m - 1))
  alone : ∀ {s c m}, Counts s c → M.shared m = false → 0 < c m →
    c m = 1 ∧ ∀ m', m' ≠ m → c m' = 0

/-- An exclusive mutex is taken while it has its one hold. -/
def exclusive_lawful : Lawful exclusive where
  Counts s c := c () = if s then 1 else 0
  free := rfl
  lock := by
    intro s s' c m hc h
    cases s with
    | true => cases h
    | false =>
      cases h
      simpa using hc
  unlock := by
    intro s c m hc hpos
    cases s with
    | true => simp [exclusive, hc]
    | false => simp [hc] at hpos
  alone := by
    intro s c m hc _ hpos
    cases s with
    | true => exact ⟨hc, fun m' hm => absurd rfl hm⟩
    | false => simp [hc] at hpos

/-- A writer's hold is the only one. -/
def rwMutex_lawful : Lawful rwMutex where
  Counts s c := c .read = s.readers ∧ c .write = (if s.writer then 1 else 0) ∧
    (s.writer → s.readers = 0)
  free := ⟨rfl, rfl, fun h => absurd h (by decide)⟩
  lock := by
    rintro ⟨readers, writer⟩ s' c m ⟨hr, hw, hx⟩ h
    cases writer with
    | true => cases m <;> cases h
    | false =>
      cases m with
      | read =>
        cases h
        exact ⟨by simpa using hr, hw, nofun⟩
      | write =>
        obtain rfl : readers = 0 := by
          by_contra hne
          simp [rwMutex, hne] at h
        cases h
        exact ⟨hr, by simpa using hw, fun _ => rfl⟩
  unlock := by
    rintro ⟨readers, writer⟩ c m ⟨hr, hw, hx⟩ hpos
    cases writer with
    | true =>
      have hnone : readers = 0 := hx rfl
      cases m with
      | read =>
        dsimp only at hr
        omega
      | write => exact ⟨hr, by simp [hw, rwMutex], nofun⟩
    | false =>
      cases m with
      | read => exact ⟨by simp [hr, rwMutex], hw, nofun⟩
      | write => simp [hw] at hpos
  alone := by
    rintro ⟨readers, writer⟩ c m ⟨hr, hw, hx⟩ hm hpos
    cases m with
    | read => cases hm
    | write =>
      cases writer with
      | false => simp [hw] at hpos
      | true =>
        refine ⟨hw, fun m' hm' => ?_⟩
        cases m' with
        | read => exact hr.trans (hx rfl)
        | write => exact absurd rfl hm'

/-! ### Entries of a list -/

variable {α : Type*}

theorem set_same {l : List α} {i : Nat} {a : α} (hi : l[i]? = some a) : l.set i a = l := by
  obtain ⟨hlt, rfl⟩ := List.getElem?_eq_some_iff.mp hi
  exact List.set_getElem_self hlt

theorem mem_set_cases {l : List α} {i : Nat} {a b : α} {j : Nat}
    (h : (l.set i a)[j]? = some b) : (j = i ∧ b = a) ∨ (j ≠ i ∧ l[j]? = some b) := by
  rw [List.getElem?_set] at h
  split at h
  · rename_i hij
    split at h
    · exact .inl ⟨hij.symm, (Option.some.inj h).symm⟩
    · cases h
  · rename_i hij
    exact .inr ⟨Ne.symm hij, h⟩

theorem countP_set_add {p : α → Bool} {l : List α} {i : Nat} {a : α} (hi : l[i]? = some a) (b : α) :
    (l.set i b).countP p + (if p a then 1 else 0) = l.countP p + (if p b then 1 else 0) := by
  induction l generalizing i with
  | nil => cases hi
  | cons c l ih =>
    cases i with
    | zero =>
      obtain rfl := Option.some.inj hi
      rw [List.set_cons_zero, List.countP_cons, List.countP_cons]
      omega
    | succ i =>
      have hrest := ih hi
      rw [List.set_cons_succ, List.countP_cons, List.countP_cons]
      omega

theorem sum_map_set_add (f : α → Nat) {l : List α} {i : Nat} {a : α} (hi : l[i]? = some a) (b : α) :
    ((l.set i b).map f).sum + f a = (l.map f).sum + f b := by
  induction l generalizing i with
  | nil => cases hi
  | cons c l ih =>
    cases i with
    | zero =>
      obtain rfl := Option.some.inj hi
      rw [List.set_cons_zero, List.map_cons, List.map_cons, List.sum_cons, List.sum_cons]
      omega
    | succ i =>
      have hrest := ih hi
      rw [List.set_cons_succ, List.map_cons, List.map_cons, List.sum_cons, List.sum_cons]
      omega

/-- If one entry of a list passes a test, a second one that does is the same. -/
theorem eq_of_countP_le_one {p : α → Bool} {l : List α} (h : l.countP p ≤ 1) {i j : Nat} {a b : α}
    (hi : l[i]? = some a) (hj : l[j]? = some b) (ha : p a) (hb : p b) : i = j := by
  induction l generalizing i j with
  | nil => cases hi
  | cons c l ih =>
    have hpos : ∀ (k : Nat) (d : α), l[k]? = some d → p d → 0 < l.countP p := fun k d hk hd =>
      List.countP_pos_iff.mpr ⟨d, List.mem_of_getElem? hk, hd⟩
    cases i with
    | zero =>
      cases j with
      | zero => rfl
      | succ j =>
        obtain rfl := Option.some.inj hi
        rw [List.countP_cons_of_pos ha] at h
        have := hpos j b hj hb
        omega
    | succ i =>
      cases j with
      | zero =>
        obtain rfl := Option.some.inj hj
        rw [List.countP_cons_of_pos hb] at h
        have := hpos i a hi ha
        omega
      | succ j =>
        rw [List.countP_cons] at h
        rw [ih (by omega) hi hj]

theorem flatMap_set {β : Type*} {f : α → List β} {l : List α} {i : Nat} {a : α}
    (hi : l[i]? = some a) {b : α} (hb : f b = f a) : (l.set i b).flatMap f = l.flatMap f := by
  rw [List.flatMap_def, List.flatMap_def, List.map_set, hb, set_same]
  rw [List.getElem?_map, hi, Option.map_some]

/-- All that the entries of a list give comes from one of them. -/
theorem flatMap_alone {β : Type*} {f : α → List β} {l : List α} {i : Nat} {a : α}
    (hi : l[i]? = some a) (hothers : ∀ j b, j ≠ i → l[j]? = some b → f b = []) :
    l.flatMap f = f a := by
  induction l generalizing i with
  | nil => cases hi
  | cons c l ih =>
    cases i with
    | zero =>
      obtain rfl := Option.some.inj hi
      have hnone : l.flatMap f = [] := List.flatMap_eq_nil_iff.mpr fun b hb => by
        obtain ⟨j, hj⟩ := List.getElem?_of_mem hb
        exact hothers (j + 1) b (Nat.succ_ne_zero j) hj
      rw [List.flatMap_cons, hnone, List.append_nil]
    | succ i =>
      have hc : f c = [] := hothers 0 c (Nat.succ_ne_zero i).symm rfl
      have hrest := ih hi fun j b hj hb => hothers (j + 1) b (fun h => hj (Nat.succ.inj h)) hb
      rw [List.flatMap_cons, hc, hrest, List.nil_append]

end Mumu.Mutexes
