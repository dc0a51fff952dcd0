import Mathlib.Data.List.Infix

namespace Mumu.Words

variable {α : Type*}

/-! ### Powers of a word -/

def power (e : List α) (n : Nat) : List α := (List.replicate n e).flatten

theorem power_zero (e : List α) : power e 0 = [] := rfl

theorem power_succ (e : List α) (n : Nat) : power e (n + 1) = e ++ power e n := by
  rw [power, List.replicate_succ, List.flatten_cons, power]

theorem power_append (e : List α) (m n : Nat) : power e m ++ power e n = power e (m + n) := by
  rw [power, power, power, ← List.flatten_append, ← List.replicate_add]

theorem power_succ' (e : List α) (n : Nat) : power e (n + 1) = power e n ++ e := by
  have h := power_append e n 1
  rwa [power_succ e 0, power_zero, List.append_nil, eq_comm] at h

/-! ### Words that do not overlap themselves -/

/-- No word but the empty one and `e` itself both begins and ends `e`. -/
def Unbordered (e : List α) : Prop := ∀ s, s <+: e → s <:+ e → s = [] ∨ s = e

/-- Such a word and its powers commute with its powers only. -/
theorem power_comm_iff {e : List α} (he : Unbordered e) (hne : e ≠ []) (n : Nat) (l : List α) :
    power e (n + 1) ++ l = l ++ power e (n + 1) ↔ ∃ k, l = power e k := by
  constructor
  · intro h
    induction hl : l.length using Nat.strong_induction_on generalizing l with
    | _ m ih =>
      subst hl
      have hfront : e ++ (power e n ++ l) = l ++ power e (n + 1) := by
        rw [← h, power_succ, List.append_assoc]
      obtain ⟨a, hla, hrest⟩ | ⟨c, hec, hrest⟩ := List.append_eq_append_iff.mp hfront
      · have hcomm : power e (n + 1) ++ a = a ++ power e (n + 1) := by
          rw [power_succ' e n, List.append_assoc, ← hla, hrest, power_succ' e n]
        have hlen : a.length < l.length := by
          have hpos := List.length_pos_of_ne_nil hne
          rw [hla, List.length_append]
          omega
        obtain ⟨k, rfl⟩ := ih a.length hlen a hcomm rfl
        exact ⟨k + 1, by rw [hla, power_succ]⟩
      · have hend : l <:+ power e n ++ e := by
          rw [← power_succ' e n, hrest, ← List.append_assoc]
          exact List.suffix_append _ _
        have hlen : l.length ≤ e.length := by
          rw [hec, List.length_append]
          omega
        have hsuffix := List.suffix_of_suffix_length_le hend (List.suffix_append _ e) hlen
        obtain rfl | rfl := he l (hec ▸ List.prefix_append l c) hsuffix
        · exact ⟨0, rfl⟩
        · exact ⟨1, by rw [power_succ, power_zero, List.append_nil]⟩
  · rintro ⟨k, rfl⟩
    rw [power_append, power_append, Nat.add_comm]

end Mumu.Words
