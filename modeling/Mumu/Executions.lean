import Mathlib.Data.List.Basic
import Mathlib.Data.List.Infix

namespace Mumu.Executions

variable {S A ε : Type*}

/-- Run a fallible step function over a list of actions. -/
def exec (step : S → A → Except ε S) (s : S) : List A → Except ε S
  | [] => .ok s
  | a :: as =>
    match step s a with
    | .error e => .error e
    | .ok t => exec step t as

variable {step : S → A → Except ε S}

theorem exec_cons_ok {s t u : S} {a : A} {as : List A} (h : step s a = .ok t)
    (hu : exec step t as = .ok u) : exec step s (a :: as) = .ok u := by
  rw [exec, h]
  exact hu

/-- A run that is checked to end. -/
theorem exec_ok_of_toBool {s : S} {as : List A} (h : (exec step s as).toBool = true) :
    ∃ t, exec step s as = .ok t := by
  cases ht : exec step s as with
  | ok t => exact ⟨t, rfl⟩
  | error e =>
    rw [ht] at h
    cases h

theorem exec_append_ok {as bs : List A} {s t u : S} (h : exec step s as = .ok t)
    (hu : exec step t bs = .ok u) : exec step s (as ++ bs) = .ok u := by
  induction as generalizing s with
  | nil =>
    cases h
    exact hu
  | cons a as ih =>
    rw [exec] at h
    cases ha : step s a with
    | error e => simp [ha] at h
    | ok v =>
      rw [ha] at h
      exact exec_cons_ok ha (ih h)

/-- An invariant of each step is one of each run. -/
theorem exec_invariant {I : S → Prop} {P : A → Prop}
    (hstep : ∀ s a t, P a → I s → step s a = .ok t → I t) (as : List A) (hP : ∀ a ∈ as, P a)
    {s t : S} (hs : I s) (h : exec step s as = .ok t) : I t := by
  induction as generalizing s with
  | nil =>
    cases h
    exact hs
  | cons a as ih =>
    rw [exec] at h
    cases ha : step s a with
    | error e => simp [ha] at h
    | ok u =>
      rw [ha] at h
      exact ih (fun b hb => hP b (by simp [hb])) (hstep s a u (hP a (by simp)) hs ha) h

/-- Where each step succeeds and keeps an invariant that may mention the
actions done so far, so does each run. -/
theorem exec_total {I : List A → S → Prop}
    (hstep : ∀ done s a, I done s → ∃ t, step s a = .ok t ∧ I (done ++ [a]) t) (as : List A)
    {s : S} (hs : I [] s) : ∃ t, exec step s as = .ok t ∧ I as t := by
  have hgen : ∀ (as done : List A) (s : S), I done s →
      ∃ t, exec step s as = .ok t ∧ I (done ++ as) t := by
    intro as
    induction as with
    | nil => exact fun done s hs => ⟨s, rfl, by simpa using hs⟩
    | cons a as ih =>
      intro done s hs
      obtain ⟨u, ha, hu⟩ := hstep done s a hs
      obtain ⟨t, ht, hI⟩ := ih (done ++ [a]) u hu
      exact ⟨t, exec_cons_ok ha ht, by simpa using hI⟩
  simpa using hgen as [] s hs

/-- The same along the prefixes of one list of actions. -/
theorem exec_total_along {I : List A → S → Prop} (as : List A)
    (hstep : ∀ done s a, done ++ [a] <+: as → I done s →
      ∃ t, step s a = .ok t ∧ I (done ++ [a]) t)
    {s : S} (hs : I [] s) : ∃ t, exec step s as = .ok t ∧ I as t := by
  have hgen : ∀ (rest done : List A) (s : S), done ++ rest = as → I done s →
      ∃ t, exec step s rest = .ok t ∧ I as t := by
    intro rest
    induction rest with
    | nil =>
      intro done s hsplit hs
      rw [List.append_nil] at hsplit
      exact ⟨s, rfl, hsplit ▸ hs⟩
    | cons a rest ih =>
      intro done s hsplit hs
      have hassoc : (done ++ [a]) ++ rest = as := by rw [← hsplit, List.append_assoc]; rfl
      obtain ⟨u, ha, hu⟩ := hstep done s a ⟨rest, hassoc⟩ hs
      obtain ⟨t, ht, hI⟩ := ih (done ++ [a]) u hassoc hu
      exact ⟨t, exec_cons_ok ha ht, hI⟩
  exact hgen as [] s rfl hs

/-- Where a step that keeps the invariant and makes a measure smaller is there until
the end is reached, a run reaches the end. -/
theorem exec_finishes {I D : S → Prop} (left : S → Nat)
    (hstep : ∀ s, I s → ¬ D s → ∃ a t, step s a = .ok t ∧ I t ∧ left t < left s) {s : S}
    (hs : I s) : ∃ as t, exec step s as = .ok t ∧ I t ∧ D t := by
  induction hl : left s using Nat.strong_induction_on generalizing s with
  | _ n ih =>
    by_cases hdone : D s
    · exact ⟨[], s, rfl, hs, hdone⟩
    · obtain ⟨a, t, ha, ht, hlt⟩ := hstep s hs hdone
      obtain ⟨as, u, hu, hend⟩ := ih (left t) (hl ▸ hlt) ht rfl
      exact ⟨a :: as, u, exec_cons_ok ha hu, hend⟩

/-- The steps that a run makes meet a condition on the state before them. -/
def Meets (step : S → A → Except ε S) (C : S → A → Prop) (s : S) : List A → Prop
  | [] => True
  | a :: as => C s a ∧ ∀ t, step s a = .ok t → Meets step C t as

/-- A run whose steps meet a condition stays within an invariant that such steps
keep. -/
theorem exec_always {I : S → Prop} {C : S → A → Prop} {P : A → Prop}
    (hstep : ∀ s a t, P a → I s → C s a → step s a = .ok t → I t) {as : List A}
    (hP : ∀ a ∈ as, P a) {s : S} (hs : I s) (hC : Meets step C s as) :
    ∀ pre t, pre <+: as → exec step s pre = .ok t → I t := by
  induction as generalizing s with
  | nil =>
    intro pre t hpre ht
    obtain rfl := List.prefix_nil.mp hpre
    cases ht
    exact hs
  | cons b as ih =>
    intro pre t hpre ht
    cases pre with
    | nil =>
      cases ht
      exact hs
    | cons a pre =>
      obtain ⟨rfl, hrest⟩ := List.cons_prefix_cons.mp hpre
      rw [exec] at ht
      split at ht
      · cases ht
      · rename_i u hu
        have hI := hstep s a u (hP a (by simp)) hs hC.1 hu
        exact ih (fun c hc => hP c (by simp [hc])) hI (hC.2 u hu) pre t hrest ht

/-- Where the steps that meet a condition keep an invariant, and any other one
breaks a property that the invariant gives, a run has the property throughout
exactly if its steps meet the condition. -/
theorem exec_always_iff {I Q : S → Prop} {C : S → A → Prop} {P : A → Prop}
    (hQ : ∀ s, I s → Q s) (hgood : ∀ s a t, P a → I s → C s a → step s a = .ok t → I t)
    (hbad : ∀ s a, P a → I s → ¬ C s a → ∃ t, step s a = .ok t ∧ ¬ Q t) (as : List A)
    (hP : ∀ a ∈ as, P a) {s : S} (hs : I s) :
    (∀ pre t, pre <+: as → exec step s pre = .ok t → Q t) ↔ Meets step C s as := by
  constructor
  · intro h
    induction as generalizing s with
    | nil => trivial
    | cons a as ih =>
      have ha := hP a (by simp)
      have hC : C s a := by
        by_contra hC
        obtain ⟨t, ht, hbad⟩ := hbad s a ha hs hC
        exact hbad (h [a] t ⟨as, rfl⟩ (exec_cons_ok ht rfl))
      refine ⟨hC, fun t ht => ?_⟩
      apply ih (fun b hb => hP b (by simp [hb])) (hgood s a t ha hs hC ht)
      intro pre u hpre hu
      exact h (a :: pre) u (List.cons_prefix_cons.mpr ⟨rfl, hpre⟩) (exec_cons_ok ht hu)
  · intro hC pre t hpre ht
    exact hQ t (exec_always hgood hP hs hC pre t hpre ht)

end Mumu.Executions
