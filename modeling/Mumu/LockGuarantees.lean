import Mathlib.Order.Defs.Unbundled
import Mumu.LockOrder

namespace Mumu.LockGuarantees

open Mumu.Executions Mumu.Mutexes Mumu.LockOrder

variable {L S α : Type}

/-! ### Programs among others -/

section

variable (R : S → S → Prop) (I : S → Prop)

/-- Whatever updates as in `R` the others have made, each update of the program is as
in `R` too, and keeps the invariant. -/
def Keeps : Prog L S → S → Prop
  | .done, _ => True
  | .lock _ _ rest, s => Keeps rest s
  | .unlock _ rest, s => Keeps rest s
  | .act f rest, s => ∀ t, R s t → I t → R t (f t) ∧ I (f t) ∧ Keeps (rest t) (f t)

/-- A fact that the others leave true. -/
def Stable (P : S → Prop) : Prop := ∀ s t, R s t → P s → P t

/-- A routine that may begin where one fact holds, and ends where another does. -/
def Ensures (P : S → Prop) (p : Routine L S) (Q : S → Prop) : Prop :=
  ∀ k s, I s → P s → (∀ t, R s t → I t → Q t → Keeps R I k t) → Keeps R I (p k) s

/-- A routine that may begin anywhere. -/
def Allowed (p : Routine L S) : Prop := Ensures R I (fun _ => True) p (fun _ => True)

end

variable {R : S → S → Prop} {I : S → Prop}

theorem stable_true : Stable R (fun _ => True) := fun _ _ _ _ => trivial

theorem Keeps.mono [IsTrans S R] {prog : Prog L S} {s t : S} (h : Keeps R I prog s)
    (hst : R s t) : Keeps R I prog t := by
  induction prog with
  | done => trivial
  | lock l m rest ih | unlock l rest ih => exact ih h
  | act f rest => exact fun u htu hu => h u (IsTrans.trans s t u hst htu) hu

namespace Ensures

variable {P Q T : S → Prop} {p q : Routine L S} {f : S → S} {after : S → Routine L S}

theorem of_imp (hp : Ensures R I P p Q) (hT : ∀ s, T s → P s) : Ensures R I T p Q :=
  fun k s hs hTs hk => hp k s hs (hT s hTs) hk

theorem guarded {l : L} {m : RWMode} (hp : Ensures R I P p Q) :
    Ensures R I P (guarded l m p) Q :=
  fun k s hs hP hk => hp (.unlock l k) s hs hP hk

variable [IsPreorder S R]

theorem skip (hPQ : ∀ s, I s → P s → Q s) : Ensures R I P (id : Routine L S) Q :=
  fun _ s hs hP hk => hk s (refl s) hs (hPQ s hs hP)

theorem comp (hp : Ensures R I P p Q) (hq : Ensures R I Q q T) : Ensures R I P (p ∘ q) T := by
  intro k s hs hP hk
  refine hp (q k) s hs hP fun t hst ht hQ => ?_
  exact hq k t ht hQ fun u htu hu hT => hk u (IsTrans.trans s t u hst htu) hu hT

theorem atomically (hP : Stable R P) {F : S → S → Prop}
    (hf : ∀ s, I s → P s → R s (f s) ∧ I (f s) ∧ F s (f s))
    (hafter : ∀ s, I s → P s → Ensures R I (F s) (after s) Q) :
    Ensures R I P (atomically f after) Q := by
  intro k s hs hPs hk t hst ht
  have hPt := hP s t hst hPs
  obtain ⟨hR, hI, hF⟩ := hf t ht hPt
  refine ⟨hR, hI, hafter t ht hPt k (f t) hI hF fun u hu hIu hQ => ?_⟩
  exact hk u (IsTrans.trans s (f t) u (IsTrans.trans s t (f t) hst hR) hu) hIu hQ

theorem update (hP : Stable R P) (hf : ∀ s, I s → P s → R s (f s) ∧ I (f s) ∧ Q (f s)) :
    Ensures R I P (update f : Routine L S) Q :=
  atomically hP (F := fun _ => Q) hf fun _ _ _ => skip fun _ _ hQ => hQ

theorem inspect (hP : Stable R P) (hafter : ∀ s, I s → P s → Ensures R I P (after s) Q) :
    Ensures R I P (inspect after) Q :=
  atomically hP (F := fun _ => P) (fun s hs hPs => ⟨refl s, hs, hPs⟩) hafter

/-- A scope in which a fact is read off the state, and what comes after it. -/
theorem critical {l : L} {m : RWMode} {inside : S → Routine L S} (hP : Stable R P)
    {F : S → S → Prop} (hf : ∀ s, I s → P s → R s (f s) ∧ I (f s) ∧ F s (f s))
    (hinside : ∀ s, I s → P s → Ensures R I (F s) (inside s) (F s))
    (hafter : ∀ s, I s → P s → Ensures R I (F s) (after s) Q) :
    Ensures R I P (critical l m f inside after) Q := by
  intro k
  have hboth := atomically (f := f) (Q := Q) hP hf fun s hs hPs =>
    (hinside s hs hPs).comp (q := fun k => .unlock l (after s k)) fun k' => hafter s hs hPs k'
  exact hboth k

theorem forEach {r : α → Routine L S} {as : List α} (hr : ∀ a ∈ as, Ensures R I P (r a) P) :
    Ensures R I P (forEach r as) P := by
  induction as with
  | nil => exact skip fun _ _ hP => hP
  | cons a as ih => exact (hr a (by simp)).comp (ih fun b hb => hr b (by simp [hb]))

end Ensures

namespace Allowed

variable {p q : Routine L S} {f : S → S} {after : S → Routine L S}

theorem ite {c : Prop} [Decidable c] (hp : Allowed R I p) (hq : Allowed R I q) :
    Allowed R I (if c then p else q) := by
  split
  · exact hp
  · exact hq

theorem guarded {l : L} {m : RWMode} (hp : Allowed R I p) : Allowed R I (guarded l m p) :=
  Ensures.guarded hp

variable [IsPreorder S R]

theorem skip : Allowed R I (id : Routine L S) := Ensures.skip fun _ _ _ => trivial

theorem comp (hp : Allowed R I p) (hq : Allowed R I q) : Allowed R I (p ∘ q) :=
  Ensures.comp hp hq

theorem atomically (hf : ∀ s, I s → R s (f s) ∧ I (f s))
    (hafter : ∀ s, I s → Allowed R I (after s)) : Allowed R I (atomically f after) :=
  Ensures.atomically stable_true (F := fun _ _ => True)
    (fun s hs _ => ⟨(hf s hs).1, (hf s hs).2, trivial⟩) fun s hs _ => hafter s hs

theorem update (hf : ∀ s, I s → R s (f s) ∧ I (f s)) : Allowed R I (update f : Routine L S) :=
  atomically hf fun _ _ => skip

theorem inspect (hafter : ∀ s, I s → Allowed R I (after s)) : Allowed R I (inspect after) :=
  atomically (fun s hs => ⟨refl s, hs⟩) hafter

theorem critical {l : L} {m : RWMode} {inside : S → Routine L S}
    (hf : ∀ s, I s → R s (f s) ∧ I (f s)) (hinside : ∀ s, I s → Allowed R I (inside s))
    (hafter : ∀ s, I s → Allowed R I (after s)) :
    Allowed R I (critical l m f inside after) :=
  Ensures.critical stable_true (F := fun _ _ => True)
    (fun s hs _ => ⟨(hf s hs).1, (hf s hs).2, trivial⟩) (fun s hs _ => hinside s hs)
    fun s hs _ => hafter s hs

theorem forEach {r : α → Routine L S} {as : List α} (hr : ∀ a ∈ as, Allowed R I (r a)) :
    Allowed R I (forEach r as) := Ensures.forEach hr

end Allowed

/-! ### Threads -/

section

structure Inv (R : S → S → Prop) (I : S → Prop) (s : System L S) : Prop where
  shared : I s.shared
  threads : ∀ t ∈ s.threads, Keeps R I t.prog s.shared

def Good (R : S → S → Prop) (I : S → Prop) : Act L S → Prop
  | .start _ p => Allowed R I p
  | .run _ => True

variable {s s' : System L S}

theorem set_keeps {threads : List (Thread L S)} {x : S}
    (hs : ∀ t ∈ threads, Keeps R I t.prog x) {i : Nat} {t : Thread L S}
    (ht : Keeps R I t.prog x) : ∀ u ∈ threads.set i t, Keeps R I u.prog x := by
  intro u hu
  obtain hu | rfl := List.mem_or_eq_of_mem_set hu
  · exact hs u hu
  · exact ht

theorem idle_inv {shared : S} (hI : I shared) (n : Nat) :
    Inv R I (⟨shared, List.replicate n ⟨[], .done⟩⟩ : System L S) := by
  refine ⟨hI, fun t ht => ?_⟩
  rw [List.eq_of_mem_replicate ht]
  trivial

variable [DecidableEq L] [IsPreorder S R]

theorem step_inv (hs : Inv R I s) {a : Act L S} (ha : Good R I a) (h : step s a = .ok s') :
    Inv R I s' ∧ R s.shared s'.shared := by
  cases a with
  | start i p =>
    simp only [step] at h
    split at h
    · cases h
      have hp := ha .done s.shared hs.shared trivial fun _ _ _ _ => trivial
      exact ⟨⟨hs.shared, set_keeps hs.threads hp⟩, refl _⟩
    · cases h
  | run i =>
    simp only [step] at h
    split at h
    · rename_i held l m rest hi
      split at h
      · cases h
        have hrest : Keeps R I rest s.shared := hs.threads _ (List.mem_of_getElem? hi)
        exact ⟨⟨hs.shared, set_keeps hs.threads hrest⟩, refl _⟩
      · cases h
    · rename_i held l rest hi
      cases h
      have hrest : Keeps R I rest s.shared := hs.threads _ (List.mem_of_getElem? hi)
      exact ⟨⟨hs.shared, set_keeps hs.threads hrest⟩, refl _⟩
    · rename_i held f rest hi
      cases h
      obtain ⟨hR, hI, hrest⟩ :=
        hs.threads _ (List.mem_of_getElem? hi) s.shared (refl _) hs.shared
      exact ⟨⟨hI, set_keeps (fun t ht => (hs.threads t ht).mono hR) hrest⟩, hR⟩
    · cases h

theorem exec_inv (hs : Inv R I s) {acts : List (Act L S)} (hacts : ∀ a ∈ acts, Good R I a)
    (h : exec step s acts = .ok s') : Inv R I s' ∧ R s.shared s'.shared := by
  refine exec_invariant (I := fun t => Inv R I t ∧ R s.shared t.shared) ?_ acts hacts
    ⟨hs, refl _⟩ h
  rintro t a u ha ⟨ht, hst⟩ hu
  obtain ⟨hInv, htu⟩ := step_inv ht ha hu
  exact ⟨hInv, IsTrans.trans _ _ _ hst htu⟩

end

end Mumu.LockGuarantees
