import Mathlib.Data.Finset.Basic
import Mathlib.Data.Fintype.EquivFin
import Mathlib.Logic.Function.Basic
import Mumu.Executions

namespace Mumu.Interleavings

open Mumu.Executions

variable {ι α β S : Type*} [DecidableEq ι]

/-- A list that takes the elements of some lists, those of each one in its order. -/
inductive Interleaves : (ι → List α) → List α → Prop
  | nil {ls : ι → List α} (h : ∀ i, ls i = []) : Interleaves ls []
  | cons {ls : ι → List α} {i : ι} {a : α} {l as : List α} (hi : ls i = a :: l)
      (h : Interleaves (Function.update ls i l) as) : Interleaves ls (a :: as)

/-- The lists with all of them empty but one. -/
def alone (i : ι) (l : List α) : ι → List α := Function.update (fun _ => []) i l

@[simp] theorem alone_self (i : ι) (l : List α) : alone i l i = l := Function.update_self ..

@[simp] theorem alone_of_ne {i j : ι} (h : j ≠ i) (l : List α) : alone i l j = [] :=
  Function.update_of_ne h ..

/-- The lists without one of them. -/
def without (i : ι) (ls : ι → List α) : ι → List α := Function.update ls i []

theorem without_append_alone (i : ι) (ls : ι → List α) :
    (fun j => without i ls j ++ alone i (ls i) j) = ls := by
  funext j
  by_cases h : j = i
  · subst h
    rw [without, Function.update_self, alone_self, List.nil_append]
  · rw [without, Function.update_of_ne h, alone_of_ne h, List.append_nil]

theorem update_append (ls ms : ι → List α) (i : ι) (l : List α) :
    Function.update (fun j => ls j ++ ms j) i (l ++ ms i) =
      fun j => Function.update ls i l j ++ ms j := by
  funext j
  by_cases h : j = i
  · subst h
    rw [Function.update_self, Function.update_self]
  · rw [Function.update_of_ne h, Function.update_of_ne h]

namespace Interleaves

variable {ls ms : ι → List α} {as bs : List α} {a : α}

theorem alone (i : ι) (l : List α) : Interleaves (alone i l) l := by
  induction l with
  | nil =>
    refine .nil fun j => ?_
    rw [Interleavings.alone, Function.update_eq_self]
  | cons a l ih =>
    refine .cons (alone_self i (a :: l)) ?_
    rw [Interleavings.alone, Function.update_idem]
    exact ih

theorem append (h : Interleaves ls as) (h' : Interleaves ms bs) :
    Interleaves (fun i => ls i ++ ms i) (as ++ bs) := by
  induction h with
  | @nil ls hnil =>
    have heq : (fun i => ls i ++ ms i) = ms := by
      funext i
      rw [hnil i, List.nil_append]
    rw [heq]
    exact h'
  | @cons ls i a l as hi _ ih =>
    rw [List.cons_append]
    refine .cons (i := i) (l := l ++ ms i) (by rw [hi, List.cons_append]) ?_
    rw [update_append]
    exact ih

/-- The lists can be cut where their interleaving is cut. -/
theorem split (h : Interleaves ls (as ++ bs)) :
    ∃ ms ns, ls = (fun i => ms i ++ ns i) ∧ Interleaves ms as ∧ Interleaves ns bs := by
  induction as generalizing ls with
  | nil => exact ⟨fun _ => [], ls, rfl, .nil fun _ => rfl, h⟩
  | cons a as ih =>
    rw [List.cons_append] at h
    cases h with
    | @cons _ i _ l _ hi h =>
      obtain ⟨ms, ns, heq, hms, hns⟩ := ih h
      have hl : l = ms i ++ ns i := by
        rw [← Function.update_self i l ls, heq]
      refine ⟨Function.update ms i (a :: ms i), ns, ?_, ?_, hns⟩
      · have hupdate := update_append ms ns i (a :: ms i)
        rw [← heq, Function.update_idem, List.cons_append, ← hl, ← hi,
          Function.update_eq_self] at hupdate
        exact hupdate
      · refine .cons (i := i) (l := ms i) (Function.update_self ..) ?_
        rw [Function.update_idem, Function.update_eq_self]
        exact hms

theorem eq_alone (h : Interleaves ls [a]) : ∃ i, ls = Interleavings.alone i [a] := by
  cases h with
  | @cons _ i _ l _ hi h =>
    cases h with
    | nil hnil =>
      refine ⟨i, funext fun j => ?_⟩
      by_cases hj : j = i
      · subst hj
        have hl := hnil j
        rw [Function.update_self] at hl
        rw [hi, hl, alone_self]
      · have hempty := hnil j
        rw [Function.update_of_ne hj] at hempty
        rw [hempty, alone_of_ne hj]

theorem mem_iff (h : Interleaves ls as) : a ∈ as ↔ ∃ i, a ∈ ls i := by
  induction h with
  | nil hnil => simp [hnil]
  | @cons ls i b l as hi _ ih =>
    rw [List.mem_cons, ih]
    constructor
    · rintro (rfl | ⟨j, hj⟩)
      · exact ⟨i, hi ▸ List.mem_cons_self⟩
      · by_cases h : j = i
        · subst h
          rw [Function.update_self] at hj
          exact ⟨j, hi ▸ List.mem_cons_of_mem b hj⟩
        · rw [Function.update_of_ne h] at hj
          exact ⟨j, hj⟩
    · rintro ⟨j, hj⟩
      by_cases h : j = i
      · subst h
        rw [hi, List.mem_cons] at hj
        exact hj.imp_right fun hj => ⟨j, by rwa [Function.update_self]⟩
      · exact .inr ⟨j, by rwa [Function.update_of_ne h]⟩

theorem map (f : α → β) (h : Interleaves ls as) :
    Interleaves (fun i => (ls i).map f) (as.map f) := by
  induction h with
  | nil hnil => exact .nil fun i => by rw [hnil i, List.map_nil]
  | @cons ls i a l as hi _ ih =>
    refine .cons (i := i) (l := l.map f) (by rw [hi, List.map_cons]) ?_
    have heq : Function.update (fun j => (ls j).map f) i (l.map f) =
        fun j => (Function.update ls i l j).map f := by
      funext j
      rw [Function.apply_update fun _ l => List.map f l]
    rw [heq]
    exact ih

/-- What interleaves images is the image of what interleaves. -/
theorem of_map {f : α → β} {cs : List β} (h : Interleaves (fun i => (ls i).map f) cs) :
    ∃ as, cs = as.map f ∧ Interleaves ls as := by
  induction cs generalizing ls with
  | nil =>
    cases h with
    | nil hnil => exact ⟨[], rfl, .nil fun i => List.map_eq_nil_iff.mp (hnil i)⟩
  | cons c cs ih =>
    cases h with
    | @cons _ i _ l _ hi h =>
      obtain ⟨a, l', hl', rfl, rfl⟩ := List.map_eq_cons_iff.mp hi
      have heq : Function.update (fun j => (ls j).map f) i (l'.map f) =
          fun j => (Function.update ls i l' j).map f := by
        funext j
        rw [Function.apply_update fun _ l => List.map f l]
      rw [heq] at h
      obtain ⟨as, rfl, has⟩ := ih h
      exact ⟨a :: as, rfl, .cons hl' has⟩

end Interleaves

/-- Finitely many lists have an interleaving. -/
theorem exists_interleaves [Finite ι] (ls : ι → List α) : ∃ as, Interleaves ls as := by
  have hgen : ∀ (s : Finset ι) (ls : ι → List α), (∀ i ∉ s, ls i = []) →
      ∃ as, Interleaves ls as := by
    intro s
    induction s using Finset.induction with
    | empty => exact fun ls hls => ⟨[], .nil fun i => hls i (Finset.notMem_empty i)⟩
    | insert i s hi ih =>
      intro ls hls
      obtain ⟨as, has⟩ := ih (without i ls) fun j hj => by
        by_cases h : j = i
        · rw [h, without, Function.update_self]
        · rw [without, Function.update_of_ne h]
          exact hls j fun hmem => (Finset.mem_insert.mp hmem).elim h hj
      have happend := has.append (.alone i (ls i))
      rw [without_append_alone] at happend
      exact ⟨as ++ ls i, happend⟩
  have := Fintype.ofFinite ι
  exact hgen Finset.univ ls fun i hi => absurd (Finset.mem_univ i) hi

/-- There is one that ends with all of one list. -/
theorem exists_interleaves_last [Finite ι] (i : ι) (ls : ι → List α) :
    ∃ as, Interleaves ls (as ++ ls i) := by
  obtain ⟨as, has⟩ := exists_interleaves (without i ls)
  have happend := has.append (.alone i (ls i))
  rw [without_append_alone] at happend
  exact ⟨as, happend⟩

/-! ### Threads that change a shared value -/

/-- A value, and what each thread still does to it. -/
structure Shared (ι S α : Type*) where
  value : S
  todo : ι → List α

variable (apply : S → α → S)

/-- The next change of one thread. -/
def step (s : Shared ι S α) (i : ι) : Except Unit (Shared ι S α) :=
  match s.todo i with
  | [] => .error ()
  | a :: l => .ok ⟨apply s.value a, Function.update s.todo i l⟩

/-- When all threads are done the value has been changed by an interleaving of what
they do, and each interleaving is what some run does. -/
theorem exec_done_iff (s : Shared ι S α) (x : S) :
    (∃ acts t, exec (step apply) s acts = .ok t ∧ (∀ i, t.todo i = []) ∧ t.value = x) ↔
      ∃ as, Interleaves s.todo as ∧ as.foldl apply s.value = x := by
  constructor
  · rintro ⟨acts, t, h, hdone, rfl⟩
    induction acts generalizing s with
    | nil =>
      cases h
      exact ⟨[], .nil hdone, rfl⟩
    | cons i acts ih =>
      rw [exec, step] at h
      cases hi : s.todo i with
      | nil =>
        rw [hi] at h
        cases h
      | cons a l =>
        rw [hi] at h
        obtain ⟨as, has, hfold⟩ := ih _ h
        exact ⟨a :: as, .cons hi has, hfold⟩
  · rintro ⟨as, has, rfl⟩
    induction as generalizing s with
    | nil =>
      cases has with
      | nil hnil => exact ⟨[], s, rfl, hnil, rfl⟩
    | cons a as ih =>
      cases has with
      | @cons _ i _ l _ hi h =>
        obtain ⟨acts, t, hexec, hdone, hvalue⟩ :=
          ih ⟨apply s.value a, Function.update s.todo i l⟩ h
        refine ⟨i :: acts, t, exec_cons_ok ?_ hexec, hdone, hvalue⟩
        rw [step, hi]

end Mumu.Interleavings
