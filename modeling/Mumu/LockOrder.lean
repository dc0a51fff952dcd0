import Mathlib.Logic.Relation
import Mathlib.Order.Defs.Unbundled
import Mumu.Executions
import Mumu.Mutexes

namespace Mumu.LockOrder

open Mumu.Executions Mumu.Mutexes

/-! ### Programs with locks -/

/-- A program that takes and releases locks, and updates a state it shares with
others, going on by what that was. -/
inductive Prog (L S : Type) where
  | done
  | lock (l : L) (m : RWMode) (rest : Prog L S)
  | unlock (l : L) (rest : Prog L S)
  | act (f : S → S) (rest : S → Prog L S)

/-- A part of a program, applied to what comes after it. -/
abbrev Routine (L S : Type) := Prog L S → Prog L S

section

variable {L S α : Type}

/-- An update, and what comes after it by the state it found. -/
def atomically (f : S → S) (after : S → Routine L S) : Routine L S :=
  fun k => .act f (fun s => after s k)

def update (f : S → S) : Routine L S := atomically f (fun _ => id)

def inspect (f : S → Routine L S) : Routine L S := atomically id f

/-- Code in the scope of a guard. -/
def guarded (l : L) (m : RWMode) (inside : Routine L S) : Routine L S :=
  fun k => .lock l m (inside (.unlock l k))

/-- A scope that begins with an update, and decides what to do in it and what
after it by the state it found. -/
def critical (l : L) (m : RWMode) (f : S → S) (inside after : S → Routine L S) : Routine L S :=
  fun k => .lock l m (.act f (fun s => inside s (.unlock l (after s k))))

def forEach (f : α → Routine L S) (as : List α) : Routine L S := fun k => as.foldr f k

/-! ### Programs alone -/

/-- What a program does to the state when nobody comes between its steps. -/
def Prog.alone : Prog L S → S → S
  | .done, s => s
  | .lock _ _ rest, s => rest.alone s
  | .unlock _ rest, s => rest.alone s
  | .act f rest, s => (rest s).alone (f s)

/-- A routine that, alone, changes the state as a function does. -/
def Does (p : Routine L S) (f : S → S) : Prop := ∀ k s, (p k).alone s = k.alone (f s)

namespace Does

variable {p q : Routine L S} {f g : S → S}

theorem skip : Does (id : Routine L S) id := fun _ _ => rfl

theorem comp (hp : Does p f) (hq : Does q g) : Does (p ∘ q) (fun s => g (f s)) :=
  fun k s => (hp (q k) s).trans (hq k (f s))

theorem ite {c : Prop} [Decidable c] (hp : Does p f) (hq : Does q g) :
    Does (if c then p else q) (fun s => if c then f s else g s) := by
  by_cases hc : c
  · simpa [hc] using hp
  · simpa [hc] using hq

theorem atomically {after : S → Routine L S} {h : S → S → S} (hafter : ∀ s, Does (after s) (h s)) :
    Does (atomically f after) (fun s => h s (f s)) :=
  fun k s => hafter s k (f s)

theorem update : Does (update f : Routine L S) f := fun _ _ => rfl

theorem guarded {l : L} {m : RWMode} (hp : Does p f) : Does (guarded l m p) f :=
  fun k s => hp (.unlock l k) s

theorem critical {l : L} {m : RWMode} {inside after : S → Routine L S} {g h : S → S → S}
    (hinside : ∀ s, Does (inside s) (g s)) (hafter : ∀ s, Does (after s) (h s)) :
    Does (critical l m f inside after) (fun s => h s (g s (f s))) :=
  fun k s => (hinside s _ (f s)).trans (hafter s k _)

theorem forEach {r : α → Routine L S} {h : α → S → S} (hr : ∀ a, Does (r a) (h a)) (as : List α) :
    Does (forEach r as) (fun s => as.foldl (fun s a => h a s) s) := by
  intro k s
  induction as generalizing s with
  | nil => rfl
  | cons a as ih => exact (hr a _ s).trans (ih (h a s))

theorem congr (hp : Does p f) (hfg : ∀ s, f s = g s) : Does p g :=
  fun k s => (hp k s).trans (by rw [hfg])

end Does

/-- A routine that, alone, leads to a state in a relation to the first. -/
def Leads (R : S → S → Prop) (p : Routine L S) : Prop :=
  ∀ k s, ∃ t, R s t ∧ (p k).alone s = k.alone t

namespace Leads

variable {R : S → S → Prop} {p q : Routine L S}

theorem ite {c : Prop} [Decidable c] (hp : Leads R p) (hq : Leads R q) :
    Leads R (if c then p else q) := by
  split
  · exact hp
  · exact hq

theorem guarded {l : L} {m : RWMode} (hp : Leads R p) : Leads R (guarded l m p) :=
  fun k s => hp (.unlock l k) s

variable [IsPreorder S R]

theorem skip : Leads R (id : Routine L S) := fun _ s => ⟨s, refl s, rfl⟩

theorem comp (hp : Leads R p) (hq : Leads R q) : Leads R (p ∘ q) := by
  intro k s
  obtain ⟨t, ht, hpt⟩ := hp (q k) s
  obtain ⟨u, hu, hqu⟩ := hq k t
  exact ⟨u, IsTrans.trans s t u ht hu, hpt.trans hqu⟩

theorem atomically {f : S → S} {after : S → Routine L S} (hf : ∀ s, R s (f s))
    (hafter : ∀ s, Leads R (after s)) : Leads R (atomically f after) := by
  intro k s
  obtain ⟨t, ht, hat⟩ := hafter s k (f s)
  exact ⟨t, IsTrans.trans s (f s) t (hf s) ht, hat⟩

theorem update {f : S → S} (hf : ∀ s, R s (f s)) : Leads R (update f : Routine L S) :=
  atomically hf fun _ => skip

theorem inspect {f : S → Routine L S} (hf : ∀ s, Leads R (f s)) : Leads R (inspect f) :=
  atomically refl hf

theorem forEach {f : α → Routine L S} (hf : ∀ a, Leads R (f a)) (as : List α) :
    Leads R (forEach f as) := by
  induction as with
  | nil => exact skip
  | cons a as ih => exact (hf a).comp ih

end Leads

end

/-! ### Programs that make the same steps -/

/-- Two programs that take and release the same locks, and update every state that has
an invariant in the same way. -/
def Prog.Same {L S : Type} (I : S → Prop) : Prog L S → Prog L S → Prop
  | .done, .done => True
  | .lock l m rest, .lock l' m' rest' => l = l' ∧ m = m' ∧ rest.Same I rest'
  | .unlock l rest, .unlock l' rest' => l = l' ∧ rest.Same I rest'
  | .act f rest, .act f' rest' => ∀ s, I s → f s = f' s ∧ (rest s).Same I (rest' s)
  | _, _ => False

/-- Routines that make the same steps before what comes after them. -/
def Alike {L S : Type} (I : S → Prop) (p q : Routine L S) : Prop := ∀ k, (p k).Same I (q k)

section

variable {L S : Type} {I : S → Prop}

theorem Prog.Same.refl (p : Prog L S) : p.Same I p := by
  induction p with
  | done => trivial
  | lock l m rest ih => exact ⟨rfl, rfl, ih⟩
  | unlock l rest ih => exact ⟨rfl, ih⟩
  | act f rest ih => exact fun s _ => ⟨rfl, ih s⟩

namespace Alike

theorem refl (p : Routine L S) : Alike I p p := fun k => .refl (p k)

theorem ite {c : Prop} [Decidable c] {p q p' q' : Routine L S} (hp : Alike I p p')
    (hq : Alike I q q') : Alike I (if c then p else q) (if c then p' else q') := by
  split
  · exact hp
  · exact hq

theorem inspect {f g : S → Routine L S} (hfg : ∀ s, I s → Alike I (f s) (g s)) :
    Alike I (inspect f) (inspect g) :=
  fun k s hs => ⟨rfl, hfg s hs k⟩

theorem guarded {l : L} {m : RWMode} {p q : Routine L S} (hpq : Alike I p q) :
    Alike I (guarded l m p) (guarded l m q) :=
  fun k => ⟨rfl, rfl, hpq (.unlock l k)⟩

end Alike

end

/-! ### Ranks -/

section

variable {L S α : Type} [DecidableEq L] (rank : L → Nat) (I : S → Prop)

/-- Each lock that a program requests ranks above all it holds, whatever
invariant state it finds; it releases what it holds only, and all of it. -/
def Ordered : List (L × RWMode) → Prog L S → Prop
  | held, .done => held = []
  | held, .lock l m rest => (∀ h ∈ held, rank h.1 < rank l) ∧ Ordered ((l, m) :: held) rest
  | held, .unlock l rest =>
    (∃ m, (l, m) ∈ held) ∧ Ordered (held.eraseP (fun h => h.1 = l)) rest
  | held, .act f rest => ∀ s, I s → I (f s) ∧ Ordered held (rest s)

/-- A routine that can run while all the locks held rank below a bound. -/
def Above (r : Nat) (p : Routine L S) : Prop :=
  ∀ held k, (∀ h ∈ held, rank h.1 < r) → Ordered rank I held k → Ordered rank I held (p k)

variable {rank I} {r : Nat}

namespace Above

theorem skip : Above rank I r (id : Routine L S) := fun _ _ _ hk => hk

theorem mono {r' : Nat} {p : Routine L S} (hp : Above rank I r' p) (hr : r ≤ r') :
    Above rank I r p :=
  fun held k hheld hk => hp held k (fun h hh => (hheld h hh).trans_le hr) hk

theorem comp {p q : Routine L S} (hp : Above rank I r p) (hq : Above rank I r q) :
    Above rank I r (p ∘ q) :=
  fun held k hheld hk => hp held (q k) hheld (hq held k hheld hk)

theorem ite {c : Prop} [Decidable c] {p q : Routine L S} (hp : Above rank I r p)
    (hq : Above rank I r q) : Above rank I r (if c then p else q) := by
  split
  · exact hp
  · exact hq

theorem atomically {f : S → S} {after : S → Routine L S} (hf : ∀ s, I s → I (f s))
    (hafter : ∀ s, I s → Above rank I r (after s)) : Above rank I r (atomically f after) :=
  fun held k hheld hk s hs => ⟨hf s hs, hafter s hs held k hheld hk⟩

theorem update {f : S → S} (hf : ∀ s, I s → I (f s)) :
    Above rank I r (update f : Routine L S) :=
  atomically hf fun _ _ => skip

theorem inspect {f : S → Routine L S} (hf : ∀ s, I s → Above rank I r (f s)) :
    Above rank I r (inspect f) :=
  atomically (fun _ hs => hs) hf

theorem critical {l : L} {m : RWMode} {f : S → S} {inside after : S → Routine L S}
    (hr : r ≤ rank l) (hf : ∀ s, I s → I (f s))
    (hinside : ∀ s, I s → Above rank I (rank l + 1) (inside s))
    (hafter : ∀ s, I s → Above rank I r (after s)) :
    Above rank I r (critical l m f inside after) := by
  intro held k hheld hk
  have hbelow : ∀ h ∈ held, rank h.1 < rank l := fun h hh => (hheld h hh).trans_le hr
  refine ⟨hbelow, fun s hs => ⟨hf s hs, hinside s hs _ _ ?_ ?_⟩⟩
  · intro h hh
    obtain rfl | hh := List.mem_cons.mp hh
    · exact Nat.lt_succ_self _
    · exact Nat.lt_succ_of_lt (hbelow h hh)
  · refine ⟨⟨m, List.mem_cons_self⟩, ?_⟩
    rw [List.eraseP_cons_of_pos (by simp)]
    exact hafter s hs held k hheld hk

theorem guarded {l : L} {m : RWMode} {inside : Routine L S} (hr : r ≤ rank l)
    (hinside : Above rank I (rank l + 1) inside) : Above rank I r (guarded l m inside) := by
  intro held k hheld hk
  have hbelow : ∀ h ∈ held, rank h.1 < rank l := fun h hh => (hheld h hh).trans_le hr
  refine ⟨hbelow, hinside _ _ ?_ ⟨⟨m, List.mem_cons_self⟩, ?_⟩⟩
  · intro h hh
    obtain rfl | hh := List.mem_cons.mp hh
    · exact Nat.lt_succ_self _
    · exact Nat.lt_succ_of_lt (hbelow h hh)
  · rw [List.eraseP_cons_of_pos (by simp)]
    exact hk

theorem forEach {f : α → Routine L S} {as : List α} (hf : ∀ a ∈ as, Above rank I r (f a)) :
    Above rank I r (forEach f as) := by
  intro held k hheld hk
  induction as with
  | nil => exact hk
  | cons a as ih =>
    exact hf a (by simp) held _ hheld (ih fun b hb => hf b (by simp [hb]))

end Above

end

/-! ### Threads -/

structure Thread (L S : Type) where
  held : List (L × RWMode)
  prog : Prog L S

structure System (L S : Type) where
  shared : S
  threads : List (Thread L S)

/-- A thread begins a routine when it has none left, and runs it step by step. -/
inductive Act (L S : Type) where
  | start (i : Nat) (p : Routine L S)
  | run (i : Nat)

section

variable {L S : Type}

/-- The ranks that are requested have a bound. -/
theorem requests_bounded (rank : L → Nat) (threads : List (Thread L S)) :
    ∃ b, ∀ t ∈ threads, ∀ l m rest, t.prog = .lock l m rest → rank l ≤ b := by
  induction threads with
  | nil => exact ⟨0, nofun⟩
  | cons t threads ih =>
    obtain ⟨b, hb⟩ := ih
    cases hprog : t.prog with
    | lock l m rest =>
      refine ⟨max b (rank l), fun u hu l' m' rest' hu' => ?_⟩
      obtain rfl | hu := List.mem_cons.mp hu
      · obtain ⟨rfl, _, _⟩ : l = l' ∧ m = m' ∧ rest = rest' := by
          simpa using hprog.symm.trans hu'
        exact le_max_right _ _
      · exact (hb u hu l' m' rest' hu').trans (le_max_left _ _)
    | done | unlock l rest | act f rest =>
      refine ⟨b, fun u hu l' m' rest' hu' => ?_⟩
      obtain rfl | hu := List.mem_cons.mp hu
      · cases hprog.symm.trans hu'
      · exact hb u hu l' m' rest' hu'

variable [DecidableEq L]

/-- A lock is free for a mode, as far as those who hold it go. -/
def Grants (threads : List (Thread L S)) (l : L) (m : RWMode) : Prop :=
  ∀ t ∈ threads, ∀ h ∈ t.held, h.1 = l → m = .read ∧ h.2 = .read

instance (threads : List (Thread L S)) (l : L) (m : RWMode) : Decidable (Grants threads l m) :=
  inferInstanceAs (Decidable (∀ t ∈ threads, ∀ h ∈ t.held, _))

def step (s : System L S) : Act L S → Except Unit (System L S)
  | .start i p =>
    match s.threads[i]? with
    | some ⟨held, .done⟩ => .ok { s with threads := s.threads.set i ⟨held, p .done⟩ }
    | _ => .error ()
  | .run i =>
    match s.threads[i]? with
    | some ⟨held, .lock l m rest⟩ =>
      if Grants s.threads l m then
        .ok { s with threads := s.threads.set i ⟨(l, m) :: held, rest⟩ }
      else .error ()
    | some ⟨held, .unlock l rest⟩ =>
      .ok { s with threads := s.threads.set i ⟨held.eraseP (fun h => h.1 = l), rest⟩ }
    | some ⟨held, .act f rest⟩ =>
      .ok ⟨f s.shared, s.threads.set i ⟨held, rest s.shared⟩⟩
    | _ => .error ()

/-- A thread at a request for a lock that another one, or itself, holds. -/
def Waits (s : System L S) (i j : Nat) : Prop :=
  ∃ t u l m rest m', s.threads[i]? = some t ∧ t.prog = .lock l m rest ∧
    s.threads[j]? = some u ∧ (l, m') ∈ u.held

/-- Requests follow the ranks, so that nobody waits for itself or in a circle,
and while any thread has work left some thread can go on. -/
structure DeadlockFree (rank : L → Nat) (s : System L S) : Prop where
  ordered : ∀ t ∈ s.threads, ∀ l m rest, t.prog = .lock l m rest →
    ∀ h ∈ t.held, rank h.1 < rank l
  noSelf : ∀ i, ¬ Waits s i i
  acyclic : ∀ i, ¬ Relation.TransGen (Waits s) i i
  progress : (∃ t ∈ s.threads, t.prog ≠ .done) → ∃ i s', step s (.run i) = .ok s'

/-- Systems whose threads hold the same locks and make the same steps. -/
structure Same (I : S → Prop) (s t : System L S) : Prop where
  shared : t.shared = s.shared
  length : t.threads.length = s.threads.length
  threads : ∀ (i : Nat) held p, s.threads[i]? = some ⟨held, p⟩ →
    ∃ q, t.threads[i]? = some ⟨held, q⟩ ∧ p.Same I q

namespace Same

variable {I : S → Prop} {s t : System L S}

omit [DecidableEq L] in
theorem set (h : Same I s t) (shared : S) (i : Nat) (held : List (L × RWMode)) {p q : Prog L S}
    (hpq : p.Same I q) :
    Same I ⟨shared, s.threads.set i ⟨held, p⟩⟩ ⟨shared, t.threads.set i ⟨held, q⟩⟩ := by
  refine ⟨rfl, ?_, fun j held' p' hj => ?_⟩
  · rw [List.length_set, List.length_set, h.length]
  · by_cases hij : i = j
    · subst hij
      have hlt : i < s.threads.length := by simpa using (List.getElem?_eq_some_iff.mp hj).1
      rw [List.getElem?_set_self hlt, Option.some.injEq] at hj
      cases hj
      exact ⟨q, List.getElem?_set_self (h.length ▸ hlt), hpq⟩
    · rw [List.getElem?_set_ne hij] at hj
      rw [List.getElem?_set_ne hij]
      exact h.threads j held' p' hj

omit [DecidableEq L] in
theorem grants (h : Same I s t) {l : L} {m : RWMode} (hs : Grants s.threads l m) :
    Grants t.threads l m := by
  intro b hb
  obtain ⟨j, hj⟩ := List.getElem?_of_mem hb
  have hlt : j < s.threads.length := h.length ▸ (List.getElem?_eq_some_iff.mp hj).1
  obtain ⟨a, ha⟩ : ∃ a, s.threads[j]? = some a := ⟨_, List.getElem?_eq_getElem hlt⟩
  obtain ⟨q, hq, _⟩ := h.threads j a.held a.prog ha
  obtain rfl : b = ⟨a.held, q⟩ := Option.some.inj (hj.symm.trans hq)
  exact hs a (List.mem_of_getElem? ha)

/-- A step of one system is a step of the other. -/
theorem step (h : Same I s t) (hI : I s.shared) {i : Nat} {s' : System L S}
    (hs : LockOrder.step s (.run i) = .ok s') :
    ∃ t', LockOrder.step t (.run i) = .ok t' ∧ Same I s' t' := by
  simp only [LockOrder.step] at hs
  split at hs
  · rename_i held l m rest hi
    obtain ⟨q, hq, hsame⟩ := h.threads i held _ hi
    split at hs
    · rename_i hgrants
      cases hs
      cases q with
      | lock l' m' rest' =>
        obtain ⟨rfl, rfl, hrest⟩ := hsame
        have hstep : LockOrder.step t (.run i) =
            .ok ⟨s.shared, t.threads.set i ⟨(l, m) :: held, rest'⟩⟩ := by
          simp only [LockOrder.step, hq, if_pos (h.grants hgrants), h.shared]
        exact ⟨_, hstep, h.set s.shared i _ hrest⟩
      | done | unlock l' rest' | act f rest' => exact hsame.elim
    · cases hs
  · rename_i held l rest hi
    obtain ⟨q, hq, hsame⟩ := h.threads i held _ hi
    cases hs
    cases q with
    | unlock l' rest' =>
      obtain ⟨rfl, hrest⟩ := hsame
      have hstep : LockOrder.step t (.run i) =
          .ok ⟨s.shared, t.threads.set i ⟨held.eraseP (fun h => h.1 = l), rest'⟩⟩ := by
        simp only [LockOrder.step, hq, h.shared]
      exact ⟨_, hstep, h.set s.shared i _ hrest⟩
    | done | lock l' m' rest' | act f rest' => exact hsame.elim
  · rename_i held f rest hi
    obtain ⟨q, hq, hsame⟩ := h.threads i held _ hi
    cases hs
    cases q with
    | act f' rest' =>
      obtain ⟨hf, hrest⟩ := hsame s.shared hI
      have hstep : LockOrder.step t (.run i) =
          .ok ⟨f s.shared, t.threads.set i ⟨held, rest' s.shared⟩⟩ := by
        simp only [LockOrder.step, hq, h.shared, hf]
      exact ⟨_, hstep, h.set _ i held hrest⟩
    | done | lock l' m' rest' | unlock l' rest' => exact hsame.elim
  · cases hs

omit [DecidableEq L] in
theorem refl (s : System L S) : Same I s s :=
  ⟨rfl, rfl, fun _ _ p hi => ⟨p, hi, .refl p⟩⟩

/-- A thread that begins one routine or another that is alike. -/
theorem start {p q : Routine L S} (hpq : Alike I p q) {i : Nat} {s' : System L S}
    (hs : LockOrder.step s (.start i p) = .ok s') :
    ∃ t', LockOrder.step s (.start i q) = .ok t' ∧ Same I s' t' := by
  simp only [LockOrder.step] at hs ⊢
  split at hs
  · cases hs
    exact ⟨_, rfl, (refl s).set s.shared i _ (hpq .done)⟩
  · cases hs

end Same

/-! ### The invariant -/

variable {rank : L → Nat} {I : S → Prop}

structure Inv (rank : L → Nat) (I : S → Prop) (s : System L S) : Prop where
  shared : I s.shared
  threads : ∀ t ∈ s.threads, Ordered rank I t.held t.prog

/-- What threads begin is in order from the start. -/
def Act.Good (rank : L → Nat) (I : S → Prop) : Act L S → Prop
  | .start _ p => Above rank I 0 p
  | .run _ => True

variable {s : System L S}

theorem set_ordered (hs : Inv rank I s) {i : Nat} {t : Thread L S}
    (ht : Ordered rank I t.held t.prog) :
    ∀ u ∈ s.threads.set i t, Ordered rank I u.held u.prog := by
  intro u hu
  obtain hu | rfl := List.mem_or_eq_of_mem_set hu
  · exact hs.threads u hu
  · exact ht

theorem step_inv (s : System L S) (a : Act L S) (s' : System L S) (ha : a.Good rank I)
    (hs : Inv rank I s) (h : step s a = .ok s') : Inv rank I s' := by
  cases a with
  | start i p =>
    simp only [step] at h
    split at h
    · rename_i held hi
      cases h
      obtain rfl : held = [] := hs.threads _ (List.mem_of_getElem? hi)
      exact ⟨hs.shared, set_ordered hs (ha [] .done nofun rfl)⟩
    · cases h
  | run i =>
    simp only [step] at h
    split at h
    · rename_i held l m rest hi
      split at h
      · cases h
        exact ⟨hs.shared, set_ordered hs (hs.threads _ (List.mem_of_getElem? hi)).2⟩
      · cases h
    · rename_i held l rest hi
      cases h
      exact ⟨hs.shared, set_ordered hs (hs.threads _ (List.mem_of_getElem? hi)).2⟩
    · rename_i held f rest hi
      cases h
      obtain ⟨hI, hrest⟩ := hs.threads _ (List.mem_of_getElem? hi) s.shared hs.shared
      exact ⟨hI, set_ordered hs hrest⟩
    · cases h

/-! ### Deadlocks -/

theorem Inv.request (hs : Inv rank I s) {t : Thread L S} (ht : t ∈ s.threads) {l : L} {m : RWMode}
    {rest : Prog L S} (hprog : t.prog = .lock l m rest) : ∀ h ∈ t.held, rank h.1 < rank l := by
  have hord := hs.threads t ht
  rw [hprog] at hord
  exact hord.1

/-- Along a chain of waiting threads the ranks go up. -/
theorem Inv.chain (hs : Inv rank I s) {i j : Nat} (h : Relation.TransGen (Waits s) i j) :
    ∃ t u l m rest, s.threads[i]? = some t ∧ t.prog = .lock l m rest ∧
      s.threads[j]? = some u ∧ ∃ h ∈ u.held, rank l ≤ rank h.1 := by
  induction h with
  | single h =>
    obtain ⟨t, u, l, m, rest, m', ht, hprog, hu, hheld⟩ := h
    exact ⟨t, u, l, m, rest, ht, hprog, hu, (l, m'), hheld, le_rfl⟩
  | tail _ h ih =>
    obtain ⟨t, u, l, m, rest, ht, hprog, hu, g, hg, hle⟩ := ih
    obtain ⟨u', v, l', m', rest', m'', hu', hprog', hv, hheld⟩ := h
    obtain rfl : u = u' := Option.some.inj (hu.symm.trans hu')
    have hlt := hs.request (List.mem_of_getElem? hu) hprog' g hg
    exact ⟨t, v, l, m, rest, ht, hprog, hv, (l', m''), hheld, hle.trans hlt.le⟩

theorem Inv.acyclic (hs : Inv rank I s) (i : Nat) : ¬ Relation.TransGen (Waits s) i i := by
  intro h
  obtain ⟨t, u, l, m, rest, ht, hprog, hu, g, hg, hle⟩ := hs.chain h
  obtain rfl : t = u := Option.some.inj (ht.symm.trans hu)
  have hlt := hs.request (List.mem_of_getElem? ht) hprog g hg
  omega

/-- Whoever cannot go on waits for a thread with work left, which can go on or is
at a request of a higher rank. -/
theorem Inv.request_progress (hs : Inv rank I s) {b : Nat}
    (hb : ∀ t ∈ s.threads, ∀ l m rest, t.prog = .lock l m rest → rank l ≤ b) {i : Nat} {l : L}
    {held : List (L × RWMode)} {m : RWMode} {rest : Prog L S}
    (hi : s.threads[i]? = some ⟨held, .lock l m rest⟩) : ∃ i s', step s (.run i) = .ok s' := by
  have hl := hb _ (List.mem_of_getElem? hi) l m rest rfl
  induction hn : b - rank l using Nat.strong_induction_on generalizing i l held m rest with
  | _ n ih =>
    by_cases hgrants : Grants s.threads l m
    · exact ⟨i, by simp only [step, hi, if_pos hgrants]; exact ⟨_, rfl⟩⟩
    · simp only [Grants, not_forall] at hgrants
      obtain ⟨⟨held', prog⟩, hu, h, hh, hlock, _⟩ := hgrants
      obtain ⟨j, hj⟩ := List.getElem?_of_mem hu
      cases prog with
      | done =>
        have hnone : held' = [] := hs.threads _ hu
        simp [hnone] at hh
      | unlock l' rest' => exact ⟨j, by simp only [step, hj]; exact ⟨_, rfl⟩⟩
      | act f rest' => exact ⟨j, by simp only [step, hj]; exact ⟨_, rfl⟩⟩
      | lock l' m' rest' =>
        have hlt := hs.request hu rfl h hh
        have hl' := hb _ hu l' m' rest' rfl
        rw [hlock] at hlt
        exact ih (b - rank l') (by omega) hj hl' rfl

theorem Inv.progress (hs : Inv rank I s) {t : Thread L S} (ht : t ∈ s.threads)
    (hwork : t.prog ≠ .done) : ∃ i s', step s (.run i) = .ok s' := by
  obtain ⟨b, hb⟩ := requests_bounded rank s.threads
  obtain ⟨i, hi⟩ := List.getElem?_of_mem ht
  obtain ⟨held, prog⟩ := t
  cases prog with
  | done => exact absurd rfl hwork
  | unlock l rest => exact ⟨i, by simp only [step, hi]; exact ⟨_, rfl⟩⟩
  | act f rest => exact ⟨i, by simp only [step, hi]; exact ⟨_, rfl⟩⟩
  | lock l m rest => exact hs.request_progress hb hi

theorem Inv.deadlockFree (hs : Inv rank I s) : DeadlockFree rank s where
  ordered _ ht _ _ _ hprog := hs.request ht hprog
  noSelf i h := hs.acyclic i (.single h)
  acyclic := hs.acyclic
  progress := fun ⟨_, ht, hwork⟩ => hs.progress ht hwork

/-- Threads that start out idle, in a state that has the invariant. -/
theorem exec_inv {shared : S} (hI : I shared) (n : Nat) {acts : List (Act L S)}
    (hacts : ∀ a ∈ acts, a.Good rank I)
    (h : exec step ⟨shared, List.replicate n ⟨[], .done⟩⟩ acts = .ok s) : Inv rank I s := by
  refine exec_invariant (I := Inv rank I) step_inv acts hacts ⟨hI, fun t ht => ?_⟩ h
  rw [List.eq_of_mem_replicate ht]
  rfl

theorem exec_deadlockFree {shared : S} (hI : I shared) (n : Nat) {acts : List (Act L S)}
    (hacts : ∀ a ∈ acts, a.Good rank I)
    (h : exec step ⟨shared, List.replicate n ⟨[], .done⟩⟩ acts = .ok s) : DeadlockFree rank s :=
  (exec_inv hI n hacts h).deadlockFree

/-! ### One thread alone -/

omit [DecidableEq L] in
theorem set_held {threads : List (Thread L S)} {i : Nat}
    (hothers : ∀ j t, j ≠ i → threads[j]? = some t → t.held = []) (t : Thread L S) :
    ∀ j u, j ≠ i → (threads.set i t)[j]? = some u → u.held = [] := by
  intro j u hj hu
  rw [List.getElem?_set_ne hj.symm] at hu
  exact hothers j u hj hu

omit [DecidableEq L] in
/-- Nobody else is in the way of a request. -/
theorem grants_alone {l : L} {m : RWMode} {rest : Prog L S} {held : List (L × RWMode)}
    {threads : List (Thread L S)} {i : Nat} (hi : threads[i]? = some ⟨held, .lock l m rest⟩)
    (hbelow : ∀ h ∈ held, rank h.1 < rank l)
    (hothers : ∀ j t, j ≠ i → threads[j]? = some t → t.held = []) : Grants threads l m := by
  intro t ht h hh hl
  obtain ⟨j, hj⟩ := List.getElem?_of_mem ht
  by_cases hji : j = i
  · subst hji
    obtain rfl : t = _ := Option.some.inj (hj.symm.trans hi)
    have hlt := hbelow h hh
    rw [hl] at hlt
    omega
  · rw [hothers j t hji hj] at hh
    cases hh

theorem exec_alone_step {shared shared' final : S} {threads : List (Thread L S)} {i : Nat}
    {t : Thread L S} (h : step ⟨shared, threads⟩ (.run i) = .ok ⟨shared', threads.set i t⟩)
    (hrest : ∃ n, exec step ⟨shared', threads.set i t⟩ (List.replicate n (.run i)) =
      .ok ⟨final, (threads.set i t).set i ⟨[], .done⟩⟩) :
    ∃ n, exec step ⟨shared, threads⟩ (List.replicate n (.run i)) =
      .ok ⟨final, threads.set i ⟨[], .done⟩⟩ := by
  obtain ⟨n, hn⟩ := hrest
  rw [List.set_set] at hn
  exact ⟨n + 1, exec_cons_ok h hn⟩

/-- A thread that the others, holding nothing, leave alone runs to its end. -/
theorem exec_alone {prog : Prog L S} {held : List (L × RWMode)} {shared : S}
    {threads : List (Thread L S)} {i : Nat} (hI : I shared) (hprog : Ordered rank I held prog)
    (hi : threads[i]? = some ⟨held, prog⟩)
    (hothers : ∀ j t, j ≠ i → threads[j]? = some t → t.held = []) :
    ∃ n, exec step ⟨shared, threads⟩ (List.replicate n (.run i)) =
      .ok ⟨prog.alone shared, threads.set i ⟨[], .done⟩⟩ := by
  have hlt := (List.getElem?_eq_some_iff.mp hi).1
  induction prog generalizing held shared threads with
  | done =>
    obtain rfl : held = [] := hprog
    exact ⟨0, by rw [set_same hi]; rfl⟩
  | lock l m rest ih =>
    have hgrants := grants_alone hi hprog.1 hothers
    have hstep : step ⟨shared, threads⟩ (.run i) =
        .ok ⟨shared, threads.set i ⟨(l, m) :: held, rest⟩⟩ := by
      simp only [step, hi, if_pos hgrants]
    exact exec_alone_step hstep
      (ih hI hprog.2 (List.getElem?_set_self hlt) (set_held hothers _) (by simpa using hlt))
  | unlock l rest ih =>
    have hstep : step ⟨shared, threads⟩ (.run i) =
        .ok ⟨shared, threads.set i ⟨held.eraseP (fun h => h.1 = l), rest⟩⟩ := by
      simp only [step, hi]
    exact exec_alone_step hstep
      (ih hI hprog.2 (List.getElem?_set_self hlt) (set_held hothers _) (by simpa using hlt))
  | act f rest ih =>
    obtain ⟨hI', hrest⟩ := hprog shared hI
    have hstep : step ⟨shared, threads⟩ (.run i) =
        .ok ⟨f shared, threads.set i ⟨held, rest shared⟩⟩ := by
      simp only [step, hi]
    exact exec_alone_step hstep
      (ih shared hI' hrest (List.getElem?_set_self hlt) (set_held hothers _) (by simpa using hlt))

end

end Mumu.LockOrder
