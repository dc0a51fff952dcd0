import Mathlib.Logic.Function.Basic
import Mumu.Executions
import Mumu.Mutexes

namespace Mumu.LockSections

open Mumu.Executions Mumu.Mutexes

/-! ### Sections -/

/-- The code of a section: updates of what its lock guards, going on by what
they found, up to a result. -/
inductive Body (C R : Type) where
  | ret (r : R)
  | act (f : C → C) (rest : C → Body C R)

variable {Mode St L D C R : Type}

namespace Body

/-- What a section does when nobody comes between its steps. -/
def run : Body C R → C → C × R
  | ret r, c => (c, r)
  | act f rest, c => (rest c).run (f c)

def ReadsOnly : Body C R → Prop
  | ret _ => True
  | act f rest => ∀ c, f c = c ∧ (rest c).ReadsOnly

end Body

/-- A section works at one place while it holds its lock; one that takes it in a
shared mode only reads. -/
structure Section (M : MutexType Mode St) (L D C R : Type) where
  lock : L
  mode : Mode
  place : D
  body : Body C R
  reads : M.shared mode = true → body.ReadsOnly

/-- A client runs one section after the other, and chooses the next by the
result of the last. -/
inductive Client (M : MutexType Mode St) (L D C R : Type) where
  | done
  | call (sec : Section M L D C R) (next : R → Client M L D C R)

/-- A client that runs some sections in turn. -/
def Client.ofList {M : MutexType Mode St} : List (Section M L D C R) → Client M L D C R
  | [] => .done
  | sec :: secs => .call sec fun _ => ofList secs

/-! ### Serial histories -/

/-- A section of a thread that has come to its result. -/
structure Entry (M : MutexType Mode St) (L D C R : Type) where
  thread : Nat
  call : Section M L D C R
  result : R

section

variable {M : MutexType Mode St} [DecidableEq D]

def Entry.after (e : Entry M L D C R) (d : D → C) : D → C :=
  Function.update d e.call.place (e.call.body.run (d e.call.place)).1

/-- The sections of a history, run in turn. -/
def replay (d : D → C) (h : List (Entry M L D C R)) : D → C := h.foldl (fun d e => e.after d) d

/-- Each section gives the result that it gives when they run in turn. -/
def Serial (d : D → C) : List (Entry M L D C R) → Prop
  | [] => True
  | e :: h => e.result = (e.call.body.run (d e.call.place)).2 ∧ Serial (e.after d) h

theorem replay_concat (d : D → C) (h : List (Entry M L D C R)) (e : Entry M L D C R) :
    replay d (h ++ [e]) = e.after (replay d h) := by
  rw [replay, replay, List.foldl_append]
  rfl

theorem serial_concat {d : D → C} {h : List (Entry M L D C R)} {e : Entry M L D C R}
    (hs : Serial d h) (he : e.result = (e.call.body.run (replay d h e.call.place)).2) :
    Serial d (h ++ [e]) := by
  induction h generalizing d with
  | nil => exact ⟨he, trivial⟩
  | cons e' h ih => exact ⟨hs.1, ih hs.2 he⟩

/-- What each section of a history keeps. -/
theorem replay_keeps {P : (D → C) → Prop} {d : D → C} {h : List (Entry M L D C R)}
    (hstep : ∀ e ∈ h, ∀ d, P d → P (e.after d)) (hd : P d) : P (replay d h) := by
  induction h generalizing d with
  | nil => exact hd
  | cons e h ih =>
    exact ih (fun e' he' => hstep e' (List.mem_cons_of_mem _ he')) (hstep e List.mem_cons_self d hd)

/-- What a section establishes, and no section undoes, holds in the end. -/
theorem serial_lasting {I : (D → C) → Prop} {P : Entry M L D C R → (D → C) → Prop} {d : D → C}
    {h : List (Entry M L D C R)} (hs : Serial d h) (hd : I d)
    (hkeeps : ∀ e ∈ h, ∀ d, I d → I (e.after d))
    (hfound : ∀ e ∈ h, ∀ d, I d → e.result = (e.call.body.run (d e.call.place)).2 → P e (e.after d))
    (hkept : ∀ e ∈ h, ∀ e' d, I d → P e' d → P e' (e.after d)) :
    I (replay d h) ∧ ∀ e ∈ h, P e (replay d h) := by
  refine ⟨replay_keeps hkeeps hd, ?_⟩
  induction h generalizing d with
  | nil => exact fun e he => absurd he List.not_mem_nil
  | cons e h ih =>
    have hd' := hkeeps e List.mem_cons_self d hd
    intro e' he'
    obtain rfl | he' := List.mem_cons.mp he'
    · exact (replay_keeps (P := fun d => I d ∧ P e' d)
        (fun e he d hd => ⟨hkeeps e (List.mem_cons_of_mem _ he) d hd.1,
          hkept e (List.mem_cons_of_mem _ he) e' d hd.1 hd.2⟩)
        ⟨hd', hfound e' List.mem_cons_self d hd hs.1⟩).2
    · exact ih hs.2 hd' (fun e he => hkeeps e (List.mem_cons_of_mem _ he))
        (fun e he => hfound e (List.mem_cons_of_mem _ he))
        (fun e he => hkept e (List.mem_cons_of_mem _ he)) e' he'

end

/-- The sections of a history in the order of a client. -/
inductive Path {M : MutexType Mode St} :
    Client M L D C R → List (Entry M L D C R) → Client M L D C R → Prop where
  | nil (c : Client M L D C R) : Path c [] c
  | cons {e : Entry M L D C R} {next : R → Client M L D C R} {h : List (Entry M L D C R)}
      {c : Client M L D C R} : Path (next e.result) h c → Path (.call e.call next) (e :: h) c

section

variable {M : MutexType Mode St} {c : Client M L D C R} {h : List (Entry M L D C R)}

theorem Path.concat {e : Entry M L D C R} {next : R → Client M L D C R}
    (hp : Path c h (.call e.call next)) : Path c (h ++ [e]) (next e.result) := by
  generalize hlast : Client.call e.call next = last at hp
  induction hp with
  | nil =>
    rw [← hlast]
    exact .cons (.nil _)
  | cons _ ih => exact .cons (ih hlast)

/-- Of a client that runs some sections in turn, the history has the first. -/
theorem Path.ofList {secs : List (Section M L D C R)} {rest : Client M L D C R}
    (hp : Path (.ofList secs) h rest) :
    ∃ left, secs = h.map Entry.call ++ left ∧ rest = .ofList left := by
  induction secs generalizing h with
  | nil =>
    cases hp
    exact ⟨[], rfl, rfl⟩
  | cons sec secs ih =>
    cases hp with
    | nil => exact ⟨sec :: secs, rfl, rfl⟩
    | cons hp =>
      obtain ⟨left, hsecs, hrest⟩ := ih hp
      exact ⟨left, by rw [List.map_cons, List.cons_append, ← hsecs], hrest⟩

/-- All sections that a client may run. -/
def Client.All (P : Section M L D C R → Prop) : Client M L D C R → Prop
  | done => True
  | call sec next => P sec ∧ ∀ r, (next r).All P

theorem Client.all_of_forall {P : Section M L D C R → Prop} (hP : ∀ sec, P sec) :
    (c : Client M L D C R) → c.All P
  | done => trivial
  | call sec next => ⟨hP sec, fun r => (next r).all_of_forall hP⟩

theorem Client.All.mono {P Q : Section M L D C R → Prop} (hPQ : ∀ sec, P sec → Q sec) :
    {c : Client M L D C R} → c.All P → c.All Q
  | .done, _ => trivial
  | .call _ _, hc => ⟨hPQ _ hc.1, fun r => (hc.2 r).mono hPQ⟩

theorem Path.all {P : Section M L D C R → Prop} {rest : Client M L D C R} (hp : Path c h rest)
    (hc : c.All P) : ∀ e ∈ h, P e.call := by
  induction hp with
  | nil => exact fun e he => absurd he List.not_mem_nil
  | cons _ ih =>
    intro e he
    obtain rfl | he := List.mem_cons.mp he
    · exact hc.1
    · exact ih (hc.2 _) e he

end

/-! ### Threads -/

inductive Thread (M : MutexType Mode St) (L D C R : Type) where
  | idle (client : Client M L D C R)
  | inside (sec : Section M L D C R) (rest : Body C R) (next : R → Client M L D C R)
  | leaving (sec : Section M L D C R) (client : Client M L D C R)

/-- The state of each lock, what is at each place, and a record of the past. -/
structure State (M : MutexType Mode St) (L D C R : Type) where
  mutexes : L → St
  data : D → C
  threads : List (Thread M L D C R)
  history : List (Entry M L D C R)

section

variable (M : MutexType Mode St)

def initial (clients : List (Client M L D C R)) (d : D → C) : State M L D C R :=
  ⟨fun _ => M.free, d, clients.map .idle, []⟩

variable {M} [DecidableEq L] [DecidableEq D]

def step (s : State M L D C R) (i : Nat) : Except Unit (State M L D C R) :=
  match s.threads[i]? with
  | some (.idle (.call sec next)) =>
    match M.lock sec.mode (s.mutexes sec.lock) with
    | none => .error ()
    | some m =>
      .ok { s with
        mutexes := Function.update s.mutexes sec.lock m
        threads := s.threads.set i (.inside sec sec.body next) }
  | some (.inside sec (.act f rest) next) =>
    .ok { s with
      data := Function.update s.data sec.place (f (s.data sec.place))
      threads := s.threads.set i (.inside sec (rest (s.data sec.place)) next) }
  | some (.inside sec (.ret r) next) =>
    .ok { s with
      threads := s.threads.set i (.leaving sec (next r))
      history := s.history ++ [⟨i, sec, r⟩] }
  | some (.leaving sec client) =>
    .ok { s with
      mutexes := Function.update s.mutexes sec.lock (M.unlock (s.mutexes sec.lock))
      threads := s.threads.set i (.idle client) }
  | _ => .error ()

theorem step_enter {s : State M L D C R} {i : Nat} {sec : Section M L D C R}
    {next : R → Client M L D C R} {m : St} (ht : s.threads[i]? = some (.idle (.call sec next)))
    (hm : M.lock sec.mode (s.mutexes sec.lock) = some m) :
    step s i = .ok { s with
      mutexes := Function.update s.mutexes sec.lock m
      threads := s.threads.set i (.inside sec sec.body next) } := by
  simp only [step, ht, hm]

omit [DecidableEq L] [DecidableEq D] in
theorem getElem?_set_same {s : State M L D C R} {i : Nat} {t : Thread M L D C R}
    (ht : s.threads[i]? = some t) (u : Thread M L D C R) : (s.threads.set i u)[i]? = some u :=
  List.getElem?_set_self (List.getElem?_eq_some_iff.mp ht).1

theorem exec_body {s : State M L D C R} {i : Nat} {sec : Section M L D C R} {body : Body C R}
    {next : R → Client M L D C R} (ht : s.threads[i]? = some (.inside sec body next)) :
    ∃ acts, exec step s acts = .ok { s with
      data := Function.update s.data sec.place (body.run (s.data sec.place)).1
      threads := s.threads.set i (.leaving sec (next (body.run (s.data sec.place)).2))
      history := s.history ++ [⟨i, sec, (body.run (s.data sec.place)).2⟩] } := by
  induction body generalizing s with
  | ret r =>
    refine ⟨[i], exec_cons_ok ?_ rfl⟩
    simp only [step, ht, Body.run, Function.update_eq_self]
  | act f rest ih =>
    let s' : State M L D C R := { s with
      data := Function.update s.data sec.place (f (s.data sec.place))
      threads := s.threads.set i (.inside sec (rest (s.data sec.place)) next) }
    have hstep : step s i = .ok s' := by simp only [step, ht, s']
    obtain ⟨acts, hacts⟩ := ih (s.data sec.place) (s := s') (getElem?_set_same ht _)
    refine ⟨i :: acts, exec_cons_ok hstep (hacts.trans ?_)⟩
    simp only [s', Function.update_self, Function.update_idem, List.set_set, Body.run]

/-- A section that is free to begin can be run through. -/
theorem exec_section {s : State M L D C R} {i : Nat} {sec : Section M L D C R}
    {next : R → Client M L D C R} {m : St} (ht : s.threads[i]? = some (.idle (.call sec next)))
    (hm : M.lock sec.mode (s.mutexes sec.lock) = some m) :
    ∃ acts, exec step s acts = .ok
      ⟨Function.update s.mutexes sec.lock (M.unlock m),
        Function.update s.data sec.place (sec.body.run (s.data sec.place)).1,
        s.threads.set i (.idle (next (sec.body.run (s.data sec.place)).2)),
        s.history ++ [⟨i, sec, (sec.body.run (s.data sec.place)).2⟩]⟩ := by
  let s' : State M L D C R := { s with
    mutexes := Function.update s.mutexes sec.lock m
    threads := s.threads.set i (.inside sec sec.body next) }
  obtain ⟨acts, hacts⟩ := exec_body (s := s') (getElem?_set_same ht _)
  refine ⟨i :: (acts ++ [i]), exec_cons_ok (step_enter ht hm) (exec_append_ok hacts ?_)⟩
  have hlt : i < s.threads.length := (List.getElem?_eq_some_iff.mp ht).1
  refine exec_cons_ok ?_ rfl
  simp [step, s', hlt]

/-- What a step can do. -/
inductive Moves (s : State M L D C R) (i : Nat) : State M L D C R → Prop where
  | enter {sec : Section M L D C R} {next : R → Client M L D C R} {m : St}
      (ht : s.threads[i]? = some (.idle (.call sec next)))
      (hm : M.lock sec.mode (s.mutexes sec.lock) = some m) :
    Moves s i { s with
      mutexes := Function.update s.mutexes sec.lock m
      threads := s.threads.set i (.inside sec sec.body next) }
  | act {sec : Section M L D C R} {f : C → C} {rest : C → Body C R} {next : R → Client M L D C R}
      (ht : s.threads[i]? = some (.inside sec (.act f rest) next)) :
    Moves s i { s with
      data := Function.update s.data sec.place (f (s.data sec.place))
      threads := s.threads.set i (.inside sec (rest (s.data sec.place)) next) }
  | ret {sec : Section M L D C R} {r : R} {next : R → Client M L D C R}
      (ht : s.threads[i]? = some (.inside sec (.ret r) next)) :
    Moves s i { s with
      threads := s.threads.set i (.leaving sec (next r))
      history := s.history ++ [⟨i, sec, r⟩] }
  | leave {sec : Section M L D C R} {client : Client M L D C R}
      (ht : s.threads[i]? = some (.leaving sec client)) :
    Moves s i { s with
      mutexes := Function.update s.mutexes sec.lock (M.unlock (s.mutexes sec.lock))
      threads := s.threads.set i (.idle client) }

theorem step_moves {s s' : State M L D C R} {i : Nat} (h : step s i = .ok s') : Moves s i s' := by
  rw [step] at h
  split at h
  · rename_i ht
    split at h
    · cases h
    · rename_i hm
      cases h
      exact .enter ht hm
  · rename_i ht
    cases h
    exact .act ht
  · rename_i ht
    cases h
    exact .ret ht
  · rename_i ht
    cases h
    exact .leave ht
  · cases h

/-! ### Who is inside -/

variable [DecidableEq Mode]

def Thread.holds (l : L) (m : Mode) : Thread M L D C R → Bool
  | idle _ => false
  | inside sec _ _ => sec.lock = l ∧ sec.mode = m
  | leaving sec _ => sec.lock = l ∧ sec.mode = m

/-- A thread that may be changing what is at a place. -/
def Thread.Writes (p : D) : Thread M L D C R → Prop
  | inside sec _ _ => sec.place = p ∧ M.shared sec.mode = false
  | _ => False

/-- All sections that a thread is in or may run. -/
def Thread.All (P : Section M L D C R → Prop) : Thread M L D C R → Prop
  | idle client => client.All P
  | inside sec _ next => P sec ∧ ∀ r, (next r).All P
  | leaving _ client => client.All P

def Thread.pending : Thread M L D C R → Client M L D C R
  | idle client => client
  | inside sec _ next => .call sec next
  | leaving _ client => client

/-- A section that takes the lock its place is guarded by. -/
def Guarded (guard : D → L) (sec : Section M L D C R) : Prop := sec.lock = guard sec.place

omit [DecidableEq L] [DecidableEq D] [DecidableEq Mode] in
/-- One lock for all places. -/
theorem guarded_of_one [Subsingleton L] (guard : D → L) (c : Client M L D C R) :
    c.All (Guarded guard) :=
  c.all_of_forall fun _ => Subsingleton.elim _ _

structure Inv (law : Lawful M) (guard : D → L) (clients : List (Client M L D C R)) (d : D → C)
    (s : State M L D C R) : Prop where
  guarded : ∀ t ∈ s.threads, t.All (Guarded guard)
  counts : ∀ l, law.Counts (s.mutexes l) (fun m => s.threads.countP (Thread.holds l m))
  serial : Serial d s.history
  inside : ∀ (i : Nat) sec rest next, s.threads[i]? = some (Thread.inside sec rest next) →
    rest.run (s.data sec.place) = sec.body.run (replay d s.history sec.place) ∧
      (M.shared sec.mode = true → rest.ReadsOnly)
  data : ∀ p, (∀ t ∈ s.threads, ¬ t.Writes p) → s.data p = replay d s.history p
  paths : ∀ (i : Nat) t, s.threads[i]? = some t → ∃ c, clients[i]? = some c ∧
    Path c (s.history.filter (fun e => e.thread = i)) t.pending
  bound : ∀ e ∈ s.history, e.thread < s.threads.length
  length : s.threads.length = clients.length

variable {law : Lawful M} {guard : D → L} {clients : List (Client M L D C R)} {d : D → C}
  {s : State M L D C R}

omit [DecidableEq D] in
/-- Who holds a lock in an exclusive mode holds it alone. -/
theorem alone_of_counts
    (hcounts : ∀ l, law.Counts (s.mutexes l) (fun m => s.threads.countP (Thread.holds l m))) {l : L}
    {m m' : Mode} (hm : M.shared m = false) {i j : Nat} {t u : Thread M L D C R}
    (hi : s.threads[i]? = some t) (hj : s.threads[j]? = some u) (ht : t.holds l m = true)
    (hu : u.holds l m' = true) : i = j := by
  have hpos : 0 < s.threads.countP (Thread.holds l m) :=
    List.countP_pos_iff.mpr ⟨t, List.mem_of_getElem? hi, ht⟩
  obtain ⟨hone, hnone⟩ := law.alone (hcounts l) hm hpos
  by_cases hmm : m' = m
  · subst hmm
    exact eq_of_countP_le_one hone.le hi hj ht hu
  · have hpos' : 0 < s.threads.countP (Thread.holds l m') :=
      List.countP_pos_iff.mpr ⟨u, List.mem_of_getElem? hj, hu⟩
    exact absurd (hnone m' hmm) (Nat.pos_iff_ne_zero.mp hpos')

omit [DecidableEq D] in
theorem holds_of_writes {p : D} {t : Thread M L D C R} (hg : t.All (Guarded guard))
    (ht : t.Writes p) : ∃ m, M.shared m = false ∧ t.holds (guard p) m = true := by
  cases t with
  | inside sec rest next =>
    refine ⟨sec.mode, ht.2, ?_⟩
    have hlock : sec.lock = guard p := ht.1 ▸ hg.1
    simp [Thread.holds, hlock]
  | idle client | leaving sec client => exact ht.elim

omit [DecidableEq D] in
theorem holds_inside (sec : Section M L D C R) (rest : Body C R) (next : R → Client M L D C R) :
    (Thread.inside sec rest next).holds sec.lock sec.mode = true := by
  simp [Thread.holds]

/-- A step within a section leaves the holds as they are. -/
theorem counts_same (hs : Inv law guard clients d s) {i : Nat} {t t' : Thread M L D C R}
    (ht : s.threads[i]? = some t) (hsame : ∀ l m, t'.holds l m = t.holds l m) (l : L) :
    law.Counts (s.mutexes l) (fun m => (s.threads.set i t').countP (Thread.holds l m)) := by
  have heq : (fun m => (s.threads.set i t').countP (Thread.holds l m)) =
      fun m => s.threads.countP (Thread.holds l m) := by
    funext m
    have h := countP_set_add (p := Thread.holds l m) ht t'
    rw [hsame] at h
    omega
  rw [heq]
  exact hs.counts l

omit [DecidableEq Mode] [DecidableEq L] [DecidableEq D] in
theorem guarded_set {threads : List (Thread M L D C R)} {i : Nat} {t : Thread M L D C R}
    (hg : ∀ u ∈ threads, u.All (Guarded guard)) (ht : t.All (Guarded guard)) :
    ∀ u ∈ threads.set i t, u.All (Guarded guard) := by
  intro u hu
  obtain hu | rfl := List.mem_or_eq_of_mem_set hu
  · exact hg u hu
  · exact ht

/-- The path of a thread is not touched by what others do. -/
theorem paths_set (hs : Inv law guard clients d s) {i : Nat} {t t' : Thread M L D C R}
    (ht : s.threads[i]? = some t) (hsame : t'.pending = t.pending) :
    ∀ (j : Nat) u, (s.threads.set i t')[j]? = some u → ∃ c, clients[j]? = some c ∧
      Path c (s.history.filter (fun e => e.thread = j)) u.pending := by
  intro j u hu
  rw [List.getElem?_set] at hu
  split at hu
  · rename_i hij
    subst hij
    split at hu
    · obtain rfl := Option.some.inj hu
      rw [hsame]
      exact hs.paths i t ht
    · cases hu
  · exact hs.paths j u hu

omit [DecidableEq Mode] [DecidableEq L] [DecidableEq D] in
/-- Who was changing what is at a place still is, unless it was the thread of the step. -/
theorem no_writer {threads : List (Thread M L D C R)} {i : Nat} {t t' : Thread M L D C R}
    (ht : threads[i]? = some t) {p : D} (hp : ∀ u ∈ threads.set i t', ¬ u.Writes p)
    (hsame : t.Writes p → t'.Writes p) : ∀ u ∈ threads, ¬ u.Writes p := by
  intro u hmem hwrites
  have hlt := (List.getElem?_eq_some_iff.mp ht).1
  obtain ⟨j, hj⟩ := List.getElem?_of_mem hmem
  by_cases hij : j = i
  · subst hij
    cases hj.symm.trans ht
    exact hp t' (List.mem_of_getElem? (List.getElem?_set_self hlt)) (hsame hwrites)
  · exact hp u (List.mem_of_getElem? ((List.getElem?_set_ne (Ne.symm hij)).trans hj)) hwrites

omit [DecidableEq Mode] [DecidableEq L] [DecidableEq D] in
theorem same_lock {sec sec' : Section M L D C R} (hg : Guarded guard sec) (hg' : Guarded guard sec')
    (hplace : sec'.place = sec.place) : sec'.lock = sec.lock := by
  rw [Guarded] at hg hg'
  rw [hg, hg', hplace]

theorem enter_inv (hs : Inv law guard clients d s) {i : Nat} {sec : Section M L D C R}
    {next : R → Client M L D C R} {m : St} (ht : s.threads[i]? = some (.idle (.call sec next)))
    (hm : M.lock sec.mode (s.mutexes sec.lock) = some m) :
    Inv law guard clients d { s with
      mutexes := Function.update s.mutexes sec.lock m
      threads := s.threads.set i (.inside sec sec.body next) } := by
  have hcounts : ∀ l, law.Counts (Function.update s.mutexes sec.lock m l)
      (fun m => (s.threads.set i (.inside sec sec.body next)).countP (Thread.holds l m)) := by
    intro l
    have hset : ∀ m', (s.threads.set i (.inside sec sec.body next)).countP (Thread.holds l m') =
        s.threads.countP (Thread.holds l m') + if sec.lock = l ∧ sec.mode = m' then 1 else 0 := by
      intro m'
      have h := countP_set_add (p := Thread.holds l m') ht (.inside sec sec.body next)
      simpa [Thread.holds] using h
    by_cases hl : l = sec.lock
    · subst hl
      rw [Function.update_self]
      convert law.lock (hs.counts sec.lock) hm using 1
      funext m'
      rw [hset, Function.update_apply]
      by_cases hmode : m' = sec.mode
      · simp [hmode]
      · simp [hmode, Ne.symm hmode]
    · rw [Function.update_of_ne hl]
      convert hs.counts l using 1
      funext m'
      rw [hset, if_neg fun h => hl h.1.symm, Nat.add_zero]
  have hg := hs.guarded _ (List.mem_of_getElem? ht)
  have hfree : ∀ t ∈ s.threads, ¬ t.Writes sec.place := by
    intro t hmem hwrites
    obtain ⟨j, hj⟩ := List.getElem?_of_mem hmem
    obtain ⟨m', hm', hholds⟩ := holds_of_writes (hs.guarded t hmem) hwrites
    have hlock : sec.lock = guard sec.place := hg.1
    rw [← hlock] at hholds
    -- the new hold would be a second one beside the writer's
    have hne : j ≠ i := by
      rintro rfl
      cases hj.symm.trans ht
      exact hwrites
    have hlt := (List.getElem?_eq_some_iff.mp ht).1
    have hij := alone_of_counts (s := { s with
        mutexes := Function.update s.mutexes sec.lock m
        threads := s.threads.set i (.inside sec sec.body next) }) hcounts hm'
      ((List.getElem?_set_ne hne.symm).trans hj) (List.getElem?_set_self hlt) hholds
      (holds_inside sec sec.body next)
    exact hne hij
  refine ⟨guarded_set hs.guarded hg, hcounts, hs.serial, fun j sec' rest' next' hj => ?_,
    fun p hp => ?_, paths_set hs ht rfl, fun e he => ?_, List.length_set.trans hs.length⟩
  · obtain ⟨_, heq⟩ | ⟨_, hj⟩ := mem_set_cases hj
    · cases heq
      exact ⟨by rw [hs.data _ hfree], sec.reads⟩
    · exact hs.inside j sec' rest' next' hj
  · exact hs.data p (no_writer ht hp False.elim)
  · rw [List.length_set]
    exact hs.bound e he

theorem act_inv (hs : Inv law guard clients d s) {i : Nat} {sec : Section M L D C R} {f : C → C}
    {rest : C → Body C R} {next : R → Client M L D C R}
    (ht : s.threads[i]? = some (.inside sec (.act f rest) next)) :
    Inv law guard clients d { s with
      data := Function.update s.data sec.place (f (s.data sec.place))
      threads := s.threads.set i (.inside sec (rest (s.data sec.place)) next) } := by
  have hg := hs.guarded _ (List.mem_of_getElem? ht)
  obtain ⟨hrun, hreads⟩ := hs.inside i sec _ next ht
  have hshared : M.shared sec.mode = true →
      Function.update s.data sec.place (f (s.data sec.place)) = s.data := fun hm => by
    rw [(hreads hm _).1, Function.update_eq_self]
  refine ⟨guarded_set hs.guarded hg, counts_same hs ht fun _ _ => rfl, hs.serial,
    fun j sec' rest' next' hj => ?_, fun p hp => ?_, paths_set hs ht rfl, fun e he => ?_,
    List.length_set.trans hs.length⟩
  · obtain ⟨_, heq⟩ | ⟨hne, hj⟩ := mem_set_cases hj
    · cases heq
      refine ⟨?_, fun hm => (hreads hm _).2⟩
      dsimp only
      rw [Function.update_self, ← hrun]
      rfl
    · obtain ⟨hrun', hreads'⟩ := hs.inside j sec' rest' next' hj
      refine ⟨?_, hreads'⟩
      dsimp only
      by_cases hm : M.shared sec.mode = true
      · rw [hshared hm]
        exact hrun'
      · have hg' := hs.guarded _ (List.mem_of_getElem? hj)
        have hplace : sec'.place ≠ sec.place := fun hplace => hne
          (alone_of_counts hs.counts (by simpa using hm) ht hj (holds_inside ..)
            (same_lock hg.1 hg'.1 hplace ▸ holds_inside sec' rest' next')).symm
        rw [Function.update_of_ne hplace]
        exact hrun'
  · have hold := hs.data p (no_writer ht hp id)
    by_cases hm : M.shared sec.mode = true
    · dsimp only
      rw [hshared hm]
      exact hold
    · have hlt := (List.getElem?_eq_some_iff.mp ht).1
      have hplace : p ≠ sec.place := fun hplace =>
        hp _ (List.mem_of_getElem? (List.getElem?_set_self hlt)) ⟨hplace.symm, by simpa using hm⟩
      dsimp only
      rw [Function.update_of_ne hplace]
      exact hold
  · rw [List.length_set]
    exact hs.bound e he

theorem ret_inv (hs : Inv law guard clients d s) {i : Nat} {sec : Section M L D C R} {r : R}
    {next : R → Client M L D C R} (ht : s.threads[i]? = some (.inside sec (.ret r) next)) :
    Inv law guard clients d { s with
      threads := s.threads.set i (.leaving sec (next r))
      history := s.history ++ [⟨i, sec, r⟩] } := by
  have hg := hs.guarded _ (List.mem_of_getElem? ht)
  obtain ⟨hrun, _⟩ := hs.inside i sec _ next ht
  have hlt := (List.getElem?_eq_some_iff.mp ht).1
  have hself : replay d (s.history ++ [⟨i, sec, r⟩]) sec.place = s.data sec.place := by
    rw [replay_concat, Entry.after, Function.update_self, ← hrun]
    rfl
  have hother : ∀ p, p ≠ sec.place →
      replay d (s.history ++ [⟨i, sec, r⟩]) p = replay d s.history p := fun p hp => by
    rw [replay_concat, Entry.after, Function.update_of_ne hp]
  refine ⟨guarded_set hs.guarded (hg.2 r), counts_same hs ht fun _ _ => rfl,
    serial_concat hs.serial ?_, fun j sec' rest' next' hj => ?_, fun p hp => ?_, fun j u hj => ?_,
    fun e he => ?_, List.length_set.trans hs.length⟩
  · exact congrArg Prod.snd hrun
  · obtain ⟨_, heq⟩ | ⟨hne, hj⟩ := mem_set_cases hj
    · cases heq
    · obtain ⟨hrun', hreads'⟩ := hs.inside j sec' rest' next' hj
      refine ⟨?_, hreads'⟩
      dsimp only
      by_cases hplace : sec'.place = sec.place
      · have hg' := hs.guarded _ (List.mem_of_getElem? hj)
        have hquiet : ∀ t ∈ s.threads, ¬ t.Writes sec.place := by
          intro t hmem hwrites
          obtain ⟨k, hk⟩ := List.getElem?_of_mem hmem
          obtain ⟨m, hm, hholds⟩ := holds_of_writes (hs.guarded t hmem) hwrites
          have hlock : sec.lock = guard sec.place := hg.1
          rw [← hlock] at hholds
          have hki := alone_of_counts hs.counts hm hk ht hholds (holds_inside ..)
          have hkj := alone_of_counts hs.counts hm hk hj hholds
            (same_lock hg.1 hg'.1 hplace ▸ holds_inside sec' rest' next')
          exact hne (hkj.symm.trans hki)
        rw [hplace] at hrun' ⊢
        rw [hself, hrun', hs.data _ hquiet]
      · rw [hother _ hplace]
        exact hrun'
  · dsimp only
    by_cases hplace : p = sec.place
    · rw [hplace, hself]
    · rw [hother p hplace]
      exact hs.data p (no_writer ht hp fun hwrites => absurd hwrites.1.symm hplace)
  · dsimp only
    rw [List.filter_append]
    obtain ⟨rfl, rfl⟩ | ⟨hne, hj⟩ := mem_set_cases hj
    · obtain ⟨c, hc, hpath⟩ := hs.paths j _ ht
      refine ⟨c, hc, ?_⟩
      have htrue : decide ((⟨j, sec, r⟩ : Entry M L D C R).thread = j) = true := by simp
      rw [List.filter_singleton, htrue]
      exact hpath.concat (e := ⟨j, sec, r⟩)
    · have hfalse : decide ((⟨i, sec, r⟩ : Entry M L D C R).thread = j) = false := by
        simpa using hne.symm
      rw [List.filter_singleton, hfalse, cond_false, List.append_nil]
      exact hs.paths j u hj
  · rw [List.length_set]
    obtain he | he := List.mem_append.mp he
    · exact hs.bound e he
    · rw [List.mem_singleton.mp he]
      exact hlt

theorem leave_inv (hs : Inv law guard clients d s) {i : Nat} {sec : Section M L D C R}
    {client : Client M L D C R} (ht : s.threads[i]? = some (.leaving sec client)) :
    Inv law guard clients d { s with
      mutexes := Function.update s.mutexes sec.lock (M.unlock (s.mutexes sec.lock))
      threads := s.threads.set i (.idle client) } := by
  have hset : ∀ l m, (s.threads.set i (.idle client)).countP (Thread.holds l m) +
      (if sec.lock = l ∧ sec.mode = m then 1 else 0) =
        s.threads.countP (Thread.holds l m) := by
    intro l m
    have h := countP_set_add (p := Thread.holds l m) ht (.idle client)
    simpa [Thread.holds] using h
  have hg := hs.guarded _ (List.mem_of_getElem? ht)
  refine ⟨guarded_set hs.guarded hg, fun l => ?_, hs.serial, fun j sec' rest' next' hj => ?_,
    fun p hp => ?_,
    paths_set hs ht rfl, fun e he => ?_, List.length_set.trans hs.length⟩
  · dsimp only
    by_cases hl : l = sec.lock
    · subst hl
      have hpos : 0 < s.threads.countP (Thread.holds sec.lock sec.mode) :=
        List.countP_pos_iff.mpr ⟨_, List.mem_of_getElem? ht, by simp [Thread.holds]⟩
      rw [Function.update_self]
      convert law.unlock (hs.counts sec.lock) hpos using 1
      funext m
      have hm := hset sec.lock m
      rw [Function.update_apply]
      by_cases hmode : m = sec.mode
      · subst hmode
        rw [if_pos ⟨rfl, rfl⟩] at hm
        rw [if_pos rfl]
        omega
      · rw [if_neg fun h => hmode h.2.symm] at hm
        rw [if_neg hmode]
        omega
    · rw [Function.update_of_ne hl]
      convert hs.counts l using 1
      funext m
      have hm := hset l m
      rw [if_neg fun h => hl h.1.symm] at hm
      omega
  · obtain ⟨_, heq⟩ | ⟨_, hj⟩ := mem_set_cases hj
    · cases heq
    · exact hs.inside j sec' rest' next' hj
  · exact hs.data p (no_writer ht hp False.elim)
  · rw [List.length_set]
    exact hs.bound e he

theorem step_inv (s : State M L D C R) (i : Nat) (s' : State M L D C R) (_ : True)
    (hs : Inv law guard clients d s) (h : step s i = .ok s') : Inv law guard clients d s' := by
  cases step_moves h with
  | enter ht hm => exact enter_inv hs ht hm
  | act ht => exact act_inv hs ht
  | ret ht => exact ret_inv hs ht
  | leave ht => exact leave_inv hs ht

theorem initial_inv (law : Lawful M) {clients : List (Client M L D C R)}
    (hg : ∀ c ∈ clients, c.All (Guarded guard)) (d : D → C) :
    Inv law guard clients d (initial M clients d) := by
  have hidle : ∀ t ∈ (initial M clients d).threads, ∃ c, t = .idle c := by
    intro t ht
    obtain ⟨c, _, rfl⟩ := List.mem_map.mp ht
    exact ⟨c, rfl⟩
  refine ⟨fun t ht => ?_, fun l => ?_, trivial, fun i sec rest next hi => ?_, fun _ _ => rfl,
    fun i t hi => ?_, fun e he => absurd he List.not_mem_nil, List.length_map _⟩
  · obtain ⟨c, hc, rfl⟩ := List.mem_map.mp ht
    exact hg c hc
  · have hnone : ∀ m, (initial M clients d).threads.countP (Thread.holds l m) = 0 := by
      refine fun m => List.countP_eq_zero.mpr fun t ht => ?_
      obtain ⟨c, rfl⟩ := hidle t ht
      simp [Thread.holds]
    rw [funext hnone]
    exact law.free
  · obtain ⟨c, hc⟩ := hidle _ (List.mem_of_getElem? hi)
    cases hc
  · rw [initial, List.getElem?_map] at hi
    obtain ⟨c, hc, rfl⟩ := Option.map_eq_some_iff.mp hi
    exact ⟨c, hc, .nil c⟩

/-- Where each place has a lock that all its sections take, whatever threads come
between the steps of a section, all is as if the sections had run in turn: they
give the results of the history run alone, a place is as the history leaves it
while nobody is changing it, and each thread runs its sections in its own order. -/
theorem run_serial (law : Lawful M) {clients : List (Client M L D C R)}
    (hg : ∀ c ∈ clients, c.All (Guarded guard)) {d : D → C} {acts : List Nat} {s : State M L D C R}
    (h : exec step (initial M clients d) acts = .ok s) : Inv law guard clients d s :=
  exec_invariant step_inv acts (fun _ _ => trivial) (initial_inv law hg d) h

theorem Inv.path (hs : Inv law guard clients d s) {i : Nat} {c : Client M L D C R}
    (hc : clients[i]? = some c) :
    ∃ t, s.threads[i]? = some t ∧
      Path c (s.history.filter (fun e => e.thread = i)) t.pending := by
  have hlt : i < s.threads.length := hs.length ▸ (List.getElem?_eq_some_iff.mp hc).1
  obtain ⟨c', hc', hpath⟩ := hs.paths i _ (List.getElem?_eq_getElem hlt)
  obtain rfl := Option.some.inj (hc.symm.trans hc')
  exact ⟨_, List.getElem?_eq_getElem hlt, hpath⟩

/-- All sections of a history are the clients' own. -/
theorem Inv.all (hs : Inv law guard clients d s) {P : Section M L D C R → Prop}
    (hP : ∀ c ∈ clients, c.All P) : ∀ e ∈ s.history, P e.call := by
  intro e he
  obtain ⟨c, hc, hpath⟩ := hs.paths e.thread _ (List.getElem?_eq_getElem (hs.bound e he))
  exact hpath.all (hP c (List.mem_of_getElem? hc)) e (List.mem_filter.mpr ⟨he, by simp⟩)

end

/-! ### Calls of one function -/

/-- A function that runs in a section: what it does when it is alone, and the
section for each of its arguments, whose result says what it was asked. -/
structure Calls (M : MutexType Mode St) (L D C Q A : Type) where
  alone : Q → C → C × A
  sec : Q → Section M L D C (Q × A)
  run : ∀ q c, (sec q).body.run c = ((alone q c).1, q, (alone q c).2)

namespace Calls

variable {M : MutexType Mode St} {Q A : Type} (F : Calls M L D C Q A) [DecidableEq D]

def after (q : Q) (d : D → C) : D → C :=
  Function.update d (F.sec q).place (F.alone q (d (F.sec q).place)).1

/-- Calls that give, one after the other, what they give alone. -/
def InTurn (d : D → C) : List (Q × A) → Prop
  | [] => True
  | (q, a) :: calls => a = (F.alone q (d (F.sec q).place)).2 ∧ InTurn (F.after q d) calls

def afterAll (d : D → C) (calls : List (Q × A)) : D → C :=
  calls.foldl (fun d c => F.after c.1 d) d

variable {F} {d : D → C} {h : List (Entry M L D C (Q × A))}

theorem after_call {e : Entry M L D C (Q × A)} {q : Q} (he : e.call = F.sec q) (d : D → C) :
    e.after d = F.after q d := by
  rw [Entry.after, after, he, F.run]

/-- A call that is free to begin can be run through. -/
theorem exec_call [DecidableEq L] {s : State M L D C (Q × A)} {i : Nat} {q : Q}
    {next : Q × A → Client M L D C (Q × A)} {m : St}
    (ht : s.threads[i]? = some (.idle (.call (F.sec q) next)))
    (hm : M.lock (F.sec q).mode (s.mutexes (F.sec q).lock) = some m) :
    ∃ acts, exec step s acts = .ok
      ⟨Function.update s.mutexes (F.sec q).lock (M.unlock m), F.after q s.data,
        s.threads.set i (.idle (next (q, (F.alone q (s.data (F.sec q).place)).2))),
        s.history ++ [⟨i, F.sec q, q, (F.alone q (s.data (F.sec q).place)).2⟩]⟩ := by
  have h := exec_section ht hm
  rwa [F.run] at h

omit [DecidableEq D] in
theorem result_call {e : Entry M L D C (Q × A)} {q : Q} (he : e.call = F.sec q)
    (hresult : e.result = (e.call.body.run (d e.call.place)).2) :
    e.result = (q, (F.alone q (d (F.sec q).place)).2) := by
  rw [hresult, he, F.run]

theorem inTurn_of_serial (hs : Serial d h) (hcalls : ∀ e ∈ h, ∃ q, e.call = F.sec q) :
    F.InTurn d (h.map Entry.result) ∧ replay d h = F.afterAll d (h.map Entry.result) := by
  induction h generalizing d with
  | nil => exact ⟨trivial, rfl⟩
  | cons e h ih =>
    obtain ⟨q, hq⟩ := hcalls e List.mem_cons_self
    obtain ⟨hrest, hlast⟩ := ih hs.2 fun e he => hcalls e (List.mem_cons_of_mem _ he)
    rw [after_call hq] at hrest hlast
    rw [List.map_cons, result_call hq hs.1]
    refine ⟨⟨rfl, hrest⟩, ?_⟩
    rw [replay, List.foldl_cons, after_call hq, ← replay, hlast]
    rfl

end Calls

end Mumu.LockSections
