import Mumu.ConfigReload
import Mumu.Mutexes

namespace Mumu.LiveReloads

open Mumu.LogLevels Mumu.LogAppenders Mumu.Loggers Mumu.LogItems Mumu.PatternScanner
open Mumu.PointerHeap Mumu.KeyedSets Mumu.Executions Mumu.Mutexes Mumu.LogIniter
open Mumu.LoggerViews Mumu.ConfigReload

/-! ### One logger -/

/-- What `log` looks at in a logger. -/
structure Conf where
  level : Level
  appenders : List Ptr

inductive Change where
  | setLevel (level : Level)
  | setFormatter
  | clearAppender
  | addAppender (a : Ptr)
  | delAppender (a : Ptr)

namespace Change

def apply : Change → Conf → Conf
  | setLevel level, c => { c with level := level }
  | setFormatter, c => c
  | clearAppender, c => { c with appenders := [] }
  | addAppender a, c => { c with appenders := c.appenders ++ [a] }
  | delAppender a, c => { c with appenders := c.appenders.erase a }

/-- The level is set without the logger's mutex. -/
def guarded : Change → Bool
  | setLevel _ => false
  | _ => true

end Change

/-- The logger after some changes. -/
def after (c : Conf) (cs : List Change) : Conf := cs.foldl (fun c ch => ch.apply c) c

/-- What becomes of an event; it is delegated to the root logger, if there is one. -/
inductive Outcome where
  | filtered
  | handed (as : List Ptr)
  | delegated
  deriving DecidableEq

/-- What a logger that nobody changes does with an event. -/
def treat (c : Conf) (lvl : Level) : Outcome :=
  if c.level ≤ lvl then if c.appenders ≠ [] then .handed c.appenders else .delegated
  else .filtered

/-! ### Threads -/

/-- A call of `log`, through the macro that tests the level first, or not. -/
structure Call where
  lvl : Level
  tested : Bool
  deriving DecidableEq

/-- Where a thread is in `log`, with the calls it makes next. -/
inductive Thread where
  | idle (calls : List Call)
  | waiting (c : Call) (calls : List Call)
  | checking (c : Call) (calls : List Call)
  | choosing (c : Call) (calls : List Call)
  | handing (c : Call) (calls : List Call) (k : Nat) (got : List Ptr)
  | leaving (c : Call) (calls : List Call) (o : Outcome)

/-- Where the thread that changes the logger is in its next change. -/
inductive Phase where
  | before
  | inside
  | leaving
  deriving DecidableEq

structure State where
  conf : Conf
  mutex : Bool
  phase : Phase
  todo : List Change
  threads : List Thread
  history : List (Nat × Call × Outcome)

def State.start (c : Conf) (cs : List Change) (threads : List (List Call)) : State :=
  ⟨c, exclusive.free, .before, cs, threads.map .idle, []⟩

inductive Act where
  | change
  | log (i : Nat)

def changeStep (s : State) : Except Unit State :=
  match s.phase, s.todo with
  | .before, ch :: todo =>
    if ch.guarded then
      match exclusive.lock () s.mutex with
      | none => .error ()
      | some m => .ok { s with mutex := m, phase := .inside }
    else .ok { s with conf := ch.apply s.conf, todo := todo }
  | .inside, ch :: todo => .ok { s with conf := ch.apply s.conf, todo := todo, phase := .leaving }
  | .leaving, _ => .ok { s with mutex := exclusive.unlock s.mutex, phase := .before }
  | _, [] => .error ()

def logStep (s : State) (i : Nat) : Except Unit State :=
  match s.threads[i]? with
  | some (.idle (c :: calls)) =>
    if c.tested ∧ ¬ s.conf.level ≤ c.lvl then
      .ok { s with
        threads := s.threads.set i (.idle calls)
        history := s.history ++ [(i, c, .filtered)] }
    else .ok { s with threads := s.threads.set i (.waiting c calls) }
  | some (.waiting c calls) =>
    match exclusive.lock () s.mutex with
    | none => .error ()
    | some m => .ok { s with mutex := m, threads := s.threads.set i (.checking c calls) }
  | some (.checking c calls) =>
    let t := if s.conf.level ≤ c.lvl then .choosing c calls else .leaving c calls .filtered
    .ok { s with threads := s.threads.set i t }
  | some (.choosing c calls) =>
    let t := if s.conf.appenders ≠ [] then .handing c calls 0 [] else .leaving c calls .delegated
    .ok { s with threads := s.threads.set i t }
  | some (.handing c calls k got) =>
    let t := match s.conf.appenders[k]? with
      | some a => .handing c calls (k + 1) (got ++ [a])
      | none => .leaving c calls (.handed got)
    .ok { s with threads := s.threads.set i t }
  | some (.leaving c calls o) =>
    .ok { s with
      mutex := exclusive.unlock s.mutex
      threads := s.threads.set i (.idle calls)
      history := s.history ++ [(i, c, o)] }
  | _ => .error ()

def step (s : State) : Act → Except Unit State
  | .change => changeStep s
  | .log i => logStep s i

/-! ### No outcome is between two changes -/

/-- Inside the scope of the mutex. -/
def Thread.holds : Thread → Bool
  | idle _ | waiting _ _ => false
  | _ => true

/-- The logger has let the call pass, and has had these appenders since. -/
def Passed (c₀ : Conf) (done : List Change) (as : List Ptr) (c : Call) : Prop :=
  ∃ cs, cs <+: done ∧ (after c₀ cs).level ≤ c.lvl ∧ (after c₀ cs).appenders = as

/-- A call as the logger treats it after some of the changes. -/
def Treated (c₀ : Conf) (done : List Change) (c : Call) (o : Outcome) : Prop :=
  ∃ cs, cs <+: done ∧ o = treat (after c₀ cs) c.lvl

def Thread.Ok (c₀ : Conf) (done : List Change) (as : List Ptr) : Thread → Prop
  | idle _ | waiting _ _ | checking _ _ => True
  | choosing c _ => Passed c₀ done as c
  | handing c _ k got => Passed c₀ done as c ∧ as ≠ [] ∧ k ≤ as.length ∧ got = as.take k
  | leaving c _ o => Treated c₀ done c o

structure Inv (c₀ : Conf) (cs done : List Change) (s : State) : Prop where
  split : cs = done ++ s.todo
  conf : s.conf = after c₀ done
  mutex : s.threads.countP Thread.holds + (if s.phase = .before then 0 else 1) =
    if s.mutex then 1 else 0
  threads : ∀ t ∈ s.threads, t.Ok c₀ done s.conf.appenders
  history : ∀ e ∈ s.history, Treated c₀ done e.2.1 e.2.2

section

variable {c₀ : Conf} {done done' : List Change} {as : List Ptr} {c : Call} {o : Outcome}

theorem after_concat (c : Conf) (cs : List Change) (ch : Change) :
    after c (cs ++ [ch]) = ch.apply (after c cs) := by
  rw [after, List.foldl_append]
  rfl

theorem Passed.mono (h : Passed c₀ done as c) (hd : done <+: done') : Passed c₀ done' as c :=
  let ⟨cs, hcs, hlvl, has⟩ := h
  ⟨cs, hcs.trans hd, hlvl, has⟩

theorem Treated.mono (h : Treated c₀ done c o) (hd : done <+: done') : Treated c₀ done' c o :=
  let ⟨cs, hcs, ho⟩ := h
  ⟨cs, hcs.trans hd, ho⟩

theorem Thread.Ok.mono {t : Thread} (h : t.Ok c₀ done as) (hd : done <+: done') :
    t.Ok c₀ done' as := by
  cases t with
  | idle calls | waiting c calls | checking c calls => trivial
  | choosing c calls => exact Passed.mono h hd
  | handing c calls k got => exact ⟨h.1.mono hd, h.2⟩
  | leaving c calls o => exact Treated.mono h hd

theorem Thread.Ok.of_not_holds {t : Thread} (h : t.holds = false) : t.Ok c₀ done as := by
  cases t with
  | idle calls | waiting c calls => trivial
  | checking c calls | choosing c calls | handing c calls k got | leaving c calls o => cases h

theorem treat_passed (h : Passed c₀ done as c) :
    Treated c₀ done c (if as ≠ [] then .handed as else .delegated) := by
  obtain ⟨cs, hcs, hlvl, rfl⟩ := h
  exact ⟨cs, hcs, by rw [treat, if_pos hlvl]⟩

end

section

variable {c₀ : Conf} {cs done : List Change} {s s' : State}

theorem lock_some {b m : Bool} (h : exclusive.lock () b = some m) : b = false ∧ m = true := by
  cases b with
  | true => cases h
  | false => exact ⟨rfl, (Option.some.inj h).symm⟩

/-- Beside one holder of the mutex there is no other. -/
theorem no_other {n : Nat} {b : Bool} (h : n + 1 = if b then 1 else 0) : n = 0 := by
  split at h <;> omega

theorem taken {n n' k : Nat} (hn : n' = n + 1) (h : n + k = 0) : n' + k = 1 := by
  omega

theorem released {n n' k : Nat} {b : Bool} (hn : n' + 1 = n) (h : n + k = if b then 1 else 0) :
    n' + k = 0 := by
  split at h <;> omega

/-- A change makes the logger's configuration one that it has after the changes so far. -/
theorem change_inv (hs : Inv c₀ cs done s) {ch : Change} {todo : List Change}
    (htodo : s.todo = ch :: todo) (phase : Phase)
    (hmutex : s.threads.countP Thread.holds + (if phase = .before then 0 else 1) =
      if s.mutex then 1 else 0)
    (hok : ∀ t ∈ s.threads, t.Ok c₀ done (ch.apply s.conf).appenders) :
    Inv c₀ cs (done ++ [ch]) { s with conf := ch.apply s.conf, todo := todo, phase := phase } := by
  have hd : done <+: done ++ [ch] := List.prefix_append ..
  refine ⟨?_, ?_, hmutex, fun t ht => (hok t ht).mono hd, fun e he => (hs.history e he).mono hd⟩
  · rw [hs.split, htodo, List.append_assoc]
    rfl
  · rw [after_concat, ← hs.conf]

theorem changeStep_inv (hs : Inv c₀ cs done s) (h : changeStep s = .ok s') :
    ∃ done', Inv c₀ cs done' s' := by
  have hmutex := hs.mutex
  rw [changeStep] at h
  split at h
  · rename_i ch todo hphase htodo
    rw [hphase] at hmutex
    split at h
    · split at h
      · cases h
      · rename_i m hm
        cases h
        obtain ⟨hfree, rfl⟩ := lock_some hm
        rw [hfree] at hmutex
        exact ⟨done, hs.split, hs.conf, by simpa using hmutex, hs.threads, hs.history⟩
    · rename_i hguarded
      cases h
      -- the only change outside the mutex leaves the appenders alone
      have hsame : (ch.apply s.conf).appenders = s.conf.appenders := by
        cases ch with
        | setLevel level => rfl
        | setFormatter | clearAppender | addAppender a | delAppender a => exact absurd rfl hguarded
      refine ⟨done ++ [ch], change_inv hs htodo s.phase ?_ ?_⟩
      · rwa [hphase]
      · rw [hsame]
        exact hs.threads
  · rename_i ch todo hphase htodo
    cases h
    rw [hphase, if_neg (by decide)] at hmutex
    have hnone := no_other hmutex
    refine ⟨done ++ [ch], change_inv hs htodo .leaving (by rwa [if_neg (by decide)]) fun t ht => ?_⟩
    exact Thread.Ok.of_not_holds (by simpa using List.countP_eq_zero.mp hnone t ht)
  · rename_i hphase
    cases h
    rw [hphase, if_neg (by decide)] at hmutex
    refine ⟨done, hs.split, hs.conf, ?_, hs.threads, hs.history⟩
    have hnone := no_other hmutex
    rw [hnone]
    rfl
  · cases h

theorem ok_set (hs : Inv c₀ cs done s) {i : Nat} {t : Thread}
    (hok : t.Ok c₀ done s.conf.appenders) :
    ∀ u ∈ s.threads.set i t, u.Ok c₀ done s.conf.appenders := by
  intro u hu
  obtain hu | rfl := List.mem_or_eq_of_mem_set hu
  · exact hs.threads u hu
  · exact hok

/-- A step of a thread in `log` that neither takes nor releases the mutex. -/
theorem move_inv (hs : Inv c₀ cs done s) {i : Nat} {t u : Thread} (ht : s.threads[i]? = some t)
    (hsame : u.holds = t.holds) (hok : u.Ok c₀ done s.conf.appenders) :
    Inv c₀ cs done { s with threads := s.threads.set i u } := by
  have hcount := countP_set_add (p := Thread.holds) ht u
  rw [hsame] at hcount
  refine ⟨hs.split, hs.conf, ?_, ok_set hs hok, hs.history⟩
  rw [Nat.add_right_cancel hcount]
  exact hs.mutex

theorem logStep_inv (hs : Inv c₀ cs done s) {i : Nat} (h : logStep s i = .ok s') :
    Inv c₀ cs done s' := by
  rw [logStep] at h
  split at h
  · rename_i c calls ht
    split at h
    · rename_i hfails
      cases h
      have hmove := move_inv hs ht (u := .idle calls) rfl trivial
      refine ⟨hmove.split, hmove.conf, hmove.mutex, hmove.threads, fun e he => ?_⟩
      obtain he | he := List.mem_append.mp he
      · exact hs.history e he
      · rw [List.mem_singleton.mp he]
        refine ⟨done, List.prefix_rfl, ?_⟩
        rw [treat, if_neg (hs.conf ▸ hfails.2)]
    · cases h
      exact move_inv hs ht rfl trivial
  · rename_i c calls ht
    split at h
    · cases h
    · rename_i m hm
      cases h
      obtain ⟨hfree, rfl⟩ := lock_some hm
      have hcount : (s.threads.set i (.checking c calls)).countP Thread.holds =
        s.threads.countP Thread.holds + 1 :=
          countP_set_add (p := Thread.holds) ht (.checking c calls)
      have hmutex := hs.mutex
      rw [hfree, if_neg Bool.false_ne_true] at hmutex
      exact ⟨hs.split, hs.conf, taken hcount hmutex, ok_set hs trivial, hs.history⟩
  · rename_i c calls ht
    cases h
    split
    · rename_i hlvl
      exact move_inv hs ht rfl ⟨done, List.prefix_rfl, hs.conf ▸ hlvl, by rw [hs.conf]⟩
    · rename_i hlvl
      refine move_inv hs ht rfl ⟨done, List.prefix_rfl, ?_⟩
      rw [treat, if_neg (hs.conf ▸ hlvl)]
  · rename_i c calls ht
    cases h
    have hpassed : Passed c₀ done s.conf.appenders c := hs.threads _ (List.mem_of_getElem? ht)
    have htreated := treat_passed hpassed
    split
    · rename_i has
      exact move_inv hs ht rfl ⟨hpassed, has, Nat.zero_le _, rfl⟩
    · rename_i has
      rw [if_neg has] at htreated
      exact move_inv hs ht rfl htreated
  · rename_i c calls k got ht
    cases h
    obtain ⟨hpassed, has, hk, hgot⟩ : Passed c₀ done s.conf.appenders c ∧ s.conf.appenders ≠ [] ∧
      k ≤ s.conf.appenders.length ∧ got = s.conf.appenders.take k :=
        hs.threads _ (List.mem_of_getElem? ht)
    split
    · rename_i a ha
      obtain ⟨hlt, rfl⟩ := List.getElem?_eq_some_iff.mp ha
      refine move_inv hs ht rfl ⟨hpassed, has, hlt, ?_⟩
      rw [hgot, List.take_add_one, List.getElem?_eq_getElem hlt]
      rfl
    · rename_i hnone
      have htreated := treat_passed hpassed
      rw [if_pos has] at htreated
      rw [hgot, List.take_of_length_le (List.getElem?_eq_none_iff.mp hnone)]
      exact move_inv hs ht rfl htreated
  · rename_i c calls o ht
    cases h
    have hcount : (s.threads.set i (.idle calls)).countP Thread.holds + 1 =
      s.threads.countP Thread.holds := countP_set_add (p := Thread.holds) ht (.idle calls)
    have htreated : Treated c₀ done c o := hs.threads _ (List.mem_of_getElem? ht)
    refine ⟨hs.split, hs.conf, released hcount hs.mutex, ok_set hs trivial, fun e he => ?_⟩
    obtain he | he := List.mem_append.mp he
    · exact hs.history e he
    · rw [List.mem_singleton.mp he]
      exact htreated
  · cases h

theorem start_inv (c₀ : Conf) (cs : List Change) (threads : List (List Call)) :
    Inv c₀ cs [] (.start c₀ cs threads) := by
  have hidle : ∀ t ∈ threads.map Thread.idle, ∃ calls, t = .idle calls := by
    intro t ht
    obtain ⟨calls, _, rfl⟩ := List.mem_map.mp ht
    exact ⟨calls, rfl⟩
  refine ⟨rfl, rfl, ?_, fun t ht => ?_, fun e he => absurd he List.not_mem_nil⟩
  · have hnone : (threads.map Thread.idle).countP Thread.holds = 0 := by
      refine List.countP_eq_zero.mpr fun t ht => ?_
      obtain ⟨calls, rfl⟩ := hidle t ht
      exact Bool.false_ne_true
    exact hnone
  · obtain ⟨calls, rfl⟩ := hidle t ht
    trivial

theorem run_treated {threads : List (List Call)} {acts : List Act}
    (h : exec step (.start c₀ cs threads) acts = .ok s) :
    ∀ e ∈ s.history, Treated c₀ cs e.2.1 e.2.2 := by
  have hstep : ∀ s a s', True → (∃ done, Inv c₀ cs done s) → step s a = .ok s' →
      ∃ done, Inv c₀ cs done s' := by
    rintro s a s' - ⟨done, hs⟩ h
    cases a with
    | change => exact changeStep_inv hs h
    | log i => exact ⟨done, logStep_inv hs h⟩
  obtain ⟨done, hs⟩ :=
    exec_invariant hstep acts (fun _ _ => trivial) ⟨[], start_inv c₀ cs threads⟩ h
  exact fun e he => (hs.history e he).mono ⟨s.todo, hs.split.symm⟩

end

/-! ### Each of them is possible -/

section

variable (c : Conf) (todo : List Change) (threads : List Thread)
  (history : List (Nat × Call × Outcome))

theorem exec_change (ch : Change) :
    ∃ acts, exec step ⟨c, false, .before, ch :: todo, threads, history⟩ acts =
      .ok ⟨ch.apply c, false, .before, todo, threads, history⟩ := by
  cases ch with
  | setLevel level => exact ⟨[.change], rfl⟩
  | setFormatter | clearAppender | addAppender a | delAppender a =>
    exact ⟨[.change, .change, .change], rfl⟩

theorem exec_changes (cs : List Change) :
    ∃ acts, exec step ⟨c, false, .before, cs ++ todo, threads, history⟩ acts =
      .ok ⟨after c cs, false, .before, todo, threads, history⟩ := by
  induction cs generalizing c with
  | nil => exact ⟨[], rfl⟩
  | cons ch cs ih =>
    obtain ⟨acts, hacts⟩ := exec_change c (cs ++ todo) threads history ch
    obtain ⟨acts', hacts'⟩ := ih (ch.apply c)
    exact ⟨acts ++ acts', exec_append_ok hacts hacts'⟩

variable {threads} {i : Nat} {call : Call} {calls : List Call}

theorem exec_handing (m : Bool) {k : Nat} {got : List Ptr}
    (ht : threads[i]? = some (.handing call calls k got)) :
    ∃ acts, exec step ⟨c, m, .before, todo, threads, history⟩ acts =
      .ok ⟨c, m, .before, todo,
        threads.set i (.leaving call calls (.handed (got ++ c.appenders.drop k))), history⟩ := by
  induction hn : c.appenders.length - k generalizing threads k got with
  | zero =>
    have hnone : c.appenders[k]? = none := List.getElem?_eq_none (by omega)
    refine ⟨[.log i], exec_cons_ok ?_ rfl⟩
    rw [List.drop_of_length_le (by omega), List.append_nil]
    simp only [step, logStep, ht, hnone]
  | succ n ih =>
    have hlt : k < c.appenders.length := by omega
    have hsome : c.appenders[k]? = some c.appenders[k] := List.getElem?_eq_getElem hlt
    have ht' := List.getElem?_set_self (a := Thread.handing call calls (k + 1)
      (got ++ [c.appenders[k]])) (List.getElem?_eq_some_iff.mp ht).1
    obtain ⟨acts, hacts⟩ := ih ht' (by omega)
    refine ⟨.log i :: acts, exec_cons_ok ?_ (hacts.trans ?_)⟩
    · simp only [step, logStep, ht, hsome]
    · rw [List.set_set, List.append_assoc, List.singleton_append, List.getElem_cons_drop]

theorem exec_enter (ht : threads[i]? = some (.idle (call :: calls)))
    (htested : ¬ (call.tested ∧ ¬ c.level ≤ call.lvl)) :
    exec step ⟨c, false, .before, todo, threads, history⟩ [.log i, .log i] =
      .ok ⟨c, true, .before, todo, threads.set i (.checking call calls), history⟩ := by
  have hset := List.getElem?_set_self (a := Thread.waiting call calls)
    (List.getElem?_eq_some_iff.mp ht).1
  refine exec_cons_ok (t := ⟨c, false, .before, todo, threads.set i (.waiting call calls), history⟩)
    ?_ (exec_cons_ok (t := ⟨c, true, .before, todo,
      (threads.set i (.waiting call calls)).set i (.checking call calls), history⟩) ?_ ?_)
  · simp only [step, logStep, ht, if_neg htested]
  · simp only [step, logStep, hset]
    rfl
  · rw [List.set_set]
    rfl

theorem exec_leave {o : Outcome} (ht : threads[i]? = some (.leaving call calls o)) :
    exec step ⟨c, true, .before, todo, threads, history⟩ [.log i] =
      .ok ⟨c, false, .before, todo, threads.set i (.idle calls), history ++ [(i, call, o)]⟩ := by
  refine exec_cons_ok ?_ rfl
  simp only [step, logStep, ht]
  rfl

/-- A call that nobody interrupts. -/
theorem exec_log (ht : threads[i]? = some (.idle (call :: calls))) :
    ∃ acts, exec step ⟨c, false, .before, todo, threads, history⟩ acts =
      .ok ⟨c, false, .before, todo, threads.set i (.idle calls),
        history ++ [(i, call, treat c call.lvl)]⟩ := by
  have hset : ∀ t, (threads.set i t)[i]? = some t := fun t =>
    List.getElem?_set_self (List.getElem?_eq_some_iff.mp ht).1
  let inside (t : Thread) : State := ⟨c, true, .before, todo, threads.set i t, history⟩
  have hleave : ∀ o, exec step (inside (.leaving call calls o)) [.log i] =
      .ok ⟨c, false, .before, todo, threads.set i (.idle calls), history ++ [(i, call, o)]⟩ := by
    intro o
    rw [exec_leave c todo history (hset _), List.set_set]
  by_cases hlvl : c.level ≤ call.lvl
  · have henter := exec_enter c todo history ht fun h => h.2 hlvl
    have hcheck : step (inside (.checking call calls)) (.log i) =
        .ok (inside (.choosing call calls)) := by
      simp only [inside, step, logStep, hset, if_pos hlvl, List.set_set]
    rw [treat, if_pos hlvl]
    by_cases has : c.appenders ≠ []
    · have hchoose : step (inside (.choosing call calls)) (.log i) =
          .ok (inside (.handing call calls 0 [])) := by
        simp only [inside, step, logStep, hset, if_pos has, List.set_set]
      obtain ⟨acts, hacts⟩ := exec_handing c todo history true (hset (.handing call calls 0 []))
      rw [List.set_set, List.nil_append, List.drop_zero] at hacts
      rw [if_pos has]
      exact ⟨_, exec_append_ok henter (exec_cons_ok hcheck (exec_cons_ok hchoose
        (exec_append_ok hacts (hleave _))))⟩
    · have hchoose : step (inside (.choosing call calls)) (.log i) =
          .ok (inside (.leaving call calls .delegated)) := by
        simp only [inside, step, logStep, hset, if_neg has, List.set_set]
      rw [if_neg has]
      exact ⟨_, exec_append_ok henter (exec_cons_ok hcheck (exec_cons_ok hchoose (hleave _)))⟩
  · rw [treat, if_neg hlvl]
    by_cases htested : call.tested = true
    · refine ⟨[.log i], exec_cons_ok ?_ rfl⟩
      simp only [step, logStep, ht, if_pos (And.intro htested hlvl)]
    · have henter := exec_enter c todo history ht fun h => htested h.1
      have hcheck : step (inside (.checking call calls)) (.log i) =
          .ok (inside (.leaving call calls .filtered)) := by
        simp only [inside, step, logStep, hset, if_neg hlvl, List.set_set]
      exact ⟨_, exec_append_ok henter (exec_cons_ok hcheck (hleave _))⟩

theorem exec_calls (ht : threads[i]? = some (.idle calls)) (hc : call ∈ calls) :
    ∃ acts s, exec step ⟨c, false, .before, todo, threads, history⟩ acts = .ok s ∧
      (i, call, treat c call.lvl) ∈ s.history := by
  induction calls generalizing threads history with
  | nil => cases hc
  | cons first calls ih =>
    obtain ⟨acts, hacts⟩ := exec_log c todo history ht
    obtain rfl | hc := List.mem_cons.mp hc
    · exact ⟨acts, _, hacts, List.mem_append_right _ (List.mem_singleton.mpr rfl)⟩
    · obtain ⟨acts', s, hacts', hmem⟩ := ih (history ++ [(i, first, treat c first.lvl)])
        (List.getElem?_set_self (List.getElem?_eq_some_iff.mp ht).1) hc
      exact ⟨acts ++ acts', s, exec_append_ok hacts hacts', hmem⟩

end

/-- While a thread changes a logger, a call of another is treated as by the logger
after some number of the changes, and can be by that after any number of them. -/
theorem outcomes_iff (c₀ : Conf) (cs : List Change) {threads : List (List Call)} {i : Nat}
    {calls : List Call} (hi : threads[i]? = some calls) {call : Call} (hcall : call ∈ calls)
    (o : Outcome) :
    (∃ acts s, exec step (.start c₀ cs threads) acts = .ok s ∧ (i, call, o) ∈ s.history) ↔
      Treated c₀ cs call o := by
  constructor
  · rintro ⟨acts, s, h, hmem⟩
    exact run_treated h _ hmem
  · rintro ⟨pre, ⟨rest, rfl⟩, rfl⟩
    have ht : (threads.map Thread.idle)[i]? = some (.idle calls) := by
      rw [List.getElem?_map, hi, Option.map_some]
    obtain ⟨acts, hacts⟩ := exec_changes c₀ rest (threads.map .idle) [] pre
    obtain ⟨acts', s, hacts', hmem⟩ := exec_calls (after c₀ pre) rest [] ht hcall
    exact ⟨acts ++ acts', s, exec_append_ok hacts hacts', hmem⟩

/-! ### Reloads -/

variable {env : Env} {w : World} {p : Ptr} {l : Logger}

def confAt (l : Logger) : Conf := ⟨l.level, l.appenders⟩

/-- The world's `log` treats a call as a logger does that nobody changes. -/
theorem log_treat (hl : w.loggers.get? p = some l) (lvl : Level) (event : LogEvent) (hops : Nat) :
    w.log env lvl event (hops + 1) p =
      match treat (confAt l) lvl with
      | .filtered => .ok (w, [])
      | .handed as => World.appendersLog env lvl event as w
      | .delegated =>
        match l.root with
        | some r => w.log env lvl event hops r
        | none => .ok (w, []) := by
  rw [World.log, hl, treat]
  by_cases hlvl : (confAt l).level ≤ lvl
  · rw [if_pos hlvl]
    by_cases has : (confAt l).appenders ≠ []
    · rw [if_pos has]
      exact (if_pos hlvl).trans (if_pos has)
    · rw [if_neg has]
      exact (if_pos hlvl).trans (if_neg has)
  · rw [if_neg hlvl]
    exact if_neg hlvl

/-- The appenders that a definition asks for, made one after the other. -/
def newAppenders : Ptr → List LogAppenderDefine → List Ptr
  | _, [] => []
  | next, a :: as =>
    match destinationOf a with
    | none => newAppenders next as
    | some _ => next :: newAppenders (next + 1) as

/-- The changes of a logger that the listener makes for a definition. -/
def changes (i : LogDefine) (next : Ptr) : List Change :=
  .setLevel i.level :: ((if Accepted i.formatter then [.setFormatter] else []) ++
    .clearAppender :: (newAppenders next i.appenders).map .addAppender)

theorem after_adds (c : Conf) (as : List Ptr) :
    after c (as.map .addAppender) = ⟨c.level, c.appenders ++ as⟩ := by
  induction as generalizing c with
  | nil => simp [after]
  | cons a as ih =>
    rw [List.map_cons, after, List.foldl_cons, ← after, ih]
    simp [Change.apply]

theorem after_append (c : Conf) (cs cs' : List Change) :
    after c (cs ++ cs') = after (after c cs) cs' := List.foldl_append

theorem after_changes (c : Conf) (i : LogDefine) (next : Ptr) :
    after c (changes i next) = ⟨i.level, newAppenders next i.appenders⟩ := by
  rw [changes, after, List.foldl_cons, ← after, after_append]
  have hformatter : after (Change.apply (.setLevel i.level) c)
      (if Accepted i.formatter then [.setFormatter] else []) = ⟨i.level, c.appenders⟩ := by
    split <;> rfl
  rw [hformatter, after, List.foldl_cons, ← after, after_adds]
  rfl

theorem treated_nil (c : Conf) (call : Call) (o : Outcome) :
    Treated c [] call o ↔ o = treat c call.lvl := by
  constructor
  · rintro ⟨cs, hcs, rfl⟩
    rw [List.prefix_nil.mp hcs]
    rfl
  · rintro rfl
    exact ⟨[], List.prefix_rfl, rfl⟩

theorem treated_cons (c : Conf) (ch : Change) (cs : List Change) (call : Call) (o : Outcome) :
    Treated c (ch :: cs) call o ↔ o = treat c call.lvl ∨ Treated (ch.apply c) cs call o := by
  constructor
  · rintro ⟨pre, hpre, rfl⟩
    obtain rfl | ⟨rest, rfl, hrest⟩ := List.prefix_cons_iff.mp hpre
    · exact .inl rfl
    · exact .inr ⟨rest, hrest, rfl⟩
  · rintro (rfl | ⟨pre, hpre, rfl⟩)
    · exact ⟨[], List.nil_prefix, rfl⟩
    · exact ⟨ch :: pre, List.prefix_cons_iff.mpr (.inr ⟨pre, rfl, hpre⟩), rfl⟩

theorem treated_adds (c : Conf) (as : List Ptr) (call : Call) (o : Outcome) :
    Treated c (as.map .addAppender) call o ↔
      ∃ j ≤ as.length, o = treat ⟨c.level, c.appenders ++ as.take j⟩ call.lvl := by
  induction as generalizing c with
  | nil => simp [treated_nil]
  | cons a as ih =>
    rw [List.map_cons, treated_cons, ih]
    constructor
    · rintro (rfl | ⟨j, hj, rfl⟩)
      · exact ⟨0, Nat.zero_le _, by rw [List.take_zero, List.append_nil]⟩
      · exact ⟨j + 1, Nat.succ_le_succ hj, by simp [Change.apply]⟩
    · rintro ⟨j, hj, rfl⟩
      cases j with
      | zero => exact .inl (by rw [List.take_zero, List.append_nil])
      | succ j => exact .inr ⟨j, Nat.le_of_succ_le_succ hj, by simp [Change.apply]⟩

/-- The changes leave a call the old level and appenders, the new level and the old
appenders, or the new level and the first of the new appenders. -/
theorem treated_changes_iff (c : Conf) (i : LogDefine) (next : Ptr) (call : Call) (o : Outcome) :
    Treated c (changes i next) call o ↔
      o = treat c call.lvl ∨ o = treat ⟨i.level, c.appenders⟩ call.lvl ∨
        ∃ j ≤ (newAppenders next i.appenders).length,
          o = treat ⟨i.level, (newAppenders next i.appenders).take j⟩ call.lvl := by
  rw [changes, treated_cons]
  refine or_congr_right ?_
  split
  · rw [List.singleton_append, treated_cons, treated_cons, treated_adds]
    exact ⟨fun h => h.elim .inl id, .inr⟩
  · rw [List.nil_append, treated_cons, treated_adds]
    rfl

/-- The loop over the appenders of a definition. -/
theorem addsDefined_after (env : Env) (hl : w.loggers.get? p = some l)
    (as : List LogAppenderDefine) :
    ∃ l', (as.foldl (addDefined env p) w).loggers.get? p = some l' ∧
      confAt l' = ⟨l.level, l.appenders ++ newAppenders w.appenders.fresh as⟩ := by
  induction as generalizing w l with
  | nil => exact ⟨l, hl, by rw [newAppenders, List.append_nil]; rfl⟩
  | cons a as ih =>
    rw [List.foldl_cons, newAppenders]
    obtain ⟨hnone, heq⟩ | ⟨ap, ticks, hsome, heq⟩ := addDefined_cases env hl a
    · rw [Option.map_eq_none_iff.mp hnone, heq]
      exact ih hl
    · obtain ⟨d, hd, _⟩ := Option.map_eq_some_iff.mp hsome
      rw [hd, heq]
      let w' : World := { w with
        loggers := w.loggers.modify p
          (fun l => { l with appenders := l.appenders ++ [w.appenders.fresh] })
        appenders := w.appenders.alloc ap
        ticks := ticks }
      have hadded : w'.loggers.get? p =
          some { l with appenders := l.appenders ++ [w.appenders.fresh] } :=
        (Heap.get?_modify_self ..).trans (congrArg _ hl)
      obtain ⟨l', hl', hconf⟩ := ih hadded
      refine ⟨l', hl', hconf.trans ?_⟩
      have hfresh : (w.appenders.alloc ap).fresh = w.appenders.fresh + 1 := List.length_append
      rw [hfresh, List.append_assoc]
      rfl

/-- The part of a definition between the level and the appenders. -/
theorem setPattern_after (hl : w.loggers.get? p = some l) (i : LogDefine) :
    ∃ l', (if i.formatter ≠ [] then w.setFormatterPattern p i.formatter else w).loggers.get? p =
        some l' ∧ confAt l' = confAt l ∧
      (if i.formatter ≠ [] then w.setFormatterPattern p i.formatter else w).appenders.fresh =
        w.appenders.fresh := by
  split
  · rw [World.setFormatterPattern]
    split
    · exact ⟨l, hl, rfl, rfl⟩
    · rw [World.setFormatter, hl]
      exact ⟨{ l with formatter := _ }, (Heap.get?_modify_self ..).trans (congrArg _ hl), rfl,
        Heap.fresh_modifyAll ..⟩
  · exact ⟨l, hl, rfl, rfl⟩

theorem applyDefine_after (env : Env) (w : World) (i : LogDefine) {l : Logger}
    (hl : (w.getLogger i.name).1.loggers.get? (w.getLogger i.name).2 = some l) :
    ∃ l', (applyDefine env w i).loggers.get? (w.getLogger i.name).2 = some l' ∧
      confAt l' = after (confAt l) (changes i (w.getLogger i.name).1.appenders.fresh) := by
  rw [applyDefine]
  generalize w.getLogger i.name = found at hl ⊢
  obtain ⟨w, p⟩ := found
  dsimp only at hl ⊢
  have hlevel : (w.setLevel p i.level).loggers.get? p = some { l with level := i.level } :=
    (Heap.get?_modify_self ..).trans (congrArg _ hl)
  obtain ⟨l₂, hl₂, hconf, hfresh⟩ := setPattern_after hlevel i
  generalize (if i.formatter ≠ [] then (w.setLevel p i.level).setFormatterPattern p i.formatter
    else w.setLevel p i.level) = w₂ at hl₂ hfresh ⊢
  have hclear : (w₂.clearAppender p).loggers.get? p = some { l₂ with appenders := [] } :=
    (Heap.get?_modify_self ..).trans (congrArg _ hl₂)
  obtain ⟨l', hl', hadds⟩ := addsDefined_after env hclear i.appenders
  refine ⟨l', hl', hadds.trans ?_⟩
  have hfresh' : (w₂.clearAppender p).appenders.fresh = w.appenders.fresh := hfresh
  have hlevel₂ : l₂.level = i.level := congrArg Conf.level hconf
  rw [after_changes, hfresh', hlevel₂]
  rfl

/-- While the listener applies a definition to a logger, a call of another thread is
treated by the old level and appenders, by the new level and the old appenders, or
by the new level and some first ones of the new appenders; with none of these it
goes to the root logger. Each of them can happen. -/
theorem reload_outcomes_iff (env : Env) (w : World) (d : LogDefine) {l : Logger}
    (hl : (w.getLogger d.name).1.loggers.get? (w.getLogger d.name).2 = some l)
    {threads : List (List Call)} {i : Nat} {calls : List Call} (hi : threads[i]? = some calls)
    {call : Call} (hcall : call ∈ calls) (o : Outcome) :
    ∃ l', (applyDefine env w d).loggers.get? (w.getLogger d.name).2 = some l' ∧
      l'.level = d.level ∧
      ((∃ acts s, exec step (.start (confAt l)
          (changes d (w.getLogger d.name).1.appenders.fresh) threads) acts = .ok s ∧
          (i, call, o) ∈ s.history) ↔
        o = treat ⟨l.level, l.appenders⟩ call.lvl ∨ o = treat ⟨l'.level, l.appenders⟩ call.lvl ∨
          ∃ j ≤ l'.appenders.length, o = treat ⟨l'.level, l'.appenders.take j⟩ call.lvl) := by
  obtain ⟨l', hl', hconf⟩ := applyDefine_after env w d hl
  rw [after_changes] at hconf
  have hlevel : l'.level = d.level := congrArg Conf.level hconf
  have happenders : l'.appenders =
      newAppenders (w.getLogger d.name).1.appenders.fresh d.appenders :=
    congrArg Conf.appenders hconf
  refine ⟨l', hl', hlevel, ?_⟩
  rw [outcomes_iff _ _ hi hcall, treated_changes_iff, hlevel, happenders]
  rfl

/-- A line that passes the root logger's level while that is being redefined can be lost. -/
theorem reload_outcomes_iff_root :
    ∃ acts s, exec step (.start ⟨.debug, [0]⟩
        (changes ⟨World.rootName, .info, [], [⟨2, .debug, [], []⟩]⟩ 1) [[⟨.error, true⟩]]) acts =
          .ok s ∧
      (0, ⟨.error, true⟩, .delegated) ∈ s.history := by
  obtain ⟨l', _, hlevel, hiff⟩ := reload_outcomes_iff default World.initial
    ⟨World.rootName, .info, [], [⟨2, .debug, [], []⟩]⟩ (l := LoggerFrames.rootLogger) rfl
    (i := 0) (rfl : [[(⟨.error, true⟩ : Call)]][0]? = some [⟨.error, true⟩])
    (List.mem_singleton.mpr rfl) .delegated
  refine hiff.mpr (.inr (.inr ⟨0, Nat.zero_le _, ?_⟩))
  rw [hlevel, List.take_zero]
  rfl

end Mumu.LiveReloads
