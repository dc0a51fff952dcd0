import Mathlib.Data.List.Basic
import Mathlib.Logic.Function.Basic
import Mumu.Executions
import Mumu.LogLevels
import Mumu.Mutexes
import Mumu.PointerHeap

namespace Mumu.AppenderOrder

open Mumu.LogLevels Mumu.PointerHeap Mumu.Executions Mumu.Mutexes

/-! ### Loggers -/

/-- What `log` looks at in a logger. -/
structure Conf where
  level : Level
  appenders : List Ptr
  root : Option Ptr

structure Setup where
  loggers : Ptr → Conf
  levels : Ptr → Level

structure Call (E : Type) where
  logger : Ptr
  lvl : Level
  event : E

/-- A logger that a call at a level comes to, from root to root. -/
inductive Reaches (x : Setup) (lvl : Level) (p : Ptr) : Ptr → Prop where
  | here : Reaches x lvl p p
  | root {q r : Ptr} (h : Reaches x lvl p q) (hlvl : (x.loggers q).level ≤ lvl)
      (hnil : (x.loggers q).appenders = []) (hroot : (x.loggers q).root = some r) :
      Reaches x lvl p r

variable {E : Type} (x : Setup)

/-- Which logger hands a call out to its appenders, if one does. -/
def HandedBy (c : Call E) : Option Ptr → Prop
  | some r =>
    Reaches x c.lvl c.logger r ∧ (x.loggers r).level ≤ c.lvl ∧ (x.loggers r).appenders ≠ []
  | none => ∃ q, Reaches x c.lvl c.logger q ∧
    ((x.loggers q).level ≤ c.lvl → (x.loggers q).appenders = [] ∧ (x.loggers q).root = none)

/-- What a call leaves in an appender, once some appenders have been called. -/
def shown (a : Ptr) (c : Call E) (as : List Ptr) : List (Call E) :=
  if x.levels a ≤ c.lvl then List.replicate (as.count a) c else []

theorem shown_nil (a : Ptr) (c : Call E) : shown x a c [] = [] := by
  rw [shown]
  split <;> rfl

theorem shown_concat (a b : Ptr) (c : Call E) (as : List Ptr) :
    shown x a c (as ++ [b]) =
      shown x a c as ++ if b = a ∧ x.levels a ≤ c.lvl then [c] else [] := by
  rw [shown, shown]
  by_cases hlvl : x.levels a ≤ c.lvl
  · by_cases hb : b = a
    · simp [hlvl, hb, List.count_append, List.replicate_succ']
    · simp [hlvl, hb, List.count_append]
  · simp [hlvl]

/-! ### Threads -/

/-- Where a thread is in `log`, with the loggers whose mutexes it has and the calls
it makes next. An appender's own section is one step. -/
inductive Thread (E : Type) where
  | idle (calls : List (Call E))
  | waiting (c : Call E) (held : List Ptr) (p : Ptr) (calls : List (Call E))
  | testing (c : Call E) (held : List Ptr) (p : Ptr) (calls : List (Call E))
  | handing (c : Call E) (held : List Ptr) (p : Ptr) (done rest : List Ptr)
      (calls : List (Call E))
  | leaving (held : List Ptr) (calls : List (Call E))

namespace Thread

def held : Thread E → List Ptr
  | idle _ => []
  | waiting _ held _ _ => held
  | testing _ held p _ => p :: held
  | handing _ held p _ _ _ => p :: held
  | leaving held _ => held

/-- The calls that are not yet handed out, or dropped. -/
def pending : Thread E → List (Call E)
  | idle calls => calls
  | waiting c _ _ calls => c :: calls
  | testing c _ _ calls => c :: calls
  | handing c _ _ _ _ calls => c :: calls
  | leaving _ calls => calls

/-- What a logger has left in an appender of the call that it is handing out. -/
def part (r a : Ptr) : Thread E → List (Call E)
  | handing c _ p done _ _ => if p = r then shown x a c done else []
  | _ => []

end Thread

structure Line (E : Type) where
  via : Ptr
  call : Call E

structure Entry (E : Type) where
  thread : Nat
  call : Call E
  hander : Option Ptr

/-- The lines in each appender, and a record of the past. -/
structure State (E : Type) where
  threads : List (Thread E)
  lines : Ptr → List (Line E)
  history : List (Entry E)

namespace State

def start (calls : List (List (Call E))) : State E := ⟨calls.map .idle, fun _ => [], []⟩

def goto (s : State E) (i : Nat) (t : Thread E) : State E :=
  { s with threads := s.threads.set i t }

/-- A call is done with, and the mutexes are left to be released. -/
def finish (s : State E) (i : Nat) (c : Call E) (hander : Option Ptr) (held : List Ptr)
    (calls : List (Call E)) : State E :=
  { s with
    threads := s.threads.set i (.leaving held calls)
    history := s.history ++ [⟨i, c, hander⟩] }

def write (s : State E) (a p : Ptr) (c : Call E) : State E :=
  { s with
    lines := if x.levels a ≤ c.lvl then Function.update s.lines a (s.lines a ++ [⟨p, c⟩])
      else s.lines }

/-- The calls that a logger has handed to an appender, as they stand there. -/
def calls (s : State E) (r a : Ptr) : List (Call E) :=
  ((s.lines a).filter (fun l => l.via = r)).map Line.call

end State

def step (s : State E) (i : Nat) : Except Unit (State E) :=
  match s.threads[i]? with
  | some (.idle (c :: calls)) => .ok (s.goto i (.waiting c [] c.logger calls))
  | some (.waiting c held p calls) =>
    if ∀ t ∈ s.threads, p ∉ t.held then .ok (s.goto i (.testing c held p calls)) else .error ()
  | some (.testing c held p calls) =>
    if (x.loggers p).level ≤ c.lvl then
      if (x.loggers p).appenders ≠ [] then
        .ok (s.goto i (.handing c held p [] (x.loggers p).appenders calls))
      else
        match (x.loggers p).root with
        | none => .ok (s.finish i c none (p :: held) calls)
        | some r => .ok (s.goto i (.waiting c (p :: held) r calls))
    else .ok (s.finish i c none (p :: held) calls)
  | some (.handing c held p done (a :: rest) calls) =>
    .ok ((s.write x a p c).goto i (.handing c held p (done ++ [a]) rest calls))
  | some (.handing c held p _ [] calls) => .ok (s.finish i c (some p) (p :: held) calls)
  | some (.leaving (_ :: held) calls) => .ok (s.goto i (.leaving held calls))
  | some (.leaving [] calls) => .ok (s.goto i (.idle calls))
  | _ => .error ()

/-! ### What a run keeps -/

/-- What the calls of a history have left in an appender through a logger. -/
def past (history : List (Entry E)) (r a : Ptr) : List (Call E) :=
  history.flatMap fun e =>
    if e.hander = some r then shown x a e.call (x.loggers r).appenders else []

theorem past_concat (history : List (Entry E)) (e : Entry E) (r a : Ptr) :
    past x (history ++ [e]) r a = past x history r a ++
      if e.hander = some r then shown x a e.call (x.loggers r).appenders else [] := by
  simp [past]

/-- A thread is at a logger that its call leads to. -/
def Thread.OnPath : Thread E → Prop
  | waiting c _ p _ => Reaches x c.lvl c.logger p
  | testing c _ p _ => Reaches x c.lvl c.logger p
  | handing c _ p done rest _ => HandedBy x c (some p) ∧ done ++ rest = (x.loggers p).appenders
  | _ => True

structure Inv (calls : List (List (Call E))) (s : State E) : Prop where
  exclusive : ∀ (i j : Nat) (t u : Thread E) (p : Ptr), s.threads[i]? = some t →
    s.threads[j]? = some u → p ∈ t.held → p ∈ u.held → i = j
  path : ∀ t ∈ s.threads, t.OnPath x
  own : ∀ (i : Nat) (cs : List (Call E)), calls[i]? = some cs → ∃ t, s.threads[i]? = some t ∧
    cs = (s.history.filter (fun e => e.thread = i)).map Entry.call ++ t.pending
  handed : ∀ e ∈ s.history, HandedBy x e.call e.hander
  lines : ∀ r a, s.calls r a = past x s.history r a ++ s.threads.flatMap (Thread.part x r a)

theorem part_of_not_held {r : Ptr} {t : Thread E} (hr : r ∉ t.held) (a : Ptr) :
    t.part x r a = [] := by
  cases t with
  | handing c held p done rest calls =>
    have hp : p ≠ r := fun h => hr (h ▸ List.mem_cons_self)
    exact if_neg hp
  | idle calls | waiting c held p calls | testing c held p calls | leaving held calls => rfl

variable {x : Setup} {calls : List (List (Call E))} {s : State E} {i : Nat} {t : Thread E}

/-- Nobody else hands out at a logger whose mutex a thread has. -/
theorem Inv.part_alone (hs : Inv x calls s) (ht : s.threads[i]? = some t) {r : Ptr}
    (hr : r ∈ t.held) (a : Ptr) : s.threads.flatMap (Thread.part x r a) = t.part x r a := by
  refine flatMap_alone ht fun j u hj hu => part_of_not_held x (fun hru => hj ?_) a
  exact hs.exclusive j i u t r hu ht hru hr

theorem set_exclusive (hs : Inv x calls s) (ht : s.threads[i]? = some t) {u : Thread E}
    (hheld : ∀ p ∈ u.held, p ∈ t.held ∨ ∀ v ∈ s.threads, p ∉ v.held) :
    ∀ (j k : Nat) (v w : Thread E) (p : Ptr), (s.threads.set i u)[j]? = some v →
      (s.threads.set i u)[k]? = some w → p ∈ v.held → p ∈ w.held → j = k := by
  -- a mutex that is new to the thread is nobody else's
  have hother : ∀ (j : Nat) (v : Thread E) (p : Ptr), j ≠ i → s.threads[j]? = some v →
      p ∈ v.held → p ∉ u.held := by
    intro j v p hj hv hpv hpu
    obtain hpt | hfree := hheld p hpu
    · exact hj (hs.exclusive j i v t p hv ht hpv hpt)
    · exact hfree v (List.mem_of_getElem? hv) hpv
  intro j k v w p hv hw hpv hpw
  obtain ⟨rfl, rfl⟩ | ⟨hj, hv'⟩ := mem_set_cases hv
  · obtain ⟨rfl, -⟩ | ⟨hk, hw'⟩ := mem_set_cases hw
    · rfl
    · exact absurd hpv (hother k w p hk hw' hpw)
  · obtain ⟨rfl, rfl⟩ | ⟨hk, hw'⟩ := mem_set_cases hw
    · exact absurd hpw (hother j v p hj hv' hpv)
    · exact hs.exclusive j k v w p hv' hw' hpv hpw

theorem set_path (hs : Inv x calls s) {u : Thread E} (hu : u.OnPath x) :
    ∀ v ∈ s.threads.set i u, v.OnPath x := by
  intro v hv
  obtain hv | rfl := List.mem_or_eq_of_mem_set hv
  · exact hs.path v hv
  · exact hu

theorem set_own (hs : Inv x calls s) (ht : s.threads[i]? = some t) {u : Thread E}
    (hpending : u.pending = t.pending) (j : Nat) (cs : List (Call E)) (hcs : calls[j]? = some cs) :
    ∃ v, (s.threads.set i u)[j]? = some v ∧
      cs = (s.history.filter (fun e => e.thread = j)).map Entry.call ++ v.pending := by
  obtain ⟨v, hv, hsplit⟩ := hs.own j cs hcs
  by_cases hj : j = i
  · subst hj
    obtain rfl := Option.some.inj (hv.symm.trans ht)
    exact ⟨u, List.getElem?_set_self (List.getElem?_eq_some_iff.mp ht).1, hpending ▸ hsplit⟩
  · exact ⟨v, (List.getElem?_set_ne (Ne.symm hj)).trans hv, hsplit⟩

theorem goto_inv (hs : Inv x calls s) (ht : s.threads[i]? = some t) {u : Thread E}
    (hheld : ∀ p ∈ u.held, p ∈ t.held ∨ ∀ v ∈ s.threads, p ∉ v.held) (hpath : u.OnPath x)
    (hpending : u.pending = t.pending) (hpart : ∀ r a, u.part x r a = t.part x r a) :
    Inv x calls (s.goto i u) where
  exclusive := set_exclusive hs ht hheld
  path := set_path hs hpath
  own := set_own hs ht hpending
  handed := hs.handed
  lines r a := by
    refine (hs.lines r a).trans (congrArg _ ?_)
    exact (flatMap_set ht (hpart r a)).symm

theorem finish_inv (hs : Inv x calls s) (ht : s.threads[i]? = some t) {c : Call E}
    {hander : Option Ptr} {cs : List (Call E)} (hhanded : HandedBy x c hander)
    (hpending : t.pending = c :: cs) (hhander : ∀ r, hander = some r → r ∈ t.held)
    (hpart : ∀ r a, t.part x r a =
      if hander = some r then shown x a c (x.loggers r).appenders else []) :
    Inv x calls (s.finish i c hander t.held cs) where
  exclusive := set_exclusive hs ht fun _ hp => .inl hp
  path := set_path hs trivial
  own := by
    intro j all hall
    obtain ⟨v, hv, hsplit⟩ := hs.own j all hall
    by_cases hj : j = i
    · subst hj
      obtain rfl := Option.some.inj (hv.symm.trans ht)
      refine ⟨_, List.getElem?_set_self (List.getElem?_eq_some_iff.mp ht).1, ?_⟩
      rw [hsplit, hpending]
      simp [State.finish, Thread.pending]
    · refine ⟨v, (List.getElem?_set_ne (Ne.symm hj)).trans hv, ?_⟩
      simpa [State.finish, Ne.symm hj] using hsplit
  handed e he := by
    obtain he | he := List.mem_append.mp he
    · exact hs.handed e he
    · obtain rfl := List.mem_singleton.mp he
      exact hhanded
  lines r a := by
    have hlines := hs.lines r a
    rw [State.finish, past_concat]
    by_cases hr : hander = some r
    · have halone := hs.part_alone ht (hhander r hr) a
      have hnone : (s.threads.set i (.leaving t.held cs)).flatMap (Thread.part x r a) = [] := by
        apply flatMap_alone (List.getElem?_set_self (List.getElem?_eq_some_iff.mp ht).1)
        intro j u hj hu
        rw [List.getElem?_set_ne hj.symm] at hu
        refine part_of_not_held x (fun hru => hj ?_) a
        exact hs.exclusive j i u t r hu ht hru (hhander r hr)
      rw [halone, hpart] at hlines
      rw [hnone, List.append_nil]
      exact hlines
    · have hsame : (s.threads.set i (.leaving t.held cs)).flatMap (Thread.part x r a) =
          s.threads.flatMap (Thread.part x r a) :=
        flatMap_set ht (by rw [hpart, if_neg hr]; rfl)
      rw [if_neg hr, List.append_nil, hsame]
      exact hlines

theorem write_calls (s : State E) (a p : Ptr) (c : Call E) (r b : Ptr) :
    (s.write x a p c).calls r b =
      s.calls r b ++ if p = r ∧ a = b ∧ x.levels b ≤ c.lvl then [c] else [] := by
  simp only [State.calls, State.write]
  by_cases hab : a = b
  · subst hab
    split
    · rename_i hlvl
      rw [Function.update_self, List.filter_append, List.map_append]
      by_cases hp : p = r <;> simp [hp, hlvl]
    · rename_i hlvl
      rw [if_neg fun h => hlvl h.2.2, List.append_nil]
  · have hnot : ¬ (p = r ∧ a = b ∧ x.levels b ≤ c.lvl) := fun h => hab h.2.1
    rw [if_neg hnot, List.append_nil]
    split
    · rw [Function.update_of_ne (Ne.symm hab)]
    · rfl

theorem write_inv (hs : Inv x calls s) {c : Call E} {held : List Ptr} {p a : Ptr}
    {done rest : List Ptr} {cs : List (Call E)}
    (ht : s.threads[i]? = some (.handing c held p done (a :: rest) cs)) :
    Inv x calls ((s.write x a p c).goto i (.handing c held p (done ++ [a]) rest cs)) := by
  obtain ⟨hhanded, hrest⟩ := hs.path _ (List.mem_of_getElem? ht)
  refine ⟨set_exclusive hs ht fun _ hp => .inl hp, set_path hs ⟨hhanded, ?_⟩, set_own hs ht rfl,
    hs.handed, ?_⟩
  · rw [List.append_assoc]
    exact hrest
  · intro r b
    refine (write_calls s a p c r b).trans ?_
    rw [hs.lines r b, List.append_assoc]
    refine congrArg _ ?_
    by_cases hp : p = r
    · subst hp
      have hself := List.getElem?_set_self (List.getElem?_eq_some_iff.mp ht).1
        (a := Thread.handing c held p (done ++ [a]) rest cs)
      have hnew : (s.threads.set i (.handing c held p (done ++ [a]) rest cs)).flatMap
          (Thread.part x p b) = shown x b c (done ++ [a]) :=
        (flatMap_alone hself fun j u hj hu => by
          rw [List.getElem?_set_ne hj.symm] at hu
          refine part_of_not_held x (fun hru => hj ?_) b
          exact hs.exclusive j i u _ p hu ht hru List.mem_cons_self).trans (if_pos rfl)
      have hold : Thread.part x p b (.handing c held p done (a :: rest) cs) = shown x b c done :=
        if_pos rfl
      refine Eq.trans ?_ hnew.symm
      rw [hs.part_alone ht List.mem_cons_self, hold, shown_concat]
      simp only [true_and]
    · rw [if_neg fun h => hp h.1, List.append_nil]
      refine (flatMap_set ht ?_).symm
      simp only [Thread.part, if_neg hp]

theorem step_inv (s : State E) (i : Nat) (s' : State E) (_ : True) (hs : Inv x calls s)
    (h : step x s i = .ok s') : Inv x calls s' := by
  rw [step] at h
  split at h
  · rename_i c cs ht
    cases h
    exact goto_inv hs ht nofun .here rfl fun _ _ => rfl
  · rename_i c held p cs ht
    split at h
    · rename_i hfree
      cases h
      have hpath : Thread.OnPath x (.waiting c held p cs) := hs.path _ (List.mem_of_getElem? ht)
      refine goto_inv hs ht (fun q hq => ?_) hpath rfl fun _ _ => rfl
      obtain rfl | hq := List.mem_cons.mp hq
      · exact .inr hfree
      · exact .inl hq
    · cases h
  · rename_i c held p cs ht
    have hreach : Reaches x c.lvl c.logger p := hs.path _ (List.mem_of_getElem? ht)
    split at h
    · rename_i hlvl
      split at h
      · rename_i happenders
        cases h
        refine goto_inv hs ht (fun _ hq => .inl hq) ⟨⟨hreach, hlvl, happenders⟩, rfl⟩ rfl
          fun r a => ?_
        rw [Thread.part, shown_nil, ite_self]
        rfl
      · rename_i happenders
        rw [not_not] at happenders
        split at h
        · rename_i hroot
          cases h
          exact finish_inv hs ht ⟨p, hreach, fun _ => ⟨happenders, hroot⟩⟩ rfl nofun fun _ _ => rfl
        · rename_i r hroot
          cases h
          exact goto_inv hs ht (fun _ hq => .inl hq) (hreach.root hlvl happenders hroot) rfl
            fun _ _ => rfl
    · rename_i hlvl
      cases h
      exact finish_inv hs ht ⟨p, hreach, fun h => absurd h hlvl⟩ rfl nofun fun _ _ => rfl
  · rename_i c held p done a rest cs ht
    cases h
    exact write_inv hs ht
  · rename_i c held p done cs ht
    cases h
    obtain ⟨hhanded, hdone⟩ := hs.path _ (List.mem_of_getElem? ht)
    rw [List.append_nil] at hdone
    refine finish_inv hs ht hhanded rfl (fun r hr => ?_) fun r a => ?_
    · rw [← Option.some.inj hr]
      exact List.mem_cons_self
    · rw [Thread.part, hdone]
      by_cases hp : p = r
      · subst hp
        simp
      · rw [if_neg hp, if_neg fun h => hp (Option.some.inj h)]
  · rename_i q held cs ht
    cases h
    exact goto_inv hs ht (fun p hp => .inl (List.mem_cons_of_mem q hp)) trivial rfl fun _ _ => rfl
  · rename_i cs ht
    cases h
    exact goto_inv hs ht nofun trivial rfl fun _ _ => rfl
  · cases h

theorem start_inv (x : Setup) (calls : List (List (Call E))) : Inv x calls (.start calls) := by
  have hidle : ∀ t ∈ (State.start calls).threads, ∃ cs, t = .idle cs := by
    intro t ht
    obtain ⟨cs, -, rfl⟩ := List.mem_map.mp ht
    exact ⟨cs, rfl⟩
  refine ⟨fun i j t u p hi _ hp _ => ?_, fun t ht => ?_, fun i cs hcs => ?_, nofun, fun r a => ?_⟩
  · obtain ⟨cs, rfl⟩ := hidle t (List.mem_of_getElem? hi)
    cases hp
  · obtain ⟨cs, rfl⟩ := hidle t ht
    trivial
  · exact ⟨.idle cs, by rw [State.start, List.getElem?_map, hcs, Option.map_some], rfl⟩
  · have hnone : (State.start calls).threads.flatMap (Thread.part x r a) = [] :=
      List.flatMap_eq_nil_iff.mpr fun t ht => by
        obtain ⟨cs, rfl⟩ := hidle t ht
        rfl
    rw [hnone]
    rfl

/-! ### The order in the appenders -/

/-- Each thread's calls are done with in its own order, each handed out by the
logger that it leads to, or dropped. What a logger has handed to its appenders
stands in all of them in the one order of these calls; while it hands one out the
first appenders have it already. -/
structure Agree (x : Setup) (calls : List (List (Call E))) (s : State E) : Prop where
  own : ∀ (i : Nat) (cs : List (Call E)), calls[i]? = some cs → ∃ t, s.threads[i]? = some t ∧
    cs = (s.history.filter (fun e => e.thread = i)).map Entry.call ++ t.pending
  handed : ∀ e ∈ s.history, HandedBy x e.call e.hander
  settled : ∀ r, (∀ t ∈ s.threads, r ∉ t.held) → ∀ a, s.calls r a = past x s.history r a
  served : ∀ r, (∀ a, s.calls r a = past x s.history r a) ∨
    ∃ c done, done <+: (x.loggers r).appenders ∧
      ∀ a, s.calls r a = past x s.history r a ++ shown x a c done
  same : ∀ r, (∀ t ∈ s.threads, r ∉ t.held) → ∀ a b,
    (x.loggers r).appenders.count a = (x.loggers r).appenders.count b →
      x.levels a = x.levels b → s.calls r a = s.calls r b

theorem Inv.settled (hs : Inv x calls s) {r : Ptr} (hr : ∀ t ∈ s.threads, r ∉ t.held) (a : Ptr) :
    s.calls r a = past x s.history r a := by
  have hnone : s.threads.flatMap (Thread.part x r a) = [] :=
    List.flatMap_eq_nil_iff.mpr fun t ht => part_of_not_held x (hr t ht) a
  rw [hs.lines, hnone, List.append_nil]

theorem Inv.served (hs : Inv x calls s) (r : Ptr) :
    (∀ a, s.calls r a = past x s.history r a) ∨
      ∃ c done, done <+: (x.loggers r).appenders ∧
        ∀ a, s.calls r a = past x s.history r a ++ shown x a c done := by
  by_cases hr : ∀ t ∈ s.threads, r ∉ t.held
  · exact .inl (hs.settled hr)
  · simp only [not_forall, not_not] at hr
    obtain ⟨t, hmem, hheld⟩ := hr
    obtain ⟨i, ht⟩ := List.getElem?_of_mem hmem
    have halone : ∀ a, s.calls r a = past x s.history r a ++ t.part x r a := fun a => by
      rw [hs.lines, hs.part_alone ht hheld]
    have hpath := hs.path t hmem
    cases t with
    | handing c held p done rest cs =>
      by_cases hp : p = r
      · subst hp
        exact .inr ⟨c, done, ⟨rest, hpath.2⟩, fun a => (halone a).trans (by simp [Thread.part])⟩
      · exact .inl fun a => (halone a).trans (by simp [Thread.part, hp])
    | idle cs | waiting c held p cs | testing c held p cs | leaving held cs =>
      exact .inl fun a => (halone a).trans (List.append_nil _)

theorem past_congr (history : List (Entry E)) {r a b : Ptr}
    (hcount : (x.loggers r).appenders.count a = (x.loggers r).appenders.count b)
    (hlevel : x.levels a = x.levels b) : past x history r a = past x history r b := by
  simp only [past, shown, hcount, hlevel]

/-- Threads that log through any loggers at the same time. -/
theorem run_agrees (x : Setup) (calls : List (List (Call E))) (acts : List Nat) (s : State E)
    (h : exec (step x) (.start calls) acts = .ok s) : Agree x calls s := by
  have hs : Inv x calls s :=
    exec_invariant step_inv acts (fun _ _ => trivial) (start_inv x calls) h
  refine ⟨hs.own, hs.handed, fun r hr => hs.settled hr, hs.served, fun r hr a b hcount hlevel => ?_⟩
  rw [hs.settled hr, hs.settled hr, past_congr s.history hcount hlevel]

/-- Logger 1 delegates to the root logger 0, which has the appenders 0 and 1. -/
def delegating : Setup where
  loggers p := if p = 0 then ⟨.debug, [0, 1], none⟩ else ⟨.debug, [], some 0⟩
  levels _ := .debug

theorem run_agrees_delegating :
    ∃ s, exec (step delegating)
        (.start [[⟨0, .info, 'a'⟩], [⟨1, .info, 'b'⟩]])
        [1, 1, 0, 0, 1, 0, 0, 0, 0, 0, 1, 1, 1, 1, 1, 1, 1, 1] = .ok s ∧
      Agree delegating [[⟨0, .info, 'a'⟩], [⟨1, .info, 'b'⟩]] s := by
  have hends : (exec (step delegating) (.start [[⟨0, .info, 'a'⟩], [⟨1, .info, 'b'⟩]])
      [1, 1, 0, 0, 1, 0, 0, 0, 0, 0, 1, 1, 1, 1, 1, 1, 1, 1]).toBool = true := by decide +kernel
  obtain ⟨s, hs⟩ := exec_ok_of_toBool hends
  exact ⟨s, hs, run_agrees delegating _ _ s hs⟩

end Mumu.AppenderOrder
