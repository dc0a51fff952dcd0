import Mumu.ThreadHandshake

namespace Mumu.ThreadLifetime

open Mumu.Executions Mumu.Threads Mumu.ThreadHandshake

/-- Each pointer that `getThis` gave out, and each one that `setName` wrote
through, was that of an object not yet destroyed. -/
def Live (s : State) : Prop := ∀ a ∈ s.accesses, a.agent ≠ .run → a.alive

def Quiet (x : Start) (s : State) : Prop := ∀ c ∈ pending x s.new.run, ¬ Reaches c

/-- The object is destroyed only when no call that uses it is left. -/
def DestroysQuiet (x : Start) (s : State) : Act → Prop
  | .destroy => s.owner = .owning → Quiet x s
  | _ => True

structure Inv (x : Start) (s : State) : Prop where
  start : ThreadHandshake.Inv x s
  live : Live s
  quiet : s.owner = .gone → Quiet x s

variable {x : Start} {s t : State}

theorem initial_inv (x : Start) : Inv x (initial x) := ⟨ThreadHandshake.initial_inv x, nofun, nofun⟩

/-! ### Calls -/

/-- A call that uses a pointer to a destroyed object is seen. -/
theorem callback_stale (hthis : s.new.tThread = some x.address) (hgone : s.owner = .gone)
    {c : Call} (hc : Reaches c) : ¬ Live (s.callback c) := by
  have hstale : ∀ agent, agent ≠ .run → ¬ Live (s.access agent) := fun agent hne h => by
    have halive := h _ (List.mem_append_right _ (List.mem_singleton.mpr rfl)) hne
    simp [State.alive, hgone] at halive
  cases c with
  | getThis =>
    rw [State.callback, State.getThis, hthis]
    exact hstale .getThis (by decide)
  | setName name =>
    rw [State.callback, State.setName, if_neg hc, hthis]
    exact hstale .setName (by decide)

/-! ### Steps -/

theorem run_live (hs : Inv x s) (h : run x s = .ok t) : Live t := by
  rw [Live]
  obtain hsame | ⟨_, haccess⟩ | ⟨c, rest, agent, hr, hreach, _, haccess⟩ := run_accesses h
  · rw [hsame]
    exact hs.live
  · rw [haccess]
    exact forall_access hs.live fun hagent => absurd rfl hagent
  · have hgone : s.owner ≠ .gone := fun howner =>
      hs.quiet howner c (by simp [pending, hr]) hreach
    rw [haccess]
    exact forall_access hs.live fun _ => by simpa [State.alive] using hgone

/-- A step takes nothing but a first call away. -/
theorem run_pending (hs : ThreadHandshake.Inv x s) (h : run x s = .ok t) :
    pending x t.new.run = pending x s.new.run ∨
      ∃ c, pending x s.new.run = c :: pending x t.new.run ∧
        t = (s.callback c).goto (.callback (pending x t.new.run)) := by
  cases hr : s.new.run with
  | unborn | done =>
    rw [run, hr] at h
    cases h
  | setThis | copyName | setId | setSystemName | swapCb | notify =>
    simp only [run, hr] at h
    cases h
    exact .inl rfl
  | invoke =>
    have hown := hs.progress.ownCb
    simp only [hr, stage] at hown
    simp only [run, hr, hown] at h
    cases h
    exact .inl rfl
  | callback rest =>
    cases rest with
    | nil =>
      simp only [run, hr] at h
      cases h
      exact .inl rfl
    | cons c rest =>
      simp only [run, hr] at h
      cases h
      exact .inr ⟨c, rfl, rfl⟩

theorem run_inv (hs : Inv x s) (h : run x s = .ok t) : Inv x t := by
  refine ⟨ThreadHandshake.run_inv hs.start h, run_live hs h, fun howner c hc => ?_⟩
  apply hs.quiet ((run_frame h).1.symm.trans howner)
  obtain heq | ⟨d, hd, _⟩ := run_pending hs.start h
  · rw [← heq]
    exact hc
  · rw [hd]
    exact List.mem_cons_of_mem d hc

theorem step_inv (hs : Inv x s) {a : Act} (hquiet : DestroysQuiet x s a)
    (h : step x s a = .ok t) : Inv x t := by
  have hstart := ThreadHandshake.step_inv hs.start h
  cases a with
  | create =>
    rw [step] at h
    split at h
    · cases h
      exact ⟨hstart, hs.live, fun howner => by cases howner⟩
    · cases h
  | wait =>
    rw [step] at h
    split at h
    · cases h
      exact ⟨hstart, hs.live, fun howner => by cases howner⟩
    · cases h
  | join =>
    rw [step] at h
    split at h
    · rename_i howner
      split at h
      · cases h
        exact hs
      · split at h
        · cases h
          exact ⟨hstart, hs.live, hs.quiet⟩
        · cases h
    · cases h
  | destroy =>
    rw [step] at h
    split at h
    · rename_i howner
      cases h
      exact ⟨hstart, hs.live, fun _ => hquiet howner⟩
    · cases h
  | run => exact run_inv hs h

/-! ### Runs -/

/-- Every state that the new thread reaches from here on is live. -/
def StaysLive (x : Start) (s : State) : Prop :=
  ∀ n t, exec (step x) s (List.replicate n .run) = .ok t → Live t

theorem Inv.staysLive (hs : Inv x s) : StaysLive x s := by
  intro n t h
  have hrun : ∀ a ∈ List.replicate n Act.run, a = .run := fun a ha => List.eq_of_mem_replicate ha
  refine (exec_invariant (I := Inv x) (fun s a t ha hs hstep => ?_) _ hrun hs h).live
  subst ha
  exact run_inv hs hstep

theorem StaysLive.step (hs : StaysLive x s) (h : run x s = .ok t) : StaysLive x t :=
  fun n u hu => hs (n + 1) u (exec_cons_ok h hu)

/-- A call left when the object is gone will be made. -/
theorem not_staysLive {c : Call} (hs : ThreadHandshake.Inv x s) (hgone : s.owner = .gone)
    (hc : c ∈ pending x s.new.run) (hreach : Reaches c) : ¬ StaysLive x s := by
  intro hlive
  induction hn : todo x s.new.run using Nat.strong_induction_on generalizing s with
  | _ n ih =>
    have hstage := hs.handshake.notified (.inr hgone)
    have hdone : s.new.run ≠ .done := fun hr => by simp [hr, pending] at hc
    obtain ⟨t, ht, _, htodo⟩ := run_todo hs.progress (by omega) hdone
    have howner := (run_frame ht).1
    have hrest : c ∉ pending x t.new.run := fun hc' =>
      ih (todo x t.new.run) (by omega) (ThreadHandshake.run_inv hs ht) (howner.trans hgone) hc'
        (hlive.step ht) rfl
    obtain heq | ⟨d, hd, hcall⟩ := run_pending hs ht
    · rw [heq] at hrest
      exact hrest hc
    · rw [hd] at hc
      obtain rfl := (List.mem_cons.mp hc).resolve_right hrest
      have hthis := hs.progress.this
      rw [if_pos (by omega)] at hthis
      have hnow : Live t := hlive 1 t (exec_cons_ok ht rfl)
      rw [hcall] at hnow
      exact callback_stale hthis hgone hreach hnow

theorem step_destroys (s : State) (a : Act) (hs : Inv x s) (hbad : ¬ DestroysQuiet x s a) :
    ∃ t, step x s a = .ok t ∧ ¬ StaysLive x t := by
  cases a with
  | destroy =>
    simp only [DestroysQuiet, Quiet, not_forall, not_not] at hbad
    obtain ⟨howner, c, hc, hreach⟩ := hbad
    have hdestroy : step x s .destroy =
        .ok { s with owner := .gone, detached := s.detached || s.thread.thread ≠ 0 } := by
      rw [step, if_pos howner]
    exact ⟨_, hdestroy, not_staysLive (ThreadHandshake.step_inv hs.start hdestroy) rfl hc hreach⟩
  | _ => exact absurd trivial hbad

/-- The pointers are good throughout a run, and as long as the new thread goes on
after it, exactly if the object is destroyed only when the callback has no call
left that uses one. -/
theorem getThis_live_iff (x : Start) (acts : List Act) :
    (∀ pre s, pre <+: acts → exec (step x) (initial x) pre = .ok s → StaysLive x s) ↔
      Meets (step x) (DestroysQuiet x) (initial x) acts :=
  exec_always_iff (P := fun _ => True) (I := Inv x) (fun _ hs => hs.staysLive)
    (fun _ _ _ _ hs hquiet h => step_inv hs hquiet h)
    (fun s a _ hs hbad => step_destroys s a hs hbad) acts (fun _ _ => trivial) (initial_inv x)

/-- The owner destroys the object while the callback runs. -/
theorem getThis_stale :
    ∃ s, exec (step (calling .getThis)) (initial (calling .getThis))
        [.create, .run, .run, .run, .run, .run, .run, .wait, .run, .destroy, .run] = .ok s ∧
      s.owner = .gone ∧ s.getThis = some (calling .getThis).address ∧ ¬ Live s := by
  refine ⟨_, rfl, rfl, rfl, fun h => ?_⟩
  exact absurd (h ⟨.getThis, false, true⟩ (by decide) nofun) (by decide)

end Mumu.ThreadLifetime
