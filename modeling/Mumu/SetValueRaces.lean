import Mathlib.Data.List.Chain
import Mathlib.Logic.Function.Basic
import Mumu.ConfigVars
import Mumu.Executions

namespace Mumu.SetValueRaces

open Mumu.KeyedSets Mumu.Executions Mumu.ConfigVars

variable {σ ε T θ : Type}

/-- A variable that threads share. A thread between the two sections of a call
has a value pending. -/
structure State (σ ε T θ : Type) where
  var : ConfigVar σ ε T
  surroundings : σ
  pending : θ → Option T
  calls : List (Call T)

namespace State

def start (var : ConfigVar σ ε T) (surroundings : σ) : State σ ε T θ :=
  ⟨var, surroundings, fun _ => none, []⟩

def Idle (s : State σ ε T θ) : Prop := ∀ th, s.pending th = none

end State

inductive Action (T θ : Type) where
  | read (th : θ) (v : T)
  | write (th : θ)

/-! ### Agreement of the listeners with the stored value -/

def Linked (cs : List (T × T)) : Prop := cs.IsChain (fun a b => b.1 = a.2)

/-- Each listener has been told of a chain of changes, and while no call is in
progress the stored value is the last it was told. -/
def Agreeing (s : State σ ε T θ) : Prop :=
  ∀ e ∈ s.var.cbs, Linked (told e.1 s.calls) ∧
    (s.Idle → ∀ c ∈ (told e.1 s.calls).getLast?, s.var.getValue = c.2)

theorem linked_concat {cs : List (T × T)} {c : T × T} :
    Linked (cs ++ [c]) ↔ Linked cs ∧ ∀ d ∈ cs.getLast?, c.1 = d.2 := by
  rw [Linked, List.isChain_append]
  simp [Linked]

/-- The one call in progress, if any, is the one the listeners were last told of. -/
inductive Orderly (s : State σ ε T θ) : Prop
  | idle (h : s.Idle) (hagree : Agreeing s)
  | busy (th : θ) (v : T) (hth : s.pending th = some v) (hothers : ∀ th' ≠ th, s.pending th' = none)
      (hne : v ≠ s.var.val)
      (htold : ∀ e ∈ s.var.cbs, Linked (told e.1 s.calls) ∧
        (told e.1 s.calls).getLast? = some (s.var.val, v))

theorem Orderly.agreeing {s : State σ ε T θ} (h : Orderly s) : Agreeing s := by
  cases h with
  | idle _ hagree => exact hagree
  | busy th v hth _ _ htold =>
    refine fun e he => ⟨(htold e he).1, fun hidle => ?_⟩
    rw [hidle th] at hth
    cases hth

/-! ### Interleavings -/

variable [DecidableEq T] [DecidableEq θ]

/-- A thread starts a call when it is in none, and finishes the one it is in.
An exception of a listener ends the call after its first section. -/
def step (s : State σ ε T θ) : Action T θ → Except Unit (State σ ε T θ)
  | .read th v =>
    match s.pending th with
    | some _ => .error ()
    | none =>
      match s.var.setValueRead v s.surroundings with
      | none => .ok s
      | some r =>
        let s := { s with surroundings := r.state, calls := s.calls ++ r.calls }
        match r.outcome with
        | .error _ => .ok s
        | .ok () => .ok { s with pending := Function.update s.pending th (some v) }
  | .write th =>
    match s.pending th with
    | none => .error ()
    | some v =>
      .ok { s with var := s.var.setValueWrite v, pending := Function.update s.pending th none }

/-- A call that changes the value starts when no other is between its sections,
and the listeners return from it. -/
def Action.Clear (s : State σ ε T θ) : Action T θ → Prop
  | .read _ v =>
    v ≠ s.var.val → s.Idle ∧ Returns s.var.val v s.var.cbs.toList s.surroundings
  | .write _ => True

def Serial (s : State σ ε T θ) : List (Action T θ) → Prop
  | [] => True
  | a :: as => ∀ t, step s a = .ok t → a.Clear s ∧ Serial t as

theorem write_orderly {s t : State σ ε T θ} (hs : Orderly s) {th : θ}
    (h : step s (.write th) = .ok t) : Orderly t := by
  unfold step at h
  dsimp only at h
  split at h
  · cases h
  · rename_i v hv
    obtain rfl := Except.ok.inj h
    cases hs with
    | idle hidle => exact absurd (hidle th) (by simp [hv])
    | busy th' v' hth hothers _ htold =>
      have heq : th = th' := by
        by_contra hne
        simp [hothers th hne] at hv
      subst heq
      obtain rfl : v = v' := Option.some.inj (hv.symm.trans hth)
      refine .idle (fun th' => ?_) fun e he => ⟨(htold e he).1, fun _ c hc => ?_⟩
      · by_cases hne : th' = th
        · subst hne
          exact Function.update_self ..
        · exact (Function.update_of_ne hne ..).trans (hothers th' hne)
      · obtain rfl := Option.some.inj ((htold e he).2.symm.trans hc)
        rfl

/-- What a first section does. -/
theorem read_cases {s t : State σ ε T θ} {th : θ} {v : T} (h : step s (.read th v) = .ok t) :
    (v = s.var.val ∧ t = s) ∨
      (v ≠ s.var.val ∧ t.var = s.var ∧
        t.calls = s.calls ++ (notify s.var.val v s.var.cbs.toList s.surroundings).calls ∧
        (Returns s.var.val v s.var.cbs.toList s.surroundings →
          t.pending = Function.update s.pending th (some v)) ∧
        (¬ Returns s.var.val v s.var.cbs.toList s.surroundings → t.pending = s.pending)) := by
  rw [step] at h
  dsimp only at h
  split at h
  · cases h
  · rw [ConfigVar.setValueRead] at h
    by_cases hv : v = s.var.val
    · rw [if_pos (beq_iff_eq.mpr hv)] at h
      exact .inl ⟨hv, (Except.ok.inj h).symm⟩
    · rw [if_neg (fun hb => hv (beq_iff_eq.mp hb))] at h
      dsimp only at h
      by_cases hret : Returns s.var.val v s.var.cbs.toList s.surroundings
      · rw [(notify_returns hret).1] at h
        obtain rfl := Except.ok.inj h
        exact .inr ⟨hv, rfl, rfl, fun _ => rfl, fun hn => absurd hret hn⟩
      · obtain ⟨e, he⟩ := notify_throws hret
        rw [he] at h
        obtain rfl := Except.ok.inj h
        exact .inr ⟨hv, rfl, rfl, fun hr => absurd hr hret, fun _ => rfl⟩

theorem read_orderly {s t : State σ ε T θ} (hs : Orderly s) {th : θ} {v : T}
    (h : step s (.read th v) = .ok t) (hclear : (Action.read th v).Clear s) : Orderly t := by
  obtain ⟨_, rfl⟩ | ⟨hv, hvar, hcalls, hpending, _⟩ := read_cases h
  · exact hs
  · obtain ⟨hidle, hret⟩ := hclear hv
    have hpending := hpending hret
    refine .busy th v (by rw [hpending, Function.update_self]) (fun th' hne => ?_) (hvar ▸ hv) ?_
    · rw [hpending, Function.update_of_ne hne, hidle th']
    · rw [hvar]
      intro e he
      obtain ⟨hlinked, hlast⟩ := hs.agreeing e he
      rw [hcalls, (notify_returns hret).2, told_append, told_notified_of_mem he, linked_concat]
      exact ⟨⟨hlinked, fun d hd => hlast hidle d hd⟩, List.getLast?_concat⟩

/-- The first listener sees what goes wrong. -/
theorem read_disagrees {s t : State σ ε T θ} (hs : Orderly s) (hcbs : s.var.cbs.toList ≠ [])
    {th : θ} {v : T} (h : step s (.read th v) = .ok t) (hclear : ¬ (Action.read th v).Clear s) :
    ¬ Agreeing t := by
  obtain ⟨rfl, _⟩ | ⟨hv, hvar, hcalls, _, hpending⟩ := read_cases h
  · exact absurd (fun hne => absurd rfl hne) hclear
  · intro hagree
    obtain ⟨e, cbs, hlist⟩ := List.exists_cons_of_ne_nil hcbs
    have he : e ∈ s.var.cbs := by
      rw [KeyedSet.mem_def, hlist]
      exact List.mem_cons_self
    obtain ⟨calls, hnotify, hothers⟩ := notify_cons_calls s.var.val v e cbs s.surroundings
    have hnil : told e.1 calls = [] := told_eq_nil fun c hc => by
      obtain ⟨e', he', hkey⟩ := hothers c hc
      have hsorted := s.var.cbs.sorted
      rw [hlist] at hsorted
      rw [hkey]
      exact ((List.pairwise_cons.mp hsorted).1 e' he').ne'
    have htold : told e.1 t.calls = told e.1 s.calls ++ [(s.var.val, v)] := by
      rw [hcalls, hlist, hnotify, told_append]
      congr 1
      change told e.1 ([⟨e.1, s.var.val, v⟩] ++ calls) = _
      rw [told_append, hnil]
      simp [told]
    obtain ⟨hlinked, hlast⟩ := hagree e (hvar ▸ he)
    rw [htold] at hlinked hlast
    cases hs with
    | idle hidle _ =>
      have hret : ¬ Returns s.var.val v s.var.cbs.toList s.surroundings := fun hret =>
        hclear fun _ => ⟨hidle, hret⟩
      have heq := hlast (fun th' => by rw [hpending hret, hidle th']) _
        (by rw [List.getLast?_concat]; rfl)
      rw [ConfigVar.getValue, hvar] at heq
      exact hv heq.symm
    | busy th' u _ _ hne hbusy =>
      exact hne ((linked_concat.mp hlinked).2 _ (hbusy e he).2).symm

theorem step_cbs {s t : State σ ε T θ} {a : Action T θ} (h : step s a = .ok t) :
    t.var.cbs = s.var.cbs := by
  cases a with
  | read th v =>
    obtain ⟨_, rfl⟩ | ⟨_, hvar, _⟩ := read_cases h
    · rfl
    · rw [hvar]
  | write th =>
    unfold step at h
    dsimp only at h
    split at h
    · cases h
    · cases h
      rfl

theorem step_orderly {s t : State σ ε T θ} {a : Action T θ} (hs : Orderly s)
    (hcbs : s.var.cbs.toList ≠ []) (h : step s a = .ok t) :
    (a.Clear s → Orderly t) ∧ (¬ a.Clear s → ¬ Agreeing t) := by
  cases a with
  | read th v => exact ⟨read_orderly hs h, read_disagrees hs hcbs h⟩
  | write th => exact ⟨fun _ => write_orderly hs h, fun hclear => absurd trivial hclear⟩

/-- The states that the beginnings of a run lead to. -/
def Throughout (P : State σ ε T θ → Prop) (s : State σ ε T θ) (acts : List (Action T θ)) : Prop :=
  ∀ as bs t, acts = as ++ bs → exec step s as = .ok t → P t

theorem throughout_cons {P : State σ ε T θ → Prop} {s : State σ ε T θ} {a : Action T θ}
    {as : List (Action T θ)} :
    Throughout P s (a :: as) ↔ P s ∧ ∀ t, step s a = .ok t → Throughout P t as := by
  constructor
  · intro h
    refine ⟨h [] (a :: as) s rfl rfl, fun t ht bs cs u hsplit hu => ?_⟩
    exact h (a :: bs) cs u (by rw [hsplit, List.cons_append]) (exec_cons_ok ht hu)
  · rintro ⟨hs, h⟩ bs cs u hsplit hu
    cases bs with
    | nil =>
      obtain rfl := Except.ok.inj hu
      exact hs
    | cons b bs =>
      obtain ⟨rfl, htail⟩ := List.cons.inj hsplit
      rw [exec] at hu
      split at hu
      · cases hu
      · rename_i t ht
        exact h t ht bs cs u htail hu

theorem orderly_agreeing_iff {s : State σ ε T θ} (hs : Orderly s) (hcbs : s.var.cbs.toList ≠ [])
    (acts : List (Action T θ)) : Throughout Agreeing s acts ↔ Serial s acts := by
  induction acts generalizing s with
  | nil =>
    refine iff_of_true (fun as bs t hsplit ht => ?_) trivial
    obtain rfl := (List.append_eq_nil_iff.mp hsplit.symm).1
    obtain rfl := Except.ok.inj ht
    exact hs.agreeing
  | cons a as ih =>
    rw [throughout_cons, and_iff_right hs.agreeing]
    apply forall₂_congr
    intro t ht
    obtain ⟨horderly, hdisagree⟩ := step_orderly hs hcbs ht
    have hcbs' : t.var.cbs.toList ≠ [] := step_cbs ht ▸ hcbs
    by_cases hclear : a.Clear s
    · rw [and_iff_right hclear, ih (horderly hclear) hcbs']
    · refine iff_of_false (fun h => ?_) fun h => hclear h.1
      exact hdisagree hclear (h [] as t rfl rfl)

/-- The listeners and the stored value agree throughout a run exactly when no
changing call starts inside another and none is cut short by a listener. -/
theorem run_agreeing_iff (var : ConfigVar σ ε T) (surroundings : σ) (hcbs : var.cbs.toList ≠ [])
    (acts : List (Action T θ)) :
    Throughout Agreeing (.start var surroundings) acts ↔ Serial (.start var surroundings) acts := by
  refine orderly_agreeing_iff (.idle (fun _ => rfl) fun e _ => ?_) hcbs acts
  have hnil : told e.1 (State.start (θ := θ) var surroundings).calls = [] := rfl
  rw [hnil]
  exact ⟨List.isChain_nil, fun _ c hc => absurd hc (by simp)⟩

/-- Two threads that overlap: the listener is told of a change that is not the
next one, and its last news is not the value that stays. -/
theorem overlapping_calls_disagree :
    ∃ (var : ConfigVar Unit Empty Nat) (t : State Unit Empty Nat Nat), var.cbs.toList ≠ [] ∧
      exec step (.start var ()) [.read 0 1, .read 1 2, .write 1, .write 0] = .ok t ∧ t.Idle ∧
      t.calls = [⟨1, 0, 1⟩, ⟨1, 0, 2⟩] ∧ t.var.getValue = 1 ∧ ¬ Agreeing t := by
  let cb : Listener Unit Empty Nat := fun _ _ s => (.ok (), s)
  let var : ConfigVar Unit Empty Nat := ⟨[], [], 0, KeyedSet.insert .empty (1, cb)⟩
  refine ⟨var, _, by decide, rfl, fun th => ?_, rfl, rfl, fun h => ?_⟩
  · by_cases h0 : th = 0
    · subst h0
      rfl
    · by_cases h1 : th = 1
      · subst h1
        rfl
      · simp [Function.update_of_ne, h0, h1, State.start]
  · have hlinked : Linked [(0, 1), (0, 2)] := (h (1, cb) (List.mem_singleton.mpr rfl)).1
    simp [Linked] at hlinked

/-- One call after the other. -/
theorem run_agreeing_sequential :
    let var : ConfigVar Unit Empty Nat :=
      ⟨[], [], 0, KeyedSet.insert .empty (1, fun _ _ s => (.ok (), s))⟩
    Throughout Agreeing (State.start var () : State Unit Empty Nat (Fin 2))
      [.read 0 1, .write 0, .read 1 2, .write 1] := by
  intro var
  apply (run_agreeing_iff var () (List.cons_ne_nil _ _) _).mpr
  intro t ht
  refine ⟨fun _ => ⟨fun _ => rfl, rfl, trivial⟩, fun u hu => ⟨trivial, ?_⟩⟩
  cases ht
  cases hu
  exact fun t _ => ⟨fun _ => ⟨(by decide : ∀ th : Fin 2, Function.update
    (Function.update (fun _ => none) 0 (some 1)) 0 (none : Option Nat) th = none), rfl, trivial⟩,
    fun u _ => ⟨trivial, trivial⟩⟩

end Mumu.SetValueRaces
