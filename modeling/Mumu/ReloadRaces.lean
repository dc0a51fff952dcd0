import Mathlib.Data.Fin.VecNotation
import Mumu.Interleavings
import Mumu.LiveReloads

namespace Mumu.ReloadRaces

open Mumu.LogLevels Mumu.Loggers Mumu.PointerHeap Mumu.Executions Mumu.LogIniter
open Mumu.LoggerViews Mumu.ConfigReload Mumu.LiveReloads Mumu.Interleavings

/-! ### What one listener does with a logger -/

/-- The listener runs under the read lock of the variable, so that several threads
that set it can be in the listener together. -/
structure Reload where
  level : Level
  formatter : Bool
  appenders : List Ptr

namespace Reload

/-- For a definition that is new or has changed. -/
def ofDefine (i : LogDefine) (next : Ptr) : Reload :=
  ⟨i.level, Accepted i.formatter, newAppenders next i.appenders⟩

/-- For a definition that is gone. -/
def ofRemoved : Reload := ⟨.unkonw, false, []⟩

def settings (d : Reload) : List Change :=
  .setLevel d.level :: if d.formatter then [.setFormatter] else []

/-- Each change is a store or a section of the logger's mutex. -/
def changes (d : Reload) : List Change :=
  d.settings ++ .clearAppender :: d.appenders.map .addAppender

theorem clear_notMem_settings (d : Reload) : .clearAppender ∉ d.settings := by
  rw [settings]
  split <;> simp

theorem clear_notMem_adds (as : List Ptr) : .clearAppender ∉ as.map Change.addAppender := by
  simp

theorem after_settings (c : Conf) (d : Reload) : (after c d.settings).level = d.level := by
  rw [settings]
  split <;> rfl

theorem level_of_mem {d : Reload} {lvl : Level} (h : .setLevel lvl ∈ d.changes) :
    lvl = d.level := by
  rw [changes, settings] at h
  split at h <;> simpa using h

/-- What follows the one place where the appenders are cleared. -/
theorem after_clear {d : Reload} {cs rest : List Change}
    (h : d.changes = cs ++ .clearAppender :: rest) : rest = d.appenders.map .addAppender :=
  ((List.append_cons_inj_of_notMem (clear_notMem_settings d) (clear_notMem_adds _)).mp h).2.2.symm

/-- What is left when the appenders are not cleared any more. -/
theorem rest_of_cleared {d : Reload} {cs rest : List Change} (h : d.changes = cs ++ rest)
    (hrest : .clearAppender ∉ rest) :
    ∃ k, rest = (d.appenders.drop k).map .addAppender := by
  rw [changes] at h
  obtain ⟨mid, rfl, hmid⟩ | ⟨mid, -, rfl⟩ := List.append_eq_append_iff.mp h
  · cases mid with
    | nil => exact absurd (List.nil_append rest ▸ hmid ▸ List.mem_cons_self) hrest
    | cons ch mid =>
      obtain ⟨-, hadds⟩ := List.cons.inj hmid
      refine ⟨mid.length, ?_⟩
      rw [List.map_drop, hadds]
      exact List.drop_left.symm
  · exact absurd (List.mem_append_right mid List.mem_cons_self) hrest

end Reload

/-- A thread alone does to the logger what the listener does for a definition. -/
theorem applyDefine_reload (env : LogAppenders.Env) (w : World) (i : LogDefine) {l : Logger}
    (hl : (w.getLogger i.name).1.loggers.get? (w.getLogger i.name).2 = some l) :
    ∃ l', (applyDefine env w i).loggers.get? (w.getLogger i.name).2 = some l' ∧
      confAt l' = after (confAt l)
        (Reload.ofDefine i (w.getLogger i.name).1.appenders.fresh).changes := by
  obtain ⟨l', hl', hconf⟩ := applyDefine_after env w i hl
  refine ⟨l', hl', hconf.trans (congrArg _ ?_)⟩
  rw [LiveReloads.changes, Reload.changes, Reload.settings, Reload.ofDefine, List.cons_append]
  simp only [decide_eq_true_eq]

theorem removeDefine_reload (w : World) (i : LogDefine) {l : Logger}
    (hl : (w.getLogger i.name).1.loggers.get? (w.getLogger i.name).2 = some l) :
    ∃ l', (removeDefine w i).loggers.get? (w.getLogger i.name).2 = some l' ∧
      confAt l' = after (confAt l) Reload.ofRemoved.changes := by
  have hlevel : ((w.getLogger i.name).1.setLevel (w.getLogger i.name).2 .unkonw).loggers.get?
      (w.getLogger i.name).2 = some { l with level := .unkonw } :=
    (Heap.get?_modify_self ..).trans (congrArg _ hl)
  exact ⟨{ l with level := .unkonw, appenders := [] },
    (Heap.get?_modify_self ..).trans (congrArg _ hlevel), rfl⟩

/-! ### What is left of some changes -/

/-- A level that some change has set is the one left, where there is such a change. -/
theorem level_after (c : Conf) (cs : List Change) :
    .setLevel (after c cs).level ∈ cs ∨
      (∀ lvl, .setLevel lvl ∉ cs) ∧ (after c cs).level = c.level := by
  induction cs generalizing c with
  | nil => exact .inr ⟨fun _ => List.not_mem_nil, rfl⟩
  | cons ch cs ih =>
    rw [after, List.foldl_cons, ← after]
    obtain hmem | ⟨hnone, heq⟩ := ih (ch.apply c)
    · exact .inl (List.mem_cons_of_mem ch hmem)
    · rw [heq]
      cases ch with
      | setLevel level => exact .inl List.mem_cons_self
      | setFormatter | clearAppender | addAppender a | delAppender a =>
        refine .inr ⟨fun lvl h => ?_, rfl⟩
        obtain h | h := List.mem_cons.mp h
        · cases h
        · exact hnone lvl h

theorem level_kept (c : Conf) {cs : List Change} (h : ∀ lvl, .setLevel lvl ∉ cs) :
    (after c cs).level = c.level :=
  (level_after c cs).elim (fun hmem => absurd hmem (h _)) And.right

theorem exists_last {α : Type*} {a : α} {l : List α} (h : a ∈ l) :
    ∃ l₁ l₂, l = l₁ ++ a :: l₂ ∧ a ∉ l₂ := by
  obtain ⟨l₁, l₂, heq, hl₁⟩ := List.eq_append_cons_of_mem (List.mem_reverse.mpr h)
  refine ⟨l₂.reverse, l₁.reverse, ?_, fun hmem => hl₁ (List.mem_reverse.mp hmem)⟩
  rw [← List.reverse_reverse l, heq]
  simp

theorem after_cleared (c : Conf) (pre : List Change) (as : List Ptr) :
    after c (pre ++ .clearAppender :: as.map .addAppender) = ⟨(after c pre).level, as⟩ := by
  rw [after_append, after, List.foldl_cons, ← after, after_adds]
  rfl

/-! ### Listeners at once -/

variable {ι : Type} [DecidableEq ι]

/-- The last to clear the appenders leaves all of its own; of the others' it leaves
those that are added after that. -/
theorem appenders_left {ds : ι → Reload} {cs : List Change} [Nonempty ι]
    (h : Interleaves (fun i => (ds i).changes) cs) (c : Conf) :
    ∃ k : ι → Nat, (∃ i, k i = 0) ∧
      Interleaves (fun i => (ds i).appenders.drop (k i)) (after c cs).appenders := by
  have hclears : .clearAppender ∈ cs := by
    obtain ⟨i⟩ := ‹Nonempty ι›
    exact h.mem_iff.mpr ⟨i, List.mem_append_right _ List.mem_cons_self⟩
  obtain ⟨pre, post, rfl, hpost⟩ := exists_last hclears
  obtain ⟨ms, ls, heq, -, hls⟩ := h.split
  have hlast : Interleaves ls ([.clearAppender] ++ post) := hls
  obtain ⟨clear, ns, rfl, hclear, hns⟩ := hlast.split
  obtain ⟨j, rfl⟩ := hclear.eq_alone
  have hchanges : ∀ i, (ds i).changes = ms i ++ (alone j [.clearAppender] i ++ ns i) :=
    fun i => congrFun heq i
  have hrest : ∀ i, ∃ k, ns i = ((ds i).appenders.drop k).map .addAppender ∧ (i = j → k = 0) := by
    intro i
    by_cases hi : i = j
    · subst hi
      have hself := hchanges i
      rw [alone_self] at hself
      exact ⟨0, Reload.after_clear hself, fun _ => rfl⟩
    · obtain ⟨k, hk⟩ := Reload.rest_of_cleared ((hchanges i).trans (List.append_assoc ..).symm)
        fun hmem => hpost (hns.mem_iff.mpr ⟨i, hmem⟩)
      exact ⟨k, hk, fun h => absurd h hi⟩
  choose k hk hzero using hrest
  refine ⟨k, ⟨j, hzero j rfl⟩, ?_⟩
  rw [funext hk] at hns
  obtain ⟨as, rfl, has⟩ := hns.of_map
  rwa [after_cleared]

/-- A thread sets its level last, another one clears the appenders last, and each of
the others has added some of its own before that. -/
theorem exists_race [Finite ι] (ds : ι → Reload) (c : Conf) (i j : ι) {k : ι → Nat}
    (hk : k j = 0) {as : List Ptr}
    (has : Interleaves (fun i => (ds i).appenders.drop (k i)) as) :
    ∃ cs, Interleaves (fun i => (ds i).changes) cs ∧ after c cs = ⟨(ds i).level, as⟩ := by
  obtain ⟨set, hset⟩ := exists_interleaves_last i fun i => (ds i).settings
  obtain ⟨clear, hclear⟩ := exists_interleaves_last j fun i =>
    Change.clearAppender :: ((ds i).appenders.take (k i)).map .addAppender
  have hall := (hset.append hclear).append (has.map .addAppender)
  rw [hk, List.take_zero, List.map_nil] at hall
  have hchanges : (fun i => ((ds i).settings ++
      Change.clearAppender :: ((ds i).appenders.take (k i)).map .addAppender) ++
      ((ds i).appenders.drop (k i)).map .addAppender) = fun i => (ds i).changes := by
    funext i
    rw [Reload.changes, List.append_assoc, List.cons_append, ← List.map_append,
      List.take_append_drop]
  rw [hchanges] at hall
  refine ⟨_, hall, ?_⟩
  have hnone : ∀ lvl, .setLevel lvl ∉ clear := by
    intro lvl hmem
    obtain ⟨i', hi'⟩ := hclear.mem_iff.mp (List.mem_append_left _ hmem)
    obtain h | h := List.mem_cons.mp hi'
    · cases h
    · obtain ⟨a, -, h⟩ := List.mem_map.mp h
      cases h
  have hlevel : (after c ((set ++ (ds i).settings) ++ clear)).level = (ds i).level := by
    rw [after_append, level_kept _ hnone, after_append, Reload.after_settings]
  have hcleared := after_cleared c ((set ++ (ds i).settings) ++ clear) as
  rw [hlevel] at hcleared
  rw [← hcleared]
  simp

/-- Threads that change a logger's definition at once leave it the level of any one of
them, and beside all appenders of one of them any last ones of each other, interleaved. -/
theorem race_outcomes_iff [Finite ι] [Nonempty ι] (ds : ι → Reload) (c c' : Conf) :
    (∃ acts s, exec (step fun c ch => Change.apply ch c) ⟨c, fun i => (ds i).changes⟩ acts = .ok s ∧
        (∀ i, s.todo i = []) ∧ s.value = c') ↔
      (∃ i, c'.level = (ds i).level) ∧ ∃ k : ι → Nat, (∃ i, k i = 0) ∧
        Interleaves (fun i => (ds i).appenders.drop (k i)) c'.appenders := by
  rw [exec_done_iff]
  constructor
  · rintro ⟨cs, hcs, rfl⟩
    refine ⟨?_, appenders_left hcs c⟩
    obtain hmem | ⟨hnone, -⟩ := level_after c cs
    · obtain ⟨i, hi⟩ := hcs.mem_iff.mp hmem
      exact ⟨i, Reload.level_of_mem hi⟩
    · obtain ⟨i⟩ := ‹Nonempty ι›
      exact absurd (hcs.mem_iff.mpr ⟨i, List.mem_cons_self⟩) (hnone (ds i).level)
  · rintro ⟨⟨i, hi⟩, k, ⟨j, hj⟩, has⟩
    obtain ⟨cs, hcs, hafter⟩ := exists_race ds c i j hj has
    refine ⟨cs, hcs, hafter.trans ?_⟩
    rw [← hi]

/-- Two threads can leave a logger the level of one and the appenders of both. -/
theorem race_outcomes_iff_both :
    ∃ acts s, exec (step fun c ch => Change.apply ch c) ⟨⟨.debug, [0]⟩,
        fun i : Fin 2 => (Reload.changes (![⟨.info, false, [1]⟩, ⟨.error, false, [2]⟩] i))⟩ acts =
          .ok s ∧
      (∀ i, s.todo i = []) ∧ s.value = ⟨.info, [2, 1]⟩ := by
  refine (race_outcomes_iff ![⟨.info, false, [1]⟩, ⟨.error, false, [2]⟩] ⟨.debug, [0]⟩
    ⟨.info, [2, 1]⟩).mpr ⟨⟨0, rfl⟩, fun _ => 0, ⟨0, rfl⟩, ?_⟩
  exact .cons (i := 1) rfl (.cons (i := 0) rfl (.nil (by decide)))

end Mumu.ReloadRaces
