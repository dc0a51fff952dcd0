import Mathlib.Data.List.Induction
import Mumu.ConfigReload

namespace Mumu.ConfigHistory

open Mumu.LogLevels Mumu.LogItems Mumu.PatternScanner Mumu.LogAppenders Mumu.Loggers
open Mumu.PointerHeap Mumu.KeyedSets Mumu.Executions Mumu.LogDelivery Mumu.LogIniter
open Mumu.LoggerFrames Mumu.EventRouting Mumu.LoggerViews Mumu.ConfigReload

/-! ### The configuration after a history of values -/

def current (vs : List LogDefines) : LogDefines := vs.getLastD .empty

def Named (vs : List LogDefines) (n : Str) : Prop := ∃ v ∈ vs, namedIn v.toList n

instance (vs : List LogDefines) (n : Str) : Decidable (Named vs n) :=
  inferInstanceAs (Decidable (∃ v ∈ vs, namedIn v.toList n))

def formatterIn (v : LogDefines) (n : Str) (f : Option LogFormatter) : Option LogFormatter :=
  match v.find? n with
  | some d => formatterAfter d f
  | none => f

/-- The formatter of the last definition of the name that gave an accepted
pattern, or the default one. -/
def formatterOf (n : Str) (vs : List LogDefines) : Option LogFormatter :=
  vs.foldl (fun f v => formatterIn v n f) (some (.new defaultPattern))

def settled (vs : List LogDefines) (n : Str) : LoggerConf :=
  match (current vs).find? n with
  | some d => defined d (formatterOf n vs)
  | none => if Named vs n then removed (formatterOf n vs) else view World.initial n

theorem current_concat (vs : List LogDefines) (v : LogDefines) : current (vs ++ [v]) = v := by
  simp [current]

theorem formatterOf_concat (n : Str) (vs : List LogDefines) (v : LogDefines) :
    formatterOf n (vs ++ [v]) = formatterIn v n (formatterOf n vs) := by
  simp [formatterOf]

theorem named_concat (vs : List LogDefines) (v : LogDefines) (n : Str) :
    Named (vs ++ [v]) n ↔ Named vs n ∨ namedIn v.toList n := by
  simp [Named, or_and_right, exists_or]

theorem not_namedIn {v : LogDefines} {n : Str} (h : v.find? n = none) : ¬ namedIn v.toList n :=
  fun ⟨d, hd, hn⟩ => KeyedSet.find?_eq_none.mp h d hd hn

theorem named_current {vs : List LogDefines} {n : Str} {d : LogDefine}
    (h : (current vs).find? n = some d) : Named vs n := by
  obtain ⟨hd, hn⟩ := KeyedSet.find?_eq_some.mp h
  obtain rfl | ⟨vs', v, rfl⟩ := List.eq_nil_or_concat vs
  · exact absurd hd (KeyedSet.not_mem_empty d)
  · rw [List.concat_eq_append, current_concat] at hd
    exact ⟨v, by simp, d, hd, hn⟩

/-- The current definition has been taken into account. -/
theorem formatterOf_current {vs : List LogDefines} {n : Str} {d : LogDefine}
    (h : (current vs).find? n = some d) :
    formatterAfter d (formatterOf n vs) = formatterOf n vs := by
  obtain rfl | ⟨vs', v, rfl⟩ := List.eq_nil_or_concat vs
  · cases h
  · rw [List.concat_eq_append, current_concat] at h
    rw [List.concat_eq_append, formatterOf_concat, formatterIn, h]
    exact formatterAfter_idem d _

theorem formatterOf_not_named {vs : List LogDefines} {n : Str} (h : ¬ Named vs n) :
    formatterOf n vs = some (.new defaultPattern) := by
  induction vs using List.reverseRecOn with
  | nil => rfl
  | append_singleton vs v ih =>
    rw [named_concat, not_or] at h
    rw [formatterOf_concat, formatterIn, find?_of_not_namedIn h.2]
    exact ih h.1

theorem view_initial (n : Str) :
    view World.initial n = if n = World.rootName then loggerConf World.initial rootLogger
      else ⟨.debug, some (.new defaultPattern), []⟩ := by
  split
  · rename_i hn
    exact view_eq (hn ▸ initial_wellFormed.root_bound) rfl
  · rename_i hn
    refine view_unmanaged (Option.eq_none_iff_forall_ne_some.mpr fun p hp => ?_)
    exact hn (initial_managed hp).1

theorem settled_formatter (vs : List LogDefines) (n : Str) :
    (settled vs n).formatter = formatterOf n vs := by
  rw [settled]
  split
  · rfl
  · split
    · rfl
    · rename_i h
      rw [formatterOf_not_named h, view_initial]
      split <;> rfl

/-- The difference that the listener applies is the one between the
configurations of two histories. -/
theorem reloaded_settled (vs : List LogDefines) (v : LogDefines) (n : Str) :
    reloaded ((current vs).find? n) (v.find? n) (settled vs n) = settled (vs ++ [v]) n := by
  have hnew : settled (vs ++ [v]) n = match v.find? n with
      | some d => defined d (formatterAfter d (formatterOf n vs))
      | none => if Named (vs ++ [v]) n then removed (formatterOf n vs)
        else view World.initial n := by
    rw [settled, current_concat, formatterOf_concat, formatterIn]
    cases v.find? n <;> rfl
  rw [hnew]
  cases hv : v.find? n with
  | some d =>
    simp only [reloaded, settled_formatter]
    split
    · rename_i hold
      rw [settled, hold, formatterOf_current hold]
    · rfl
  | none =>
    have hnamed : Named (vs ++ [v]) n ↔ Named vs n := by
      rw [named_concat, or_iff_left (not_namedIn hv)]
    cases hold : (current vs).find? n with
    | some d => simp only [reloaded, settled_formatter, hnamed, if_pos (named_current hold)]
    | none => simp only [reloaded, settled, hold, hnamed]

/-! ### Runs -/

structure Agrees (env : Env) (vs : List LogDefines) (sys : System) : Prop where
  sound : Sound env sys
  separate : Separate sys.world
  val : sys.logDefines.val = current vs
  bound : ∀ n, Named vs n → ∃ p, KeyedMap.get? sys.world.managed n = some p
  spares : Spares (Named vs) World.initial sys.world
  view : ∀ n, view sys.world n = settled vs n

theorem initial_separate : Separate World.initial := by
  refine ⟨fun p l hl => ?_, fun p q l m a hl hm _ _ => ?_⟩
  · obtain ⟨_, rfl⟩ := initial_logger hl
    exact List.nodup_cons.mpr ⟨List.not_mem_nil, List.nodup_nil⟩
  · exact (initial_logger hl).1.trans (initial_logger hm).1.symm

theorem initial_agrees (env : Env) : Agrees env [] (System.initial env) :=
  ⟨initial_sound env, initial_separate, rfl, fun n ⟨v, hv, _⟩ => absurd hv List.not_mem_nil,
    .of_sameConf (.refl _), fun n => by
      rw [settled, if_neg (fun ⟨v, hv, _⟩ => absurd hv List.not_mem_nil)]
      rfl⟩

theorem setLogDefines_agrees {env : Env} (vs : List LogDefines) (sys : System) (v : LogDefines)
    (h : Agrees env vs sys) :
    ∃ sys', sys.setLogDefines v = .ok sys' ∧ Agrees env (vs ++ [v]) sys' := by
  have hmono : ∀ n, Named vs n → Named (vs ++ [v]) n := fun n hn => (named_concat vs v n).mpr (.inl hn)
  have hset := setLogDefines_eq h.sound v
  split at hset
  · rename_i hsame
    rw [h.val] at hsame
    refine ⟨sys, hset, h.sound, h.separate, by rw [h.val, current_concat, hsame], fun n hn => ?_,
      h.spares.mono hmono, fun n => ?_⟩
    · obtain hn | hn := (named_concat vs v n).mp hn
      · exact h.bound n hn
      · obtain ⟨d, _, _, hfind⟩ := find?_of_namedIn hn
        exact h.bound n (named_current (hsame ▸ hfind))
    · rw [← reloaded_settled, ← hsame, reloaded_self, h.view]
  · obtain ⟨u, hu, heq⟩ := hset
    have htidy : Tidy sys.logDefines.val u := by
      refine ⟨h.sound.world.congr hu, h.separate.congr hu, fun d hd => ?_⟩
      rw [h.val] at hd
      rw [hu.managed]
      exact h.bound d.name (named_current (KeyedSet.find?_eq_some.mpr ⟨hd, rfl⟩))
    obtain ⟨hold, hnew, hspares, hview⟩ := reload_spec env v htidy
    have hrun : Spares (Named (vs ++ [v])) sys.world (reload env sys.logDefines.val v u) := by
      refine (Spares.of_sameConf hu).trans (hspares.mono fun n hn => ?_)
      obtain hn | hn := hn
      · obtain ⟨d, _, _, hfind⟩ := find?_of_namedIn hn
        exact hmono n (named_current (h.val ▸ hfind))
      · exact (named_concat vs v n).mpr (.inr hn)
    refine ⟨_, heq, ⟨hold.wellFormed, h.sound.cbs⟩, hold.separate, (current_concat vs v).symm,
      fun n hn => ?_, (h.spares.mono hmono).trans hrun, fun n => ?_⟩
    · by_cases hv : namedIn v.toList n
      · obtain ⟨d, hd, hdn⟩ := hv
        exact hdn ▸ hnew.bound d hd
      · by_cases ho : namedIn sys.logDefines.val.toList n
        · obtain ⟨d, hd, hdn⟩ := ho
          exact hdn ▸ hold.bound d hd
        · obtain ⟨p, hp⟩ := h.bound n (((named_concat vs v n).mp hn).resolve_right hv)
          exact ⟨p, (hspares.managed n (not_or.mpr ⟨ho, hv⟩)).trans ((by rw [hu.managed]; exact hp))⟩
    · rw [← reloaded_settled, hview, view_sameConf hu, h.view, h.val]

theorem reconfigure_agrees (env : Env) (vs : List LogDefines) :
    ∃ sys, reconfigure (System.initial env) vs = .ok sys ∧ Agrees env vs sys :=
  exec_total setLogDefines_agrees vs (initial_agrees env)

/-- An appender to the standard output has no stream of its own. -/
theorem eq_of_conf {a b : LogAppender} (h : conf a = conf b) (hb : b.kind = .stdout) : a = b := by
  obtain ⟨kind, level, formatter, hasFormatter⟩ := a
  obtain ⟨kind', level', formatter', hasFormatter'⟩ := b
  obtain rfl : kind' = .stdout := hb
  cases kind with
  | stdout => simpa [conf, destination] using h
  | file => simp [conf, destination] at h

/-- After any sequence of values the loggers are as the last of them says: its
definitions hold, what only earlier values defined is switched off, and the
other loggers are as they were at the start. -/
theorem reconfigure_configures (env : Env) (vs : List LogDefines) :
    ∃ sys, reconfigure (System.initial env) vs = .ok sys ∧ sys.logDefines.val = current vs ∧
      (∀ d ∈ current vs, ∃ p l, KeyedMap.get? sys.world.managed d.name = some p ∧
        sys.world.loggers.get? p = some l ∧ l.name = d.name ∧ l.level = d.level ∧
        l.appenders.Nodup ∧
        l.appenders.map (confOf sys.world) = (entryConfs l.formatter d.appenders).map some) ∧
      (∀ n, Named vs n → (∀ d ∈ current vs, d.name ≠ n) →
        ∃ p l, KeyedMap.get? sys.world.managed n = some p ∧ sys.world.loggers.get? p = some l ∧
          l.name = n ∧ l.level = .unkonw ∧ l.appenders = []) ∧
      (∀ n, ¬ Named vs n →
        KeyedMap.get? sys.world.managed n = KeyedMap.get? World.initial.managed n ∧
        ∀ p l, KeyedMap.get? World.initial.managed n = some p →
          World.initial.loggers.get? p = some l → sys.world.loggers.get? p = some l ∧
          ∀ a ∈ l.appenders, sys.world.appenders.get? a = World.initial.appenders.get? a) := by
  obtain ⟨sys, hrun, h⟩ := reconfigure_agrees env vs
  have named : ∀ n, Named vs n → ∃ p l, KeyedMap.get? sys.world.managed n = some p ∧
      sys.world.loggers.get? p = some l ∧ l.name = n ∧ loggerConf sys.world l = settled vs n := by
    intro n hn
    obtain ⟨p, hp⟩ := h.bound n hn
    obtain ⟨l, hl, hname, _⟩ := h.sound.world.bound n p hp
    exact ⟨p, l, hp, hl, hname, by rw [← h.view, view_eq hp hl]⟩
  refine ⟨sys, hrun, h.val, fun d hd => ?_, fun n hn hcur => ?_, fun n hn => ?_⟩
  · have hfind : (current vs).find? d.name = some d := KeyedSet.find?_eq_some.mpr ⟨hd, rfl⟩
    obtain ⟨p, l, hp, hl, hname, hconf⟩ := named d.name (named_current hfind)
    rw [settled, hfind] at hconf
    obtain ⟨hlevel, hformatter, happenders⟩ := LoggerConf.mk.inj hconf
    exact ⟨p, l, hp, hl, hname, hlevel, h.separate.nodup p l hl, by rw [happenders, hformatter]⟩
  · obtain ⟨p, l, hp, hl, hname, hconf⟩ := named n hn
    rw [settled, KeyedSet.find?_eq_none.mpr hcur] at hconf
    simp only [if_pos hn] at hconf
    obtain ⟨hlevel, _, happenders⟩ := LoggerConf.mk.inj hconf
    exact ⟨p, l, hp, hl, hname, hlevel, by simpa using happenders⟩
  · refine ⟨h.spares.managed n hn, fun p l hp hl => ?_⟩
    obtain ⟨hl', hconf⟩ := h.spares.loggers n p l hn hp hl
    refine ⟨hl', fun a ha => ?_⟩
    obtain ⟨_, rfl⟩ := initial_logger hl
    obtain rfl : a = 0 := List.mem_singleton.mp ha
    have hroot : World.initial.appenders.get? 0 = some rootAppender := rfl
    have hsame := hconf 0 ha
    rw [confOf, confOf, hroot, Option.map_some] at hsame
    obtain ⟨ap, hap, heq⟩ := Option.map_eq_some_iff.mp hsame
    rw [hap, hroot, eq_of_conf heq rfl]

/-! ### What a history leaves behind -/

/-- What an appender does: where it writes, from which level on, and how. -/
def effective (c : AppenderConf) : Destination × Level × Option Str :=
  (c.destination, c.level, c.formatter.map LogFormatter.pattern)

def Alike (c c' : LoggerConf) : Prop :=
  c.level = c'.level ∧
    c.formatter.map LogFormatter.pattern = c'.formatter.map LogFormatter.pattern ∧
    c.appenders.map (Option.map effective) = c'.appenders.map (Option.map effective)

theorem pattern_injective : Function.Injective LogFormatter.pattern := by
  intro f g h
  rw [LogFormatter.eq_new f, LogFormatter.eq_new g, h]

theorem alike_defined (d : LogDefine) (f g : Option LogFormatter) :
    Alike (defined d f) (defined d g) ↔ f = g := by
  constructor
  · exact fun h => Option.map_injective pattern_injective h.2.1
  · rintro rfl
    exact ⟨rfl, rfl, rfl⟩

theorem settled_of_mem (vs : List LogDefines) {v : LogDefines} {d : LogDefine} (hd : d ∈ v) :
    settled (vs ++ [v]) d.name = defined d (formatterAfter d (formatterOf d.name vs)) := by
  have hfind : v.find? d.name = some d := KeyedSet.find?_eq_some.mpr ⟨hd, rfl⟩
  rw [settled, current_concat, hfind, formatterOf_concat, formatterIn, hfind]

/-- Of a history, a defined logger keeps nothing but the last accepted pattern,
which stays its formatter when the last definition gives none. -/
theorem reconfigure_history (env : Env) (vs : List LogDefines) (v : LogDefines) :
    ∃ s t, reconfigure (System.initial env) (vs ++ [v]) = .ok s ∧
      reconfigure (System.initial env) [v] = .ok t ∧
      ∀ d ∈ v, view s.world d.name = defined d (formatterOf d.name (vs ++ [v])) ∧
        view t.world d.name = defined d (formatterOf d.name [v]) ∧
        (Alike (view s.world d.name) (view t.world d.name) ↔
          Accepted d.formatter ∨ formatterOf d.name vs = some (.new defaultPattern)) := by
  obtain ⟨s, hs, hsa⟩ := reconfigure_agrees env (vs ++ [v])
  obtain ⟨t, ht, hta⟩ := reconfigure_agrees env [v]
  refine ⟨s, t, hs, ht, fun d hd => ?_⟩
  have hfind : v.find? d.name = some d := KeyedSet.find?_eq_some.mpr ⟨hd, rfl⟩
  have hsv := hsa.view d.name
  have htv := hta.view d.name
  rw [settled_of_mem vs hd] at hsv
  rw [show [v] = [] ++ [v] from rfl, settled_of_mem [] hd] at htv
  refine ⟨?_, ?_, ?_⟩
  · rw [hsv, formatterOf_concat, formatterIn, hfind]
  · rw [htv, show [v] = [] ++ [v] from rfl, formatterOf_concat, formatterIn, hfind]
  · rw [hsv, htv, alike_defined]
    by_cases hacc : Accepted d.formatter
    · simp [formatterAfter, hacc]
    · simp only [formatterAfter, hacc, false_or]
      rfl

/-- A pattern given once stays when the next definition leaves it out. -/
theorem reconfigure_keeps_pattern :
    ¬ ∀ (env : Env) (vs : List LogDefines) (v : LogDefines) (s t : System),
      reconfigure (System.initial env) (vs ++ [v]) = .ok s →
      reconfigure (System.initial env) [v] = .ok t →
      ∀ d ∈ v, Alike (view s.world d.name) (view t.world d.name) := by
  intro h
  let old : LogDefines := KeyedSet.insert .empty ⟨"a".toList, .debug, "%m".toList, []⟩
  let new : LogDefines := KeyedSet.insert .empty ⟨"a".toList, .debug, [], []⟩
  obtain ⟨s, hs, hsa⟩ := reconfigure_agrees default [old, new]
  obtain ⟨t, ht, hta⟩ := reconfigure_agrees default [new]
  have hd : (⟨"a".toList, .debug, [], []⟩ : LogDefine) ∈ new := List.mem_singleton.mpr rfl
  have halike := h default [old] new s t hs ht _ hd
  rw [hsa.view, hta.view] at halike
  exact absurd halike.2.1 (by decide +kernel)

end Mumu.ConfigHistory
