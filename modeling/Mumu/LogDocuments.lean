import Mumu.ConfigHistory
import Mumu.ConfigLoading
import Mumu.LogDefineCasts

namespace Mumu.LogDocuments

open Mumu.LogLevels Mumu.LogItems Mumu.PatternScanner Mumu.LogAppenders Mumu.Loggers
open Mumu.PointerHeap Mumu.KeyedSets Mumu.ConfigVars Mumu.YamlNodes Mumu.Config
open Mumu.Executions Mumu.LogDelivery Mumu.LogIniter Mumu.LoggerFrames Mumu.EventRouting
open Mumu.LoggerViews Mumu.ConfigReload Mumu.ConfigHistory Mumu.ConfigLoading
open Mumu.LogDefineCasts

/-! ### Worlds that a history has configured -/

/-- The loggers are as a history of values says, others may have been asked for. -/
structure Configured (vs : List LogDefines) (w : World) : Prop where
  wellFormed : WellFormed w
  separate : Separate w
  bound : ∀ n, Named vs n → ∃ p, KeyedMap.get? w.managed n = some p
  view : ∀ n, view w n = settled vs n

theorem initial_configured : Configured [] World.initial :=
  ⟨initial_wellFormed, initial_separate, (initial_agrees default).bound,
    (initial_agrees default).view⟩

section

variable {vs : List LogDefines} {u v w : World}

theorem Configured.congr (h : Configured vs u) (hs : SameConf u v) : Configured vs v := by
  refine ⟨h.wellFormed.congr hs, h.separate.congr hs, fun n hn => ?_, fun n => ?_⟩
  · rw [hs.managed]
    exact h.bound n hn
  · rw [view_sameConf hs, h.view]

theorem Configured.getLogger (h : Configured vs w) (name : Str) :
    Configured vs (w.getLogger name).1 := by
  obtain ⟨l, hl, hview, hspares⟩ := getLogger_holds h.wellFormed h.separate name
  refine ⟨hl.wellFormed, hl.separate, fun n hn => ?_, fun n => ?_⟩
  · by_cases hname : n = name
    · subst hname
      exact ⟨_, hl.bound⟩
    · obtain ⟨p, hp⟩ := h.bound n hn
      exact ⟨p, (hspares.managed n hname).trans hp⟩
  · by_cases hname : n = name
    · rw [hname, LoggerViews.view_eq hl.bound hl.logger, hview, h.view]
    · rw [hspares.view_eq h.wellFormed hname, h.view]

theorem Configured.same (h : Configured vs w) : Configured (vs ++ [current vs]) w := by
  refine ⟨h.wellFormed, h.separate, fun n hn => ?_, fun n => ?_⟩
  · obtain hn | hn := (named_concat vs (current vs) n).mp hn
    · exact h.bound n hn
    · obtain ⟨d, _, _, hfind⟩ := find?_of_namedIn hn
      exact h.bound n (named_current hfind)
  · rw [← reloaded_settled, reloaded_self, h.view]

theorem Configured.reload (env : Env) (h : Configured vs w) (x : LogDefines) :
    Configured (vs ++ [x]) (reload env (current vs) x w) := by
  have htidy : Tidy (current vs) w := ⟨h.wellFormed, h.separate, fun d hd =>
    h.bound d.name (named_current (KeyedSet.find?_eq_some.mpr ⟨hd, rfl⟩))⟩
  obtain ⟨hold, hnew, hspares, hview⟩ := reload_spec env x htidy
  refine ⟨hold.wellFormed, hold.separate, fun n hn => ?_, fun n => ?_⟩
  · by_cases hx : namedIn x.toList n
    · obtain ⟨d, hd, hdn⟩ := hx
      exact hdn ▸ hnew.bound d hd
    · by_cases ho : namedIn (current vs).toList n
      · obtain ⟨d, hd, hdn⟩ := ho
        exact hdn ▸ hold.bound d hd
      · obtain ⟨p, hp⟩ := h.bound n (((named_concat vs x n).mp hn).resolve_right hx)
        exact ⟨p, (hspares.managed n (not_or.mpr ⟨ho, hx⟩)).trans hp⟩
  · rw [← reloaded_settled, hview, h.view]

end

/-! ### Listeners that only log -/

/-- Loggers are asked for, and events are logged. -/
inductive Logs (env : Env) : World → World → Prop where
  | refl (w : World) : Logs env w w
  | getLogger {u v : World} (name : Str) : Logs env u v → Logs env u (v.getLogger name).1
  | log {u v w : World} {hops : Nat} {p : Ptr} {lvl : Level} {site : World.Site}
      {hs : List World.Handed} :
    Logs env u v → v.logLevel env hops p lvl site = .ok (w, hs) → Logs env u w

theorem Configured.logs {env : Env} {vs : List LogDefines} {u v : World} (h : Configured vs u)
    (hlogs : Logs env u v) : Configured vs v := by
  induction hlogs with
  | refl => exact h
  | getLogger name _ ih => exact ih.getLogger name
  | log _ hlog ih => exact ih.congr (logLevel_sameConf hlog)

/-- What ends a call early: an exception of the YAML library or a fault. -/
inductive Failure where
  | thrown (e : Exn)
  | fault (e : Fault)

def OnlyLogs (env : Env) {T : Type} (cb : Listener World Failure T) : Prop :=
  ∀ oldValue newValue w, WellFormed w →
    (cb oldValue newValue w).1 = .ok () ∧ Logs env w (cb oldValue newValue w).2

/-- The listener of the static initialiser, beside the exceptions of others. -/
def logIniter (env : Env) : Listener World Failure LogDefines := fun oldValue newValue w =>
  match onLogConfChanged env oldValue newValue w with
  | (.error e, w) => (.error (.fault e), w)
  | (.ok (), w) => (.ok (), w)

section

variable {σ ε T : Type} {oldValue newValue : T}

theorem notify_append {xs : List (Nat × Listener σ ε T)} {s : σ}
    (h : Returns oldValue newValue xs s) (ys : List (Nat × Listener σ ε T)) :
    (notify oldValue newValue (xs ++ ys) s).outcome =
        (notify oldValue newValue ys (notify oldValue newValue xs s).state).outcome ∧
      (notify oldValue newValue (xs ++ ys) s).state =
        (notify oldValue newValue ys (notify oldValue newValue xs s).state).state := by
  induction xs generalizing s with
  | nil => exact ⟨rfl, rfl⟩
  | cons e xs ih =>
    obtain ⟨key, cb⟩ := e
    obtain ⟨hcb, hrest⟩ := h
    have hfirst : cb oldValue newValue s = (.ok (), (cb oldValue newValue s).2) :=
      Prod.ext hcb rfl
    obtain ⟨hout, hstate⟩ := ih hrest
    rw [List.cons_append, notify, notify, hfirst]
    exact ⟨hout, hstate⟩

variable {env : Env} {vs : List LogDefines} {w : World}

theorem notify_logs {T : Type} (oldValue newValue : T) {cbs : List (Nat × Listener World Failure T)}
    (hcbs : ∀ e ∈ cbs, OnlyLogs env e.2) (h : Configured vs w) :
    Returns oldValue newValue cbs w ∧
      Configured vs (notify oldValue newValue cbs w).state := by
  induction cbs generalizing w with
  | nil => exact ⟨trivial, h⟩
  | cons e cbs ih =>
    obtain ⟨key, cb⟩ := e
    obtain ⟨hcb, hlogs⟩ := hcbs _ List.mem_cons_self oldValue newValue w h.wellFormed
    obtain ⟨hrest, hstate⟩ := ih (fun e he => hcbs e (List.mem_cons_of_mem _ he)) (h.logs hlogs)
    have hfirst : cb oldValue newValue w = (.ok (), (cb oldValue newValue w).2) :=
      Prod.ext hcb rfl
    refine ⟨⟨hcb, hrest⟩, ?_⟩
    rw [notify, hfirst]
    exact hstate

/-- The listener of the configuration among others that only log. -/
theorem notify_configures {pre post : List (Nat × Listener World Failure LogDefines)} {k : Nat}
    (hpre : ∀ e ∈ pre, OnlyLogs env e.2) (hpost : ∀ e ∈ post, OnlyLogs env e.2)
    (h : Configured vs w) (x : LogDefines) :
    (notify (current vs) x (pre ++ (k, logIniter env) :: post) w).outcome = .ok () ∧
      Configured (vs ++ [x])
        (notify (current vs) x (pre ++ (k, logIniter env) :: post) w).state := by
  obtain ⟨hreturns, hu⟩ := notify_logs (current vs) x hpre h
  obtain ⟨hout, hstate⟩ := notify_append hreturns ((k, logIniter env) :: post)
  rw [hout, hstate]
  generalize (notify (current vs) x pre w).state = u at hu
  obtain ⟨v, hsame, heq⟩ := onLogConfChanged_eq env hu.wellFormed (current vs) x
  have hcb : logIniter env (current vs) x u = (.ok (), reload env (current vs) x v) := by
    rw [logIniter, heq]
  obtain ⟨hreturns', hlast⟩ := notify_logs (current vs) x hpost ((hu.congr hsame).reload env x)
  rw [notify, hcb]
  exact ⟨(notify_returns hreturns').1, hlast⟩

end

/-! ### The variables -/

variable {τ : Type} {Val : τ → Type}

/-- The types of the variables: that of the configuration of the logs, and those
of the others. -/
def Value (Val : τ → Type) : Option τ → Type
  | none => LogDefines
  | some t => Val t

instance [∀ t, BEq (Val t)] : ∀ t, BEq (Value Val t)
  | none => inferInstanceAs (BEq LogDefines)
  | some t => inferInstanceAs (BEq (Val t))

/-- The casts from a text. -/
def fromStr (yaml : Yaml) (other : ∀ t, Str → Except Exn (Val t)) :
    ∀ t, Str → Except Failure (Value Val t)
  | none, v => (readLogDefines yaml v).mapError .thrown
  | some t, v => (other t v).mapError .thrown

def logsName : Str := "logs".toList

/-- The loggers follow the variable, whose listener is called among others that
only log. -/
structure Follows (env : Env) (vs : List LogDefines) (st : State World Failure (Value Val)) :
    Prop where
  configured : Configured vs st.surroundings
  logs : ∃ p, ∃ var : ConfigVar World Failure LogDefines,
    st.registry.lookupBase logsName = some p ∧ st.registry.vars.get? p = some ⟨none, var⟩ ∧
      var.val = current vs ∧ (1, logIniter env) ∈ var.cbs
  only : ∀ p t, ∀ var : ConfigVar World Failure (Value Val t),
    st.registry.vars.get? p = some ⟨t, var⟩ → ∀ e ∈ var.cbs,
      OnlyLogs env e.2 ∨ (st.registry.lookupBase logsName = some p ∧ e.1 = 1)

/-! ### One variable -/

section

variable {env : Env} {vs : List LogDefines} {w : World}

theorem split_listeners {T : Type} {cbs : KeyedMap Nat (Listener World Failure T)} {k : Nat}
    {cb : Listener World Failure T} (hmem : (k, cb) ∈ cbs)
    (hcbs : ∀ e ∈ cbs, OnlyLogs env e.2 ∨ e.1 = k) :
    ∃ pre post, cbs.toList = pre ++ (k, cb) :: post ∧ (∀ e ∈ pre, OnlyLogs env e.2) ∧
      ∀ e ∈ post, OnlyLogs env e.2 := by
  obtain ⟨pre, post, hsplit⟩ := List.append_of_mem (KeyedSet.mem_def.mp hmem)
  have hsorted := cbs.sorted
  rw [hsplit, List.pairwise_append, List.pairwise_cons] at hsorted
  obtain ⟨_, ⟨hpost, _⟩, hpre⟩ := hsorted
  refine ⟨pre, post, hsplit, fun e he => ?_, fun e he => ?_⟩
  · have hin : e ∈ cbs := KeyedSet.mem_def.mpr (by simp [hsplit, he])
    exact (hcbs e hin).resolve_right fun hk => (hpre e he (k, cb) List.mem_cons_self).ne hk
  · have hin : e ∈ cbs := KeyedSet.mem_def.mpr (by simp [hsplit, he])
    exact (hcbs e hin).resolve_right fun hk => (hpost e he).ne' hk

theorem setValue_returns {σ ε T : Type} [BEq T] (var : ConfigVar σ ε T) (v : T) (s : σ)
    (h : (notify var.val v var.cbs.toList s).outcome = .ok ()) :
    var.setValue v s = if v == var.val then (⟨.ok (), [], s⟩, var)
      else (notify var.val v var.cbs.toList s, { var with val := v }) := by
  rw [ConfigVar.setValue, ConfigVar.setValueRead]
  split_ifs with hv
  · rfl
  · dsimp only
    rw [h]
    rfl

theorem setValue_other {T : Type} [BEq T] {var : ConfigVar World Failure T}
    (hcbs : ∀ e ∈ var.cbs, OnlyLogs env e.2) (h : Configured vs w) (v : T) :
    Configured vs (var.setValue v w).1.state ∧ (var.setValue v w).2.cbs = var.cbs := by
  obtain ⟨hreturns, hstate⟩ := notify_logs var.val v hcbs h
  rw [setValue_returns var v w (notify_returns hreturns).1]
  split
  · exact ⟨h, rfl⟩
  · exact ⟨hstate, rfl⟩

theorem setValue_logs {var : ConfigVar World Failure LogDefines} (hval : var.val = current vs)
    (hmem : (1, logIniter env) ∈ var.cbs) (hcbs : ∀ e ∈ var.cbs, OnlyLogs env e.2 ∨ e.1 = 1)
    (h : Configured vs w) (x : LogDefines) :
    Configured (vs ++ [x]) (var.setValue x w).1.state ∧ (var.setValue x w).2.val = x ∧
      (var.setValue x w).2.cbs = var.cbs := by
  obtain ⟨pre, post, hsplit, hpre, hpost⟩ := split_listeners hmem hcbs
  obtain ⟨hout, hstate⟩ := notify_configures hpre hpost h x (k := 1)
  rw [← hsplit, ← hval] at hout hstate
  rw [setValue_returns var x w hout]
  split
  · rename_i hx
    obtain rfl : x = current vs := (beq_iff_eq.mp hx).trans hval
    exact ⟨h.same, hval, rfl⟩
  · exact ⟨hstate, rfl, rfl⟩

end

theorem get?_put {σ ε τ : Type} {Val : τ → Type} (r : Registry σ ε Val) (p q : Ptr)
    (v : ConfigVarBase σ ε Val) :
    (r.put p v).vars.get? q = if p = q then (r.vars.get? q).map (fun _ => v)
      else r.vars.get? q :=
  Heap.get?_modify _ _ _ _

theorem assign_eq {σ ε τ : Type} {Val : τ → Type} [∀ t, BEq (Val t)]
    (fromStr : ∀ t, Str → Except ε (Val t)) {st : State σ ε Val} {p : Ptr} {t : τ}
    {var : ConfigVar σ ε (Val t)} (hvar : st.registry.vars.get? p = some ⟨t, var⟩) (text : Str) :
    st.assign fromStr p text = match fromStr t text with
      | .error _ => ⟨st.registry.put p ⟨t, var⟩, st.surroundings, st.changes⟩
      | .ok v =>
        ⟨st.registry.put p ⟨t, (var.setValue v st.surroundings).2⟩,
          (var.setValue v st.surroundings).1.state,
          st.changes ++ (var.setValue v st.surroundings).1.calls.map (fun c => ⟨p, t, c⟩)⟩ := by
  rw [State.assign, hvar]
  dsimp only
  rw [ConfigVar.fromString]
  cases fromStr t text with
  | error e => simp
  | ok v => rfl

/-! ### One step -/

section

variable {env : Env} {vs vs' : List LogDefines} {st : State World Failure (Value Val)} {w : World}
  {p : Ptr}

theorem Follows.put_other (h : Follows env vs st) (hp : st.registry.lookupBase logsName ≠ some p)
    {t : Option τ} {var : ConfigVar World Failure (Value Val t)}
    (hcbs : ∀ e ∈ var.cbs, OnlyLogs env e.2) (hw : Configured vs w)
    (changes : List (Change (Value Val))) :
    Follows env vs ⟨st.registry.put p ⟨t, var⟩, w, changes⟩ := by
  obtain ⟨q, logs, hq, hlogs, hval, hmem⟩ := h.logs
  refine ⟨hw, ⟨q, logs, hq, ?_, hval, hmem⟩, fun r u var' hr => ?_⟩
  · rw [get?_put, if_neg (fun hpq : p = q => hp (hpq ▸ hq)), hlogs]
  · rw [get?_put] at hr
    split at hr
    · obtain ⟨_, _, heq⟩ := Option.map_eq_some_iff.mp hr
      cases heq
      exact fun e he => .inl (hcbs e he)
    · exact h.only r u var' hr

theorem Follows.put_logs (h : Follows env vs st) (hp : st.registry.lookupBase logsName = some p)
    {var : ConfigVar World Failure LogDefines} (hval : var.val = current vs')
    (hmem : (1, logIniter env) ∈ var.cbs) (hcbs : ∀ e ∈ var.cbs, OnlyLogs env e.2 ∨ e.1 = 1)
    (hw : Configured vs' w) (changes : List (Change (Value Val))) :
    Follows env vs' ⟨st.registry.put p ⟨none, var⟩, w, changes⟩ := by
  obtain ⟨q, logs, hq, hlogs, _⟩ := h.logs
  obtain rfl : q = p := Option.some.inj (hq.symm.trans hp)
  refine ⟨hw, ⟨q, var, hq, ?_, hval, hmem⟩, fun r u var' hr => ?_⟩
  · rw [get?_put, if_pos rfl, hlogs]
    rfl
  · rw [get?_put] at hr
    split at hr
    · rename_i hqr
      obtain ⟨_, _, heq⟩ := Option.map_eq_some_iff.mp hr
      cases heq
      exact fun e he => (hcbs e he).imp_right fun hk => ⟨hqr ▸ hq, hk⟩
    · exact h.only r u var' hr

theorem Follows.setValue_logs (h : Follows env vs st)
    (hp : st.registry.lookupBase logsName = some p) {var : ConfigVar World Failure LogDefines}
    (hvar : st.registry.vars.get? p = some ⟨none, var⟩) (x : LogDefines)
    (changes : List (Change (Value Val))) :
    Follows env (vs ++ [x]) ⟨st.registry.put p ⟨none, (var.setValue x st.surroundings).2⟩,
      (var.setValue x st.surroundings).1.state, changes⟩ := by
  obtain ⟨q, logs, hq, hlogs, hval, hmem⟩ := h.logs
  obtain rfl : q = p := Option.some.inj (hq.symm.trans hp)
  cases hlogs.symm.trans hvar
  have honly : ∀ e ∈ var.cbs, OnlyLogs env e.2 ∨ e.1 = 1 := fun e he =>
    (h.only q none var hvar e he).imp_right And.right
  obtain ⟨hw, hx, hcbs⟩ := LogDocuments.setValue_logs hval hmem honly h.configured x
  exact h.put_logs hp (hx.trans (current_concat vs x).symm) (hcbs ▸ hmem) (hcbs ▸ honly) hw changes

variable [∀ t, BEq (Val t)] {yaml : Yaml} {other : ∀ t, Str → Except Exn (Val t)}

theorem Follows.setValue_other (h : Follows env vs st)
    (hp : st.registry.lookupBase logsName ≠ some p) {t : Option τ}
    {var : ConfigVar World Failure (Value Val t)} (hvar : st.registry.vars.get? p = some ⟨t, var⟩)
    (v : Value Val t) (changes : List (Change (Value Val))) :
    Follows env vs ⟨st.registry.put p ⟨t, (var.setValue v st.surroundings).2⟩,
      (var.setValue v st.surroundings).1.state, changes⟩ := by
  have honly : ∀ e ∈ var.cbs, OnlyLogs env e.2 := fun e he =>
    (h.only p t var hvar e he).resolve_right fun hlogs => hp hlogs.1
  obtain ⟨hw, hcbs⟩ := LogDocuments.setValue_other honly h.configured v
  exact h.put_other hp (hcbs ▸ honly) hw changes

theorem assign_other (h : Follows env vs st) (hp : st.registry.lookupBase logsName ≠ some p)
    (text : Str) : Follows env vs (st.assign (fromStr yaml other) p text) := by
  cases hvar : st.registry.vars.get? p with
  | none =>
    rw [State.assign, hvar]
    exact h
  | some v =>
    obtain ⟨t, var⟩ := v
    rw [assign_eq _ hvar]
    split
    · exact h.put_other hp (fun e he => (h.only p t var hvar e he).resolve_right
        fun hlogs => hp hlogs.1) h.configured _
    · exact h.setValue_other hp hvar _ _

theorem assign_logs (h : Follows env vs st) (hp : st.registry.lookupBase logsName = some p)
    (text : Str) :
    Follows env (vs ++ (readLogDefines yaml text).toOption.toList)
      (st.assign (fromStr yaml other) p text) := by
  obtain ⟨q, var, hq, hvar, hval, hmem⟩ := h.logs
  obtain rfl : q = p := Option.some.inj (hq.symm.trans hp)
  rw [assign_eq _ hvar, fromStr]
  cases readLogDefines yaml text with
  | error e =>
    rw [Except.toOption, Option.toList_none, List.append_nil]
    exact h.put_logs hp hval hmem (fun e he => (h.only q none var hvar e he).imp_right And.right)
      h.configured _
  | ok x => exact h.setValue_logs hp hvar x _

theorem loadNode_follows (h : Follows env vs st) {i : Str × Node} (hi : validName i.1 = true) :
    Follows env (vs ++ conversions yaml (readLogDefines yaml) logsName [i])
      (loadNode yaml (fromStr yaml other) st i) := by
  rw [conversions_singleton, loadNode, map_toLower hi]
  by_cases hnil : i.1 = []
  · rw [if_pos hnil, if_neg (fun hn => hn.1 hnil), List.append_nil]
    exact h
  · rw [if_neg hnil]
    dsimp only
    by_cases hname : i.1 = logsName
    · obtain ⟨p, _, hp, _⟩ := h.logs
      rw [if_pos ⟨hnil, hname⟩, hname, hp]
      exact assign_logs h hp _
    · rw [if_neg (fun hn => hname hn.2), List.append_nil]
      split
      · exact h
      · rename_i q hq
        exact assign_other h (fun hp => hname (st.registry.injective _ _ q hq hp)) _

theorem loadFromYaml_follows (h : Follows env vs st) (root : Node) :
    Follows env (vs ++ conversions yaml (readLogDefines yaml) logsName (listAllMember [] root))
      (loadFromYaml yaml (fromStr yaml other) st root) := by
  have hgen : ∀ (nodes : List (Str × Node)), (∀ i ∈ nodes, validName i.1 = true) →
      ∀ vs st, Follows env vs st →
        Follows env (vs ++ conversions yaml (readLogDefines yaml) logsName nodes)
          (nodes.foldl (loadNode yaml (fromStr yaml other)) st) := by
    intro nodes
    induction nodes with
    | nil =>
      intro _ vs st h
      rw [conversions, List.filterMap_nil, List.append_nil]
      exact h
    | cons i nodes ih =>
      intro hnodes vs st h
      have hsplit : conversions yaml (readLogDefines yaml) logsName (i :: nodes) =
          conversions yaml (readLogDefines yaml) logsName [i] ++
            conversions yaml (readLogDefines yaml) logsName nodes := by
        rw [conversions, conversions, conversions, ← List.filterMap_append, List.singleton_append]
      rw [hsplit, ← List.append_assoc]
      exact ih (fun j hj => hnodes j (List.mem_cons_of_mem _ hj)) _ _
        (loadNode_follows h (hnodes i List.mem_cons_self))
  exact hgen _ (fun i hi => validName_of_mem hi) vs st h

end

/-! ### The program -/

/-- The configuration and the logging system, and the counter of listeners for
each type. -/
structure Program (Val : τ → Type) where
  conf : State World Failure (Value Val)
  sFunId : Option τ → Nat

/-- The static initialisers: the variable, and its listener under the key 1. -/
def Program.initial (Val : τ → Type) (env : Env) : Program Val where
  conf := ⟨Registry.empty.add logsName
    ⟨none, (ConfigVar.addListener ⟨logsName, "logs config".toList, .empty, .empty⟩
      (logIniter env) 0).2⟩ rfl, World.initial, []⟩
  sFunId := fun t => if t = none then 1 else 0

/-- What the program does with its configuration and its logs. A variable is
reached through a look-up of its name and its type. -/
inductive Act (Val : τ → Type) where
  | load (root : Node)
  | lookup (name : Str) (t : Option τ) (defaultVal : Value Val t) (description : Str)
  | setValue (name : Str) (t : Option τ) (v : Value Val t)
  | addListener (name : Str) (t : Option τ) (cb : Listener World Failure (Value Val t))
  | log (name : Str) (lvl : Level) (site : World.Site)

variable [DecidableEq τ]

/-- A call on the variable behind a pointer, which the type has been asked for. -/
def onVar (st : State World Failure (Value Val)) (p : Ptr) (t : Option τ)
    (call : ConfigVar World Failure (Value Val t) →
      Notified World Failure (Value Val t) × ConfigVar World Failure (Value Val t)) :
    State World Failure (Value Val) :=
  match st.registry.vars.get? p with
  | none => st
  | some ⟨u, var⟩ =>
    if h : u = t then
      let (r, var) := call (h ▸ var)
      ⟨st.registry.put p ⟨t, var⟩, r.state, st.changes ++ r.calls.map (fun c => ⟨p, t, c⟩)⟩
    else st

section

variable {env : Env} {vs : List LogDefines} {st : State World Failure (Value Val)}

theorem lookupName_found {r : Registry World Failure (Value Val)} {name : Str} {t : Option τ}
    {p : Ptr} (h : r.lookupName name t = some p) :
    r.lookupBase name = some p ∧ ∃ var, r.vars.get? p = some ⟨t, var⟩ := by
  obtain ⟨q, hq, hfound⟩ := Option.bind_eq_some_iff.mp h
  obtain ⟨⟨u, var⟩, hvar, htype⟩ := Option.bind_eq_some_iff.mp hfound
  split at htype
  · rename_i hu
    obtain rfl : u = t := hu
    obtain rfl := Option.some.inj htype
    exact ⟨hq, var, hvar⟩
  · cases htype

theorem onVar_eq {p : Ptr} {t : Option τ} {var : ConfigVar World Failure (Value Val t)}
    (hvar : st.registry.vars.get? p = some ⟨t, var⟩)
    (call : ConfigVar World Failure (Value Val t) →
      Notified World Failure (Value Val t) × ConfigVar World Failure (Value Val t)) :
    onVar st p t call = ⟨st.registry.put p ⟨t, (call var).2⟩, (call var).1.state,
      st.changes ++ (call var).1.calls.map (fun c => ⟨p, t, c⟩)⟩ := by
  rw [onVar, hvar]
  dsimp only
  rw [dif_pos rfl]

theorem lookup_follows (h : Follows env vs st) {name : Str} {t : Option τ}
    {defaultVal : Value Val t} {description : Str} {r : Registry World Failure (Value Val)}
    {found : Option Ptr} (hr : st.registry.lookup name t defaultVal description = .ok (r, found)) :
    Follows env vs { st with registry := r } := by
  rw [Registry.lookup] at hr
  split at hr
  · cases hr
    exact h
  · rename_i hnew
    split at hr
    · cases hr
      obtain ⟨q, logs, hq, hlogs, hval, hmem⟩ := h.logs
      have hkept : ∀ n p, st.registry.lookupBase n = some p →
          (st.registry.add name ⟨t, name.map Char.toLower, description, defaultVal, .empty⟩
            hnew).lookupBase n = some p := by
        intro n p hn
        refine (KeyedMap.get?_insert_of_new hnew n).trans (?_ : _ = some p)
        rw [if_neg ?_]
        · exact hn
        · rintro rfl
          exact absurd (hn.symm.trans hnew) (by simp)
      refine ⟨h.configured, ⟨q, logs, hkept _ _ hq, Heap.get?_alloc_of_some hlogs, hval, hmem⟩,
        fun p u var hp e he => ?_⟩
      obtain heq | hp := Heap.get?_alloc_cases hp
      · cases heq
        exact absurd he (KeyedSet.not_mem_empty e)
      · exact (h.only p u var hp e he).imp_right fun hlogs => ⟨hkept _ _ hlogs.1, hlogs.2⟩
    · cases hr

theorem addListener_follows (h : Follows env vs st) {name : Str} {t : Option τ} {p : Ptr}
    (hp : st.registry.lookupName name t = some p) {cb : Listener World Failure (Value Val t)}
    (hcb : OnlyLogs env cb) {sFunId : Nat} (hnew : t = none → (sFunId + 1) % 2 ^ 64 ≠ 1) :
    Follows env vs (onVar st p t (fun var =>
      (⟨.ok (), [], st.surroundings⟩, (var.addListener cb sFunId).2))) := by
  obtain ⟨hbound, var, hvar⟩ := lookupName_found hp
  have honly := h.only p t var hvar
  rw [onVar_eq hvar]
  by_cases hlogs : st.registry.lookupBase logsName = some p
  · obtain ⟨q, logs, hq, hqvar, hval, hmem⟩ := h.logs
    obtain rfl : q = p := Option.some.inj (hq.symm.trans hlogs)
    cases hqvar.symm.trans hvar
    have hkept :
        (1, logIniter env) ∈ (ConfigVar.addListener (T := LogDefines) logs cb sFunId).2.cbs :=
      KeyedMap.mem_set.mpr (.inr ⟨hmem, (hnew rfl).symm⟩)
    have hsame : (ConfigVar.addListener (T := LogDefines) logs cb sFunId).2.val = current vs := hval
    refine h.put_logs hlogs hsame hkept (fun e he => ?_) h.configured _
    obtain rfl | ⟨he, _⟩ := KeyedMap.mem_set.mp he
    · exact .inl hcb
    · exact (honly e he).imp_right And.right
  · refine h.put_other hlogs (fun e he => ?_) h.configured _
    obtain rfl | ⟨he, _⟩ := KeyedMap.mem_set.mp he
    · exact hcb
    · exact (honly e he).resolve_right fun hk => hlogs hk.1

end

variable [∀ t, BEq (Val t)] (yaml : Yaml) (other : ∀ t, Str → Except Exn (Val t)) (env : Env)

def step (pr : Program Val) : Act Val → Except Fault (Program Val)
  | .load root =>
    .ok { pr with conf := loadFromYaml yaml (fromStr yaml other) pr.conf root }
  | .lookup name t defaultVal description =>
    match pr.conf.registry.lookup name t defaultVal description with
    | .error _ => .ok pr
    | .ok (registry, _) => .ok { pr with conf := { pr.conf with registry := registry } }
  | .setValue name t v =>
    match pr.conf.registry.lookupName name t with
    | none => .ok pr
    | some p =>
      .ok { pr with conf := onVar pr.conf p t (fun var => var.setValue v pr.conf.surroundings) }
  | .addListener name t cb =>
    match pr.conf.registry.lookupName name t with
    | none => .ok pr
    | some p =>
      .ok ⟨onVar pr.conf p t (fun var => (⟨.ok (), [], pr.conf.surroundings⟩,
          (var.addListener cb (pr.sFunId t)).2)),
        Function.update pr.sFunId t ((pr.sFunId t + 1) % 2 ^ 64)⟩
  | .log name lvl site =>
    let (w, p) := pr.conf.surroundings.getLogger name
    match w.logLevel env (w.loggers.fresh + 1) p lvl site with
    | .error e => .error e
    | .ok (w, _) => .ok { pr with conf := { pr.conf with surroundings := w } }

/-- The values that a step gives to the configuration of the logs. -/
def Act.given : Act Val → List LogDefines
  | .load root => conversions yaml (readLogDefines yaml) logsName (listAllMember [] root)
  | .setValue name none v => if name = logsName then [v] else []
  | _ => []

def history (acts : List (Act Val)) : List LogDefines := acts.flatMap (Act.given yaml)

/-- The listeners that a step installs only log. -/
def Act.Tame : Act Val → Prop
  | .addListener _ _ cb => OnlyLogs env cb
  | _ => True

/-! ### Runs -/

section

variable {yaml : Yaml} {other : ∀ t, Str → Except Exn (Val t)} {env : Env} {vs : List LogDefines}
  {st : State World Failure (Value Val)}

theorem setValue_follows (h : Follows env vs st) {name : Str} {t : Option τ} {p : Ptr}
    (hp : st.registry.lookupName name t = some p) (v : Value Val t) :
    Follows env (vs ++ (Act.setValue name t v).given yaml)
      (onVar st p t (fun var => var.setValue v st.surroundings)) := by
  obtain ⟨hbound, var, hvar⟩ := lookupName_found hp
  rw [onVar_eq hvar]
  by_cases hlogs : st.registry.lookupBase logsName = some p
  · obtain rfl : name = logsName := st.registry.injective _ _ p hbound hlogs
    obtain ⟨q, logs, hq, hqvar, _⟩ := h.logs
    obtain rfl : q = p := Option.some.inj (hq.symm.trans hlogs)
    cases hqvar.symm.trans hvar
    rw [Act.given, if_pos rfl]
    exact h.setValue_logs hlogs hvar v _
  · have hgiven : (Act.setValue name t v).given yaml = [] := by
      cases t with
      | none => exact if_neg fun hname : name = logsName => hlogs (hname ▸ hbound)
      | some t => rfl
    rw [hgiven, List.append_nil]
    exact h.setValue_other hlogs hvar v _

theorem log_ready (env : Env) {w : World} (h : Configured vs w) (name : Str) :
    ∃ l r, Configured vs (w.getLogger name).1 ∧
      KeyedMap.get? (w.getLogger name).1.managed name = some (w.getLogger name).2 ∧
      (w.getLogger name).1.loggers.get? (w.getLogger name).2 = some l ∧
      (w.getLogger name).1.loggers.get? (w.getLogger name).1.root = some r ∧
      ∀ lvl site, ∃ w', (w.getLogger name).1.logLevel env
          ((w.getLogger name).1.loggers.fresh + 1) (w.getLogger name).2 lvl site =
        .ok (w', (routed lvl name l r).map (handed env lvl
          ((w.getLogger name).1.eventAt env site name) (w.getLogger name).1)) := by
  obtain ⟨l, hl, _⟩ := getLogger_holds h.wellFormed h.separate name
  obtain ⟨r, hr, _⟩ := hl.wellFormed.root_logger
  obtain ⟨hops, hhops⟩ := Nat.exists_eq_add_of_lt (Heap.lt_fresh hr)
  refine ⟨l, r, h.getLogger name, hl.bound, hl.logger, hr, fun lvl site => ?_⟩
  rw [hhops]
  exact logLevel_managed env lvl hl.wellFormed hl.bound hl.logger hr
    ((w.getLogger name).1.root + hops) site

/-- What holds after some of the program's steps. -/
structure Reached (yaml : Yaml) (env : Env) (done : List (Act Val)) (pr : Program Val) : Prop where
  follows : Follows env (history yaml done) pr.conf
  counted : 1 ≤ pr.sFunId none ∧ pr.sFunId none ≤ done.length + 1

theorem step_reached {done : List (Act Val)} {pr : Program Val} (h : Reached yaml env done pr)
    {a : Act Val} (ha : a.Tame env) (hlen : done.length + 2 < 2 ^ 64) :
    ∃ pr', step yaml other env pr a = .ok pr' ∧ Reached yaml env (done ++ [a]) pr' := by
  obtain ⟨hpos, hle⟩ := h.counted
  have hdone : (done ++ [a]).length = done.length + 1 := by simp
  have hle' : pr.sFunId none ≤ (done ++ [a]).length + 1 := by omega
  have hhistory : history yaml (done ++ [a]) = history yaml done ++ a.given yaml := by
    simp [history]
  have silent : ∀ {conf : State World Failure (Value Val)}, a.given yaml = [] →
      Follows env (history yaml done) conf →
      Reached yaml env (done ++ [a]) { pr with conf := conf } := by
    intro conf hgiven hconf
    refine ⟨?_, hpos, hle'⟩
    rw [hhistory, hgiven, List.append_nil]
    exact hconf
  cases a with
  | load root =>
    refine ⟨_, rfl, ⟨?_, hpos, hle'⟩⟩
    rw [hhistory]
    exact loadFromYaml_follows h.follows root
  | lookup name t defaultVal description =>
    unfold step
    dsimp only
    split
    · exact ⟨_, rfl, silent rfl h.follows⟩
    · rename_i hr
      exact ⟨_, rfl, silent rfl (lookup_follows h.follows hr)⟩
  | setValue name t v =>
    unfold step
    dsimp only
    split
    · rename_i hnone
      refine ⟨_, rfl, silent ?_ h.follows⟩
      cases t with
      | none =>
        refine if_neg fun hname : name = logsName => ?_
        obtain ⟨q, logs, hq, hlogs, _⟩ := h.follows.logs
        rw [hname, Registry.lookupName, hq, Option.bind_some, hlogs] at hnone
        cases hnone
      | some t => rfl
    · rename_i p hp
      refine ⟨_, rfl, ⟨?_, hpos, hle'⟩⟩
      rw [hhistory]
      exact setValue_follows h.follows hp v
  | addListener name t cb =>
    unfold step
    dsimp only
    split
    · exact ⟨_, rfl, silent rfl h.follows⟩
    · rename_i p hp
      have hnew : t = none → (pr.sFunId t + 1) % 2 ^ 64 ≠ 1 := by
        rintro rfl
        rw [Nat.mod_eq_of_lt (by omega)]
        omega
      refine ⟨_, rfl, ⟨?_, ?_⟩⟩
      · rw [hhistory, show (Act.addListener name t cb).given yaml = [] from rfl, List.append_nil]
        exact addListener_follows h.follows hp ha hnew
      · dsimp only
        rw [Function.update_apply]
        split
        · rename_i ht
          subst ht
          rw [Nat.mod_eq_of_lt (by omega)]
          omega
        · omega
  | log name lvl site =>
    obtain ⟨l, r, hget, _, _, _, hlog⟩ := log_ready env h.follows.configured name
    obtain ⟨w', hw'⟩ := hlog lvl site
    unfold step
    dsimp only
    rw [hw']
    refine ⟨_, rfl, silent rfl ⟨hget.congr (logLevel_sameConf hw'), h.follows.logs,
      h.follows.only⟩⟩

omit [DecidableEq τ] in
theorem initial_reached (yaml : Yaml) (Val : τ → Type) [∀ t, BEq (Val t)] (env : Env) :
    Reached yaml env [] (Program.initial Val env) := by
  refine ⟨⟨initial_configured, ⟨0, _, rfl, rfl, rfl, List.mem_singleton.mpr rfl⟩,
    fun p t var hp e he => ?_⟩, by simp [Program.initial]⟩
  cases p with
  | zero =>
    cases hp
    obtain rfl := List.mem_singleton.mp he
    exact .inr ⟨rfl, rfl⟩
  | succ p => cases hp

theorem run_reached (yaml : Yaml) (other : ∀ t, Str → Except Exn (Val t)) (env : Env)
    {acts : List (Act Val)} (hacts : ∀ a ∈ acts, a.Tame env)
    (hlen : acts.length + 1 < 2 ^ 64) :
    ∃ pr, exec (step yaml other env) (Program.initial Val env) acts = .ok pr ∧
      Reached yaml env acts pr := by
  refine exec_total_along acts (fun done pr a hpre hpr => ?_) (initial_reached yaml Val env)
  have hshort := hpre.length_le
  rw [List.length_append, List.length_singleton] at hshort
  exact step_reached hpr (hacts a (hpre.subset (by simp))) (by omega)

end

/-! ### Where events go -/

/-- The appenders for an event, from the configurations of a logger and of the
root logger. -/
def routes (lvl : Level) (name : Str) (c r : LoggerConf) : List (Option AppenderConf) :=
  if c.level ≤ lvl then
    if c.appenders ≠ [] then c.appenders
    else if name ≠ World.rootName then
      if r.level ≤ lvl then r.appenders else []
    else []
  else []

/-- What such an appender writes. -/
def written (env : Env) (lvl : Level) (event : LogEvent) (c : Option AppenderConf) : Option Str :=
  c.bind fun c =>
    if c.level ≤ lvl then c.formatter.map (fun f => f.format env.libc lvl event) else none

theorem routed_map (w : World) (lvl : Level) (name : Str) (l r : Logger) :
    (routed lvl name l r).map (confOf w) = routes lvl name (loggerConf w l) (loggerConf w r) := by
  unfold routed routes loggerConf
  simp only [apply_ite (List.map (confOf w)), List.map_nil, ne_eq, List.map_eq_nil_iff]

/-- After any run the variable has the last value that a document or a call gave
it, and an event goes to the appenders that the values say, no matter which
loggers were asked for and what was logged before. -/
theorem run_delivers (yaml : Yaml) (other : ∀ t, Str → Except Exn (Val t)) (env : Env)
    (acts : List (Act Val)) (hacts : ∀ a ∈ acts, a.Tame env) (hlen : acts.length + 1 < 2 ^ 64) :
    ∃ pr, exec (step yaml other env) (Program.initial Val env) acts = .ok pr ∧
      (∃ p, ∃ var : ConfigVar World Failure LogDefines,
        pr.conf.registry.lookupBase logsName = some p ∧
        pr.conf.registry.vars.get? p = some ⟨none, var⟩ ∧
        var.val = current (history yaml acts)) ∧
      ∀ name lvl site, ∃ w p w' hs, pr.conf.surroundings.getLogger name = (w, p) ∧
        w.logLevel env (w.loggers.fresh + 1) p lvl site = .ok (w', hs) ∧
        hs.map (fun h => (confOf w h.appender, h.written)) =
          (routes lvl name (settled (history yaml acts) name)
            (settled (history yaml acts) World.rootName)).map
              (fun c => (c, written env lvl (w.eventAt env site name) c)) := by
  obtain ⟨pr, hrun, h⟩ := run_reached yaml other env hacts hlen
  obtain ⟨p, var, hp, hvar, hval, _⟩ := h.follows.logs
  refine ⟨pr, hrun, ⟨p, var, hp, hvar, hval⟩, fun name lvl site => ?_⟩
  obtain ⟨l, r, hconf, hn, hl, hr, hlog⟩ := log_ready env h.follows.configured name
  obtain ⟨w', hw'⟩ := hlog lvl site
  refine ⟨_, _, w', _, rfl, hw', ?_⟩
  have hname := hconf.view name
  have hroot := hconf.view World.rootName
  rw [view_eq hn hl] at hname
  rw [view_eq hconf.wellFormed.root_bound hr] at hroot
  rw [← hname, ← hroot, ← routed_map, List.map_map, List.map_map]
  rfl

/-- A document that gives one logger a level and no appender of its own. -/
def levelOnly : Node :=
  .map [(.scalar logsName, .seq [.map [(.scalar nameKey, .scalar "a".toList),
    (.scalar levelKey, .scalar "WARN".toList)]])]

/-- The other variables hold an `int`. -/
abbrev Ints : Unit → Type := fun _ => LexcalCasts.IntType.int.Val

def levelOnlyRun : List (Act Ints) := [.load levelOnly, .log "a".toList .info ⟨[], 0, []⟩]

theorem run_delivers_level :
    ∃ pr, exec (step YamlBlocks.yaml (fun _ => LexcalCasts.IntType.parse .int) default)
        (Program.initial Ints default) levelOnlyRun = .ok pr ∧
      ∃ p, ∃ var : ConfigVar World Failure LogDefines,
        pr.conf.registry.vars.get? p = some ⟨none, var⟩ ∧
        var.val = KeyedSet.insert .empty ⟨"a".toList, .warn, [], []⟩ := by
  obtain ⟨pr, hrun, ⟨p, var, _, hvar, hval⟩, _⟩ := run_delivers YamlBlocks.yaml
    (fun _ => LexcalCasts.IntType.parse .int) default levelOnlyRun
    (by simp [levelOnlyRun, Act.Tame]) (by decide)
  refine ⟨pr, hrun, p, var, hvar, hval.trans ?_⟩
  decide +kernel

end Mumu.LogDocuments
