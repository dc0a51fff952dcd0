import Mumu.ConfigRegistry
import Mumu.RepeatedLoads

namespace Mumu.ConfigSnapshots

open Mumu.LogLevels Mumu.PointerHeap Mumu.KeyedSets Mumu.ConfigVars Mumu.YamlNodes Mumu.Config
open Mumu.ConfigLoading Mumu.ConfigRegistry Mumu.RepeatedLoads

variable {σ ε τ : Type} {Val : τ → Type}

/-! ### Programs that use the configuration -/

/-- The calls on one variable. -/
inductive VarOp (σ ε : Type) (Val : τ → Type) where
  | setValue (p : Ptr) (t : τ) (v : Val t)
  | fromString (p : Ptr) (text : Str)
  | addListener (p : Ptr) (t : τ) (cb : Listener σ ε (Val t))
  | delListener (p : Ptr) (t : τ) (key : Nat)
  | clearListener (p : Ptr) (t : τ)

/-- The callback of a visit calls the variables. -/
inductive Op (σ ε : Type) (Val : τ → Type) where
  | registry (op : ConfigRegistry.Op Val)
  | var (op : VarOp σ ε Val)
  | visit (order : Order) (cb : Ptr → List (VarOp σ ε Val))

/-- The state of a program, with the counter of listeners for each type of variables. -/
structure Program (σ ε : Type) (Val : τ → Type) where
  state : State σ ε Val
  sFunId : τ → Nat

def Program.registry (pr : Program σ ε Val) : Registry σ ε Val := pr.state.registry

section

variable [DecidableEq τ]

def varAt (r : Registry σ ε Val) (p : Ptr) (t : τ) : Option (ConfigVar σ ε (Val t)) :=
  match r.vars.get? p with
  | none => none
  | some ⟨t', var⟩ => if h : t' = t then some (h ▸ var) else none

theorem get?_of_varAt {r : Registry σ ε Val} {p : Ptr} {t : τ} {var : ConfigVar σ ε (Val t)}
    (h : varAt r p t = some var) : r.vars.get? p = some ⟨t, var⟩ := by
  rw [varAt] at h
  split at h
  · cases h
  · rename_i t' var' hvar
    split at h
    · rename_i ht
      subst ht
      have hsame : var' = var := Option.some.inj h
      rw [hvar, hsame]
    · cases h

def changeVar (st : State σ ε Val) (p : Ptr) (t : τ)
    (f : ConfigVar σ ε (Val t) → ConfigVar σ ε (Val t)) : State σ ε Val :=
  match varAt st.registry p t with
  | none => st
  | some var => { st with registry := st.registry.put p ⟨t, f var⟩ }

variable [∀ t, BEq (Val t)] (yaml : Yaml) (fromStr : ∀ t, Str → Except ε (Val t))

/-- What listeners do before one of them throws is done. -/
def setValue (st : State σ ε Val) (p : Ptr) (t : τ) (v : Val t) : State σ ε Val :=
  match varAt st.registry p t with
  | none => st
  | some var =>
    let (r, var) := var.setValue v st.surroundings
    ⟨st.registry.put p ⟨t, var⟩, r.state, st.changes ++ r.calls.map (fun c => ⟨p, t, c⟩)⟩

def stepVar (pr : Program σ ε Val) : VarOp σ ε Val → Program σ ε Val
  | .setValue p t v => { pr with state := setValue pr.state p t v }
  | .fromString p text => { pr with state := pr.state.assign fromStr p text }
  | .addListener p t cb =>
    { state := changeVar pr.state p t (fun var => (var.addListener cb (pr.sFunId t)).2)
      sFunId := Function.update pr.sFunId t ((pr.sFunId t + 1) % 2 ^ 64) }
  | .delListener p t key => { pr with state := changeVar pr.state p t (·.delListener key) }
  | .clearListener p t => { pr with state := changeVar pr.state p t ConfigVar.clearListener }

def step (pr : Program σ ε Val) : Op σ ε Val → Program σ ε Val
  | .registry op => { pr with state := (ConfigRegistry.step yaml fromStr pr.state op).2 }
  | .var op => stepVar fromStr pr op
  | .visit order cb =>
    pr.registry.visit order (fun p pr => (cb p).foldl (stepVar fromStr) pr) pr

def run (pr : Program σ ε Val) (ops : List (Op σ ε Val)) : Program σ ε Val :=
  ops.foldl (step yaml fromStr) pr

def initial (s : σ) : Program σ ε Val := ⟨ConfigRegistry.initial s, fun _ => 0⟩

end

/-! ### Documents of a visit -/

variable (toStr : ∀ t, Val t → Except ε Str)

def textAt (r : Registry σ ε Val) (p : Ptr) : Str :=
  match r.vars.get? p with
  | none => []
  | some ⟨t, var⟩ => var.toString (toStr t)

def nameAt (r : Registry σ ε Val) (p : Ptr) : Str :=
  match r.vars.get? p with
  | none => []
  | some ⟨_, var⟩ => var.name

/-- A visit puts the texts of all variables into a document, under their names. -/
def snapshot (r : Registry σ ε Val) (order : Order) : Node :=
  .map (r.visit order
    (fun p entries => entries ++ [(.scalar (nameAt r p), .scalar (textAt toStr r p))]) [])

/-! ### The registry in runs -/

section

theorem foldl_grown {α : Type} {f : Program σ ε Val → α → Program σ ε Val}
    (hf : ∀ pr a, Named pr.registry → Grown pr.registry (f pr a).registry) (as : List α)
    {pr : Program σ ε Val} (hpr : Named pr.registry) :
    Grown pr.registry (as.foldl f pr).registry := by
  induction as generalizing pr with
  | nil => exact ⟨hpr, Extends.refl _⟩
  | cons a as ih =>
    obtain ⟨hnamed, hkeeps⟩ := hf pr a hpr
    obtain ⟨hnamed', hkeeps'⟩ := ih hnamed
    exact ⟨hnamed', hkeeps.trans hkeeps'⟩

variable [DecidableEq τ]

theorem changeVar_grown {st : State σ ε Val} (hst : Named st.registry) (p : Ptr) (t : τ)
    {f : ConfigVar σ ε (Val t) → ConfigVar σ ε (Val t)} (hf : ∀ var, (f var).name = var.name) :
    Grown st.registry (changeVar st p t f).registry := by
  rw [changeVar]
  split
  · exact ⟨hst, Extends.refl _⟩
  · rename_i var hvar
    have hget := get?_of_varAt hvar
    exact ⟨put_named hst hget (hf var), put_extends hget (hf var)⟩

variable [∀ t, BEq (Val t)] (yaml : Yaml) (fromStr : ∀ t, Str → Except ε (Val t))

theorem setValue_grown {st : State σ ε Val} (hst : Named st.registry) (p : Ptr) (t : τ)
    (v : Val t) : Grown st.registry (setValue st p t v).registry := by
  rw [setValue]
  split
  · exact ⟨hst, Extends.refl _⟩
  · rename_i var hvar
    have hget := get?_of_varAt hvar
    have hname := setValue_name var v st.surroundings
    exact ⟨put_named hst hget hname, put_extends hget hname⟩

theorem stepVar_grown {pr : Program σ ε Val} (hpr : Named pr.registry) (op : VarOp σ ε Val) :
    Grown pr.registry (stepVar fromStr pr op).registry := by
  cases op with
  | setValue p t v => exact setValue_grown hpr p t v
  | fromString p text => exact assign_grown fromStr hpr p text
  | addListener p t cb => exact changeVar_grown hpr p t fun _ => rfl
  | delListener p t key => exact changeVar_grown hpr p t fun _ => rfl
  | clearListener p t => exact changeVar_grown hpr p t fun _ => rfl

theorem step_grown {pr : Program σ ε Val} (hpr : Named pr.registry) (op : Op σ ε Val) :
    Grown pr.registry (step yaml fromStr pr op).registry := by
  cases op with
  | registry op => exact ConfigRegistry.step_grown yaml fromStr hpr op
  | var op => exact stepVar_grown fromStr hpr op
  | visit order cb =>
    refine foldl_grown (fun pr e hpr => ?_) _ hpr
    exact foldl_grown (fun pr op hpr => stepVar_grown fromStr hpr op) (cb e.2) hpr

theorem run_grown {pr : Program σ ε Val} (hpr : Named pr.registry) (ops : List (Op σ ε Val)) :
    Grown pr.registry (run yaml fromStr pr ops).registry :=
  foldl_grown (fun _ op hpr => step_grown yaml fromStr hpr op) ops hpr

end

/-! ### The nodes of a snapshot -/

theorem nameAt_of_named {r : Registry σ ε Val} (hr : Named r) {n : Str} {p : Ptr}
    (hn : r.lookupBase n = some p) : nameAt r p = n := by
  obtain ⟨-, t, hb⟩ := hr n p hn
  obtain ⟨var, hvar, hname⟩ := hb.stored
  rw [nameAt, hvar]
  exact hname

theorem mem_order {r : Registry σ ε Val} (order : Order) {e : Str × Ptr} :
    e ∈ order.apply r.datas.toList ↔ r.lookupBase e.1 = some e.2 :=
  (order.perm _).mem_iff.trans KeyedMap.get?_eq_some.symm

theorem snapshot_eq {r : Registry σ ε Val} (hr : Named r) (order : Order) :
    snapshot toStr r order = .map ((order.apply r.datas.toList).map fun e =>
      (.scalar e.1, .scalar (textAt toStr r e.2))) := by
  rw [snapshot, Registry.visit, List.foldl_append_eq_append, List.nil_append, ← List.flatMap_def,
    ← List.map_eq_flatMap]
  refine congrArg Node.map (List.map_congr_left fun e he => ?_)
  rw [nameAt_of_named hr ((mem_order order).mp he)]

theorem listEntries_flat {α : Type} {name text : α → Str} {as : List α}
    (h : ∀ a ∈ as, validName (name a) = true) :
    listEntries [] (as.map fun a => (.scalar (name a), .scalar (text a))) =
      as.map fun a => (name a, .scalar (text a)) := by
  induction as with
  | nil => rfl
  | cons a as ih =>
    have hjoin : join [] (Node.scalarText (.scalar (name a))) = name a := if_pos rfl
    have hnode : listAllMember (name a) (.scalar (text a)) = [(name a, .scalar (text a))] := by
      rw [listAllMember.eq_def, if_pos (h a (by simp))]
    rw [List.map_cons, listEntries, hjoin, hnode, ih fun b hb => h b (by simp [hb])]
    rfl

theorem snapshot_nodes {r : Registry σ ε Val} (hr : Named r) (order : Order) :
    listAllMember [] (snapshot toStr r order) =
      ([], snapshot toStr r order) :: (order.apply r.datas.toList).map fun e =>
        (e.1, .scalar (textAt toStr r e.2)) := by
  have hvalid : ∀ e ∈ order.apply r.datas.toList, validName e.1 = true := fun e he =>
    (hr e.1 e.2 ((mem_order order).mp he)).1
  have hroot : validName [] = true := rfl
  rw [snapshot_eq toStr hr, listAllMember, if_pos hroot, listEntries_flat hvalid]

/-- Each name stands in the document once. -/
theorem order_split {r : Registry σ ε Val} {n : Str} {p : Ptr} (hn : r.lookupBase n = some p)
    (order : Order) :
    ∃ before after, order.apply r.datas.toList = before ++ (n, p) :: after ∧
      ∀ e, e ∈ before ∨ e ∈ after → r.lookupBase e.1 = some e.2 ∧ (e.1 = [] ∨ e.1 ≠ n) := by
  obtain ⟨before, after, hsplit⟩ := List.append_of_mem ((mem_order order (e := (n, p))).mpr hn)
  refine ⟨before, after, hsplit, fun e he => ⟨?_, ?_⟩⟩
  · apply (mem_order order).mp
    rw [hsplit, List.mem_append, List.mem_cons]
    exact he.imp_right .inr
  · have hnodup : ((order.apply r.datas.toList).map Prod.fst).Nodup := by
      rw [((order.perm _).map Prod.fst).nodup_iff, List.Nodup, List.pairwise_map]
      exact r.datas.sorted.imp fun h => h.ne
    rw [hsplit, List.map_append, List.map_cons, List.nodup_middle, List.nodup_cons] at hnodup
    rw [← List.map_append] at hnodup
    exact .inr fun hen => hnodup.1 (List.mem_map.mpr ⟨e, List.mem_append.mpr he, hen⟩)

/-! ### Loading a snapshot -/

section

variable [∀ t, BEq (Val t)] (yaml : Yaml) (fromStr : ∀ t, Str → Except ε (Val t))

/-- Nodes of other names leave a variable alone. -/
theorem loadNodes_others {n : Str} {p : Ptr} {nodes : List (Str × Node)}
    (hnodes : ∀ i ∈ nodes, i.1 = [] ∨ validName i.1 = true ∧ i.1 ≠ n) {st : State σ ε Val}
    (hn : st.registry.lookupBase n = some p) :
    (nodes.foldl (loadNode yaml fromStr) st).registry.vars.get? p = st.registry.vars.get? p := by
  induction nodes generalizing st with
  | nil => rfl
  | cons i nodes ih =>
    have hn' : (loadNode yaml fromStr st i).registry.lookupBase n = some p := by
      rwa [Registry.lookupBase, loadNode_datas]
    refine (ih (fun j hj => hnodes j (by simp [hj])) hn').trans ?_
    obtain hsame | ⟨q, hnil, hq, hassign⟩ := loadNode_cases yaml fromStr st i
    · rw [hsame]
    · obtain hempty | ⟨hvalid, hne⟩ := hnodes i (by simp)
      · exact absurd hempty hnil
      · rw [map_toLower hvalid] at hq
        have hqp : q ≠ p := fun hqp => hne (st.registry.injective i.1 n q hq (hqp ▸ hn))
        rw [hassign, assign_get?_of_ne fromStr hqp]

variable [DecidableEq τ]

/-- What a load makes of a state, when the document is from a registry before it. -/
structure Restored (saved : Registry σ ε Val) (st after : State σ ε Val) : Prop where
  datas : after.registry.datas = st.registry.datas
  texts : ∀ n p t (var : ConfigVar σ ε (Val t)), n ≠ [] → saved.lookupBase n = some p →
    saved.vars.get? p = some ⟨t, var⟩ →
      ∃ (var' : ConfigVar σ ε (Val t)) (s : σ), st.registry.vars.get? p = some ⟨t, var'⟩ ∧
        after.registry.vars.get? p =
          some ⟨t, (var'.fromString (fromStr t) (var.toString (toStr t)) s).2.2.2⟩
  values : ∀ n p t (var : ConfigVar σ ε (Val t)), n ≠ [] → saved.lookupBase n = some p →
    saved.vars.get? p = some ⟨t, var⟩ →
      fromStr t (var.toString (toStr t)) = .ok var.val →
        ∀ var', st.registry.vars.get? p = some ⟨t, var'⟩ → (∀ e ∈ var'.cbs, Quiet e.2) →
          ∃ var'', after.registry.vars.get? p = some ⟨t, var''⟩ ∧
            (var''.val = var.val ∨ (var.val == var''.val) = true)
  others : ∀ n p, n = [] ∨ saved.lookupBase n = none → st.registry.lookupBase n = some p →
    after.registry.vars.get? p = st.registry.vars.get? p

section

omit [DecidableEq τ]

variable {saved : Registry σ ε Val} (order : Order) {st : State σ ε Val}

theorem load_snapshot (hsaved : Named saved) (st : State σ ε Val) :
    loadFromYaml yaml fromStr st (snapshot toStr saved order) =
      ((order.apply saved.datas.toList).map fun e =>
        (e.1, Node.scalar (textAt toStr saved e.2))).foldl (loadNode yaml fromStr) st := by
  rw [loadFromYaml, snapshot_nodes toStr hsaved]
  rfl

omit [∀ t, BEq (Val t)] in
theorem other_nodes (hsaved : Named saved) {n : Str} {es : List (Str × Ptr)}
    (hes : ∀ e ∈ es, saved.lookupBase e.1 = some e.2 ∧ (e.1 = [] ∨ e.1 ≠ n)) :
    ∀ i ∈ es.map fun e => (e.1, Node.scalar (textAt toStr saved e.2)),
      i.1 = [] ∨ validName i.1 = true ∧ i.1 ≠ n := by
  intro i hi
  obtain ⟨e, he, rfl⟩ := List.mem_map.mp hi
  obtain ⟨hbound, hne⟩ := hes e he
  exact hne.imp_right fun hne => ⟨(hsaved e.1 e.2 hbound).1, hne⟩

omit [∀ t, BEq (Val t)] in
theorem binds_of_get? (hsaved : Named saved) {n : Str} {p : Ptr} {t : τ}
    {var : ConfigVar σ ε (Val t)} (hn : saved.lookupBase n = some p)
    (hvar : saved.vars.get? p = some ⟨t, var⟩) : Binds saved n p t := by
  obtain ⟨-, t', hb⟩ := hsaved n p hn
  obtain ⟨var', hvar', -⟩ := hb.stored
  rw [hvar, Option.some.injEq] at hvar'
  cases hvar'
  exact hb

/-- The node of a variable gives it the text. -/
theorem loadNode_text {n : Str} (hnil : n ≠ []) (hvalid : validName n = true) {p : Ptr} {t : τ}
    {var : ConfigVar σ ε (Val t)} (hn : st.registry.lookupBase n = some p)
    (hvar : st.registry.vars.get? p = some ⟨t, var⟩) (text : Str) :
    (loadNode yaml fromStr st (n, .scalar text)).registry.vars.get? p =
      some ⟨t, (var.fromString (fromStr t) text st.surroundings).2.2.2⟩ := by
  have hassign : loadNode yaml fromStr st (n, .scalar text) = st.assign fromStr p text := by
    rw [loadNode, if_neg hnil, map_toLower hvalid]
    simp only [hn]
    rfl
  rw [hassign, State.assign, hvar]
  exact (Heap.get?_modify_self _ _ _).trans (by rw [hvar]; rfl)

theorem load_text (hsaved : Named saved) (hkeeps : Extends saved st.registry) {n : Str} {p : Ptr}
    {t : τ} {var : ConfigVar σ ε (Val t)} (hnil : n ≠ []) (hn : saved.lookupBase n = some p)
    (hvar : saved.vars.get? p = some ⟨t, var⟩) :
    ∃ (var' : ConfigVar σ ε (Val t)) (s : σ), st.registry.vars.get? p = some ⟨t, var'⟩ ∧
      (loadFromYaml yaml fromStr st (snapshot toStr saved order)).registry.vars.get? p =
        some ⟨t, (var'.fromString (fromStr t) (var.toString (toStr t)) s).2.2.2⟩ := by
  obtain ⟨before, after, hsplit, hother⟩ := order_split hn order
  obtain ⟨hbound, var', hvar', -⟩ := hkeeps n p t (binds_of_get? hsaved hn hvar)
  have htext : textAt toStr saved p = var.toString (toStr t) := by rw [textAt, hvar]
  have hbefore := other_nodes toStr hsaved fun e he => hother e (.inl he)
  have hafter := other_nodes toStr hsaved fun e he => hother e (.inr he)
  have hload := load_snapshot toStr yaml fromStr order hsaved st
  rw [hsplit, List.map_append, List.map_cons, List.foldl_append, List.foldl_cons, htext] at hload
  have hdatas := loadNodes_datas yaml fromStr st
    (before.map fun e => (e.1, Node.scalar (textAt toStr saved e.2)))
  have hget := loadNodes_others yaml fromStr hbefore hbound
  generalize (before.map fun e => (e.1, Node.scalar (textAt toStr saved e.2))).foldl
    (loadNode yaml fromStr) st = st' at hload hdatas hget
  have hbound' : st'.registry.lookupBase n = some p := by rwa [Registry.lookupBase, hdatas]
  have hnow := loadNode_text yaml fromStr hnil (hsaved n p hn).1 hbound' (hget.trans hvar')
    (var.toString (toStr t))
  refine ⟨var', st'.surroundings, hvar', ?_⟩
  rw [hload, ← hnow]
  apply loadNodes_others yaml fromStr hafter
  rwa [Registry.lookupBase, loadNode_datas]

end

/-- The snapshot of any state of a run, loaded in any later state. -/
theorem snapshot_restores (order : Order) (s : σ) (ops later : List (Op σ ε Val)) :
    Restored toStr fromStr (run yaml fromStr (initial s) ops).registry
      (run yaml fromStr (initial s) (ops ++ later)).state
      (loadFromYaml yaml fromStr (run yaml fromStr (initial s) (ops ++ later)).state
        (snapshot toStr (run yaml fromStr (initial s) ops).registry order)) := by
  have hinit : Named (initial s : Program σ ε Val).registry := empty_named
  obtain ⟨hsaved, -⟩ := run_grown yaml fromStr hinit ops
  have hrun : run yaml fromStr (initial s) (ops ++ later) =
      run yaml fromStr (run yaml fromStr (initial s) ops) later := List.foldl_append
  rw [hrun]
  generalize run yaml fromStr (initial s) ops = saved at hsaved ⊢
  obtain ⟨-, hkeeps⟩ := run_grown yaml fromStr hsaved later
  refine ⟨loadNodes_datas yaml fromStr _ _, ?_, ?_, ?_⟩
  · intro n p t var hnil hn hvar
    exact load_text toStr yaml fromStr order hsaved hkeeps hnil hn hvar
  · intro n p t var hnil hn hvar hback var' hvar' hquiet
    obtain ⟨u, v, hu, hafter⟩ :=
      load_text toStr yaml fromStr order hsaved hkeeps hnil hn hvar
    obtain rfl : u = var' := by
      rw [hu, Option.some.injEq] at hvar'
      cases hvar'
      rfl
    rw [fromString_stored (fromStr t) hquiet, hback] at hafter
    exact ⟨_, hafter, (given_stored [var.val] u).2⟩
  · intro n p hn hbound
    rw [load_snapshot toStr yaml fromStr order hsaved]
    refine loadNodes_others yaml fromStr (other_nodes toStr hsaved fun e he => ?_) hbound
    have hbound' := (mem_order order).mp he
    refine ⟨hbound', or_iff_not_imp_left.mpr fun hnil hen => ?_⟩
    obtain hempty | hnone := hn
    · exact hnil (hen.trans hempty)
    · rw [hen, hnone] at hbound'
      cases hbound'

end

/-- A variable, and what changes it after the snapshot and adds another one. -/
def saving : List (Op Unit Unit fun _ : Bool => Str) :=
  [.registry (.lookup ['a'] true ['x'] [])]

def changing : List (Op Unit Unit fun _ : Bool => Str) :=
  [.var (.setValue 0 true ['y']), .registry (.lookup ['b'] false ['z'] [])]

theorem snapshot_restores_changed :
    let saved := run YamlBlocks.yaml keep (initial ()) saving
    let later := run YamlBlocks.yaml keep (initial ()) (saving ++ changing)
    let after := loadFromYaml YamlBlocks.yaml keep later.state
      (snapshot (fun _ v => .ok v) saved.registry ⟨id, List.Perm.refl⟩)
    (∃ var, later.registry.vars.get? 0 = some ⟨true, var⟩ ∧ var.val = ['y']) ∧
      (∃ var, after.registry.vars.get? 0 = some ⟨true, var⟩ ∧ var.val = ['x']) ∧
      after.registry.vars.get? 1 = later.registry.vars.get? 1 := by
  have h := snapshot_restores (fun _ v => .ok v) YamlBlocks.yaml keep ⟨id, List.Perm.refl⟩ ()
    saving changing
  refine ⟨⟨_, rfl, rfl⟩, ?_, h.others ['b'] 1 (.inr rfl) rfl⟩
  obtain ⟨var, hvar, hval⟩ := h.values ['a'] 0 true _ (by decide) rfl rfl rfl _ rfl nofun
  exact ⟨var, hvar, hval.elim id fun heq => (beq_iff_eq.mp heq).symm⟩

end Mumu.ConfigSnapshots
