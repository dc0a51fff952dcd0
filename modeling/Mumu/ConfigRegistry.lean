import Mumu.ConfigLoading

namespace Mumu.ConfigRegistry

open Mumu.LogLevels Mumu.PointerHeap Mumu.KeyedSets Mumu.ConfigVars Mumu.YamlNodes Mumu.Config
open Mumu.ConfigLoading

variable {σ ε τ : Type} {Val : τ → Type}

/-! ### Runs -/

/-- The calls that read or extend the registry, for any type of value. -/
inductive Op (Val : τ → Type) where
  | lookup (name : Str) (t : τ) (defaultVal : Val t) (description : Str)
  | lookupName (name : Str) (t : τ)
  | lookupBase (name : Str)
  | loadFromYaml (root : Node)

section

variable [DecidableEq τ] [∀ t, BEq (Val t)] (yaml : Yaml) (fromStr : ∀ t, Str → Except ε (Val t))

/-- What a call returns or throws, and the state after it. -/
def step (st : State σ ε Val) : Op Val → Except Str (Option Ptr) × State σ ε Val
  | .lookup name t defaultVal description =>
    match st.registry.lookup name t defaultVal description with
    | .ok (r, p) => (.ok p, { st with registry := r })
    | .error e => (.error e, st)
  | .lookupName name t => (.ok (st.registry.lookupName name t), st)
  | .lookupBase name => (.ok (st.registry.lookupBase name), st)
  | .loadFromYaml root => (.ok none, loadFromYaml yaml fromStr st root)

def run (st : State σ ε Val) (ops : List (Op Val)) : State σ ε Val :=
  ops.foldl (fun st op => (step yaml fromStr st op).2) st

/-- The program's state before any variable is made. -/
def initial (s : σ) : State σ ε Val := ⟨.empty, s, []⟩

end

/-! ### Bindings -/

/-- A name leads to a variable of a type, which has that name. -/
structure Binds (r : Registry σ ε Val) (n : Str) (p : Ptr) (t : τ) : Prop where
  bound : r.lookupBase n = some p
  stored : ∃ var : ConfigVar σ ε (Val t), r.vars.get? p = some ⟨t, var⟩ ∧ var.name = n

/-- Each name of the registry is a valid one, and that of its variable. -/
def Named (r : Registry σ ε Val) : Prop :=
  ∀ n p, r.lookupBase n = some p → validName n = true ∧ ∃ t, Binds r n p t

/-- What is bound stays bound, to the same variable of the same type. -/
def Extends (r r' : Registry σ ε Val) : Prop := ∀ n p t, Binds r n p t → Binds r' n p t

theorem Extends.refl (r : Registry σ ε Val) : Extends r r := fun _ _ _ h => h

theorem Extends.trans {r r' r'' : Registry σ ε Val} (h : Extends r r') (h' : Extends r' r'') :
    Extends r r'' := fun n p t hb => h' n p t (h n p t hb)

theorem empty_named : Named (Registry.empty : Registry σ ε Val) := by
  intro n p h
  simp [Registry.lookupBase, Registry.empty, KeyedMap.get?, KeyedSet.find?, KeyedSet.empty] at h

section

variable {r : Registry σ ε Val} {name : Str} (hnew : r.lookupBase name = none)

theorem lookupBase_add (v : ConfigVarBase σ ε Val) (n : Str) :
    (r.add name v hnew).lookupBase n =
      if name = n then some r.vars.fresh else r.lookupBase n := by
  apply (KeyedMap.get?_insert_of_new hnew n).trans
  by_cases hn : name = n
  · rw [if_pos hn, if_pos hn]
  · rw [if_neg hn, if_neg hn]
    rfl

theorem add_extends (v : ConfigVarBase σ ε Val) : Extends r (r.add name v hnew) := by
  intro n p t h
  obtain ⟨var, hvar, hname⟩ := h.stored
  refine ⟨?_, var, Heap.get?_alloc_of_some hvar, hname⟩
  have hne : name ≠ n := by
    rintro rfl
    rw [h.bound] at hnew
    cases hnew
  rw [lookupBase_add, if_neg hne, h.bound]

theorem add_named (hr : Named r) (hvalid : validName name = true) {t : τ}
    (var : ConfigVar σ ε (Val t)) (hvar : var.name = name) :
    Named (r.add name ⟨t, var⟩ hnew) := by
  intro n p h
  have hlook := h
  rw [lookupBase_add] at h
  split at h
  · rename_i hn
    obtain rfl := Option.some.inj h
    rw [← hn] at hlook ⊢
    exact ⟨hvalid, t, hlook, var, Heap.get?_alloc_fresh _ _, hvar⟩
  · obtain ⟨hv, t', hb⟩ := hr n p h
    exact ⟨hv, t', add_extends hnew _ n p t' hb⟩

end

/-- A variable replaced by one of its name. -/
theorem put_extends {r : Registry σ ε Val} {p : Ptr} {t : τ} {var var' : ConfigVar σ ε (Val t)}
    (hvar : r.vars.get? p = some ⟨t, var⟩) (hname : var'.name = var.name) :
    Extends r (r.put p ⟨t, var'⟩) := by
  intro n q t' h
  obtain ⟨u, hu, hun⟩ := h.stored
  refine ⟨h.bound, ?_⟩
  by_cases hpq : p = q
  · subst hpq
    rw [hu, Option.some.injEq] at hvar
    cases hvar
    refine ⟨var', ?_, hname.trans hun⟩
    exact (Heap.get?_modify_self _ _ _).trans (by rw [hu]; rfl)
  · exact ⟨u, (Heap.get?_modify_of_ne _ hpq).trans hu, hun⟩

theorem put_named {r : Registry σ ε Val} (hr : Named r) {p : Ptr} {t : τ}
    {var var' : ConfigVar σ ε (Val t)} (hvar : r.vars.get? p = some ⟨t, var⟩)
    (hname : var'.name = var.name) : Named (r.put p ⟨t, var'⟩) := by
  intro n q h
  obtain ⟨hv, t', hb⟩ := hr n q h
  exact ⟨hv, t', put_extends hvar hname n q t' hb⟩

/-! ### Steps -/

theorem setValue_name {T : Type} [BEq T] (var : ConfigVar σ ε T) (v : T) (s : σ) :
    (var.setValue v s).2.name = var.name := by
  rw [ConfigVar.setValue]
  split
  · rfl
  · split <;> rfl

theorem fromString_name {T : Type} [BEq T] (fromStr : Str → Except ε T) (var : ConfigVar σ ε T)
    (text : Str) (s : σ) : (var.fromString fromStr text s).2.2.2.name = var.name := by
  rw [ConfigVar.fromString]
  cases fromStr text with
  | error e => rfl
  | ok v => exact setValue_name var v s

/-- A registry that a call has left with its names, and with all that was bound. -/
structure Grown (r r' : Registry σ ε Val) : Prop where
  named : Named r'
  keeps : Extends r r'

section

variable [∀ t, BEq (Val t)] (yaml : Yaml) (fromStr : ∀ t, Str → Except ε (Val t))

theorem assign_grown {st : State σ ε Val} (hst : Named st.registry) (p : Ptr) (text : Str) :
    Grown st.registry (st.assign fromStr p text).registry := by
  rw [State.assign]
  split
  · exact ⟨hst, Extends.refl _⟩
  · rename_i t var hvar
    have hname := fromString_name (fromStr t) var text st.surroundings
    exact ⟨put_named hst hvar hname, put_extends hvar hname⟩

theorem loadNode_grown {st : State σ ε Val} (hst : Named st.registry) (i : Str × Node) :
    Grown st.registry (loadNode yaml fromStr st i).registry := by
  obtain hsame | ⟨p, _, _, hassign⟩ := loadNode_cases yaml fromStr st i
  · rw [hsame]
    exact ⟨hst, Extends.refl _⟩
  · rw [hassign]
    exact assign_grown fromStr hst p _

theorem loadFromYaml_grown {st : State σ ε Val} (hst : Named st.registry) (root : Node) :
    Grown st.registry (loadFromYaml yaml fromStr st root).registry := by
  rw [loadFromYaml]
  generalize listAllMember [] root = nodes
  induction nodes generalizing st with
  | nil => exact ⟨hst, Extends.refl _⟩
  | cons i nodes ih =>
    obtain ⟨hnamed, hextends⟩ := loadNode_grown yaml fromStr hst i
    obtain ⟨hnamed', hextends'⟩ := ih hnamed
    exact ⟨hnamed', hextends.trans hextends'⟩

end

section

variable [DecidableEq τ]

theorem lookup_grown {r r' : Registry σ ε Val} (hr : Named r) {name : Str} {t : τ}
    {defaultVal : Val t} {description : Str} {p : Option Ptr}
    (h : r.lookup name t defaultVal description = .ok (r', p)) : Grown r r' := by
  rw [Registry.lookup] at h
  split at h
  · cases h
    exact ⟨hr, Extends.refl _⟩
  · rename_i hnew
    split at h
    · rename_i hvalid
      cases h
      exact ⟨add_named hnew hr hvalid _ (map_toLower hvalid), add_extends hnew _⟩
    · cases h

theorem lookup_bound {r : Registry σ ε Val} {n : Str} {p : Ptr} (h : r.lookupBase n = some p)
    {t : τ} {var : ConfigVar σ ε (Val t)} (hvar : r.vars.get? p = some ⟨t, var⟩) (t' : τ)
    (defaultVal : Val t') (description : Str) :
    r.lookup n t' defaultVal description = .ok (r, if t = t' then some p else none) := by
  rw [Registry.lookup]
  split
  · rename_i q hq
    obtain rfl : p = q := Option.some.inj (h.symm.trans hq)
    rw [hvar, Option.bind_some]
  · rename_i hnone
    rw [h] at hnone
    cases hnone

theorem lookup_invalid {r : Registry σ ε Val} {n : Str} (h : r.lookupBase n = none)
    (hn : validName n = false) (t : τ) (defaultVal : Val t) (description : Str) :
    r.lookup n t defaultVal description = .error n := by
  rw [Registry.lookup]
  split
  · rename_i q hq
    rw [h] at hq
    cases hq
  · rw [if_neg (by rw [hn]; decide)]

/-- A valid name that has no variable gets a new one, with the default for a value. -/
theorem lookup_new {r : Registry σ ε Val} {n : Str} (hnew : r.lookupBase n = none)
    (hn : validName n = true) (t : τ) (defaultVal : Val t) (description : Str) :
    ∃ r' p, r.lookup n t defaultVal description = .ok (r', some p) ∧ r.vars.get? p = none ∧
      r'.lookupBase n = some p ∧
      r'.vars.get? p = some ⟨t, n, description, defaultVal, .empty⟩ := by
  refine ⟨r.add n ⟨t, n, description, defaultVal, .empty⟩ hnew, r.vars.fresh, ?_,
    Heap.get?_fresh _, (lookupBase_add hnew _ n).trans (if_pos rfl), Heap.get?_alloc_fresh _ _⟩
  rw [Registry.lookup]
  split
  · rename_i q hq
    rw [hnew] at hq
    cases hq
  · rw [if_pos hn]
    simp only [map_toLower hn]

end

section

variable [DecidableEq τ] [∀ t, BEq (Val t)] (yaml : Yaml) (fromStr : ∀ t, Str → Except ε (Val t))

theorem step_grown {st : State σ ε Val} (hst : Named st.registry) (op : Op Val) :
    Grown st.registry (step yaml fromStr st op).2.registry := by
  cases op with
  | lookup name t defaultVal description =>
    rw [step]
    split
    · rename_i hlook
      exact lookup_grown hst hlook
    · exact ⟨hst, Extends.refl _⟩
  | lookupName name t => exact ⟨hst, Extends.refl _⟩
  | lookupBase name => exact ⟨hst, Extends.refl _⟩
  | loadFromYaml root => exact loadFromYaml_grown yaml fromStr hst root

theorem run_grown {st : State σ ε Val} (hst : Named st.registry) (ops : List (Op Val)) :
    Grown st.registry (run yaml fromStr st ops).registry := by
  induction ops generalizing st with
  | nil => exact ⟨hst, Extends.refl _⟩
  | cons op ops ih =>
    obtain ⟨hnamed, hextends⟩ := step_grown yaml fromStr hst op
    obtain ⟨hnamed', hextends'⟩ := ih hnamed
    exact ⟨hnamed', hextends.trans hextends'⟩

/-! ### What a run leaves -/

/-- What can be relied on in a state: the names, the bindings in any later state,
the results of look-ups that change nothing, and what other look-ups add. -/
structure AppendOnly (st : State σ ε Val) : Prop where
  named : ∀ n p, st.registry.lookupBase n = some p →
    validName n = true ∧ ∃ t var, st.registry.vars.get? p = some ⟨t, var⟩ ∧ var.name = n
  kept : ∀ n p t var, st.registry.lookupBase n = some p →
    st.registry.vars.get? p = some ⟨t, var⟩ → ∀ ops,
      (run yaml fromStr st ops).registry.lookupBase n = some p ∧
        ∃ var', (run yaml fromStr st ops).registry.vars.get? p = some ⟨t, var'⟩
  found : ∀ n p t var, st.registry.lookupBase n = some p →
    st.registry.vars.get? p = some ⟨t, var⟩ →
      (∀ defaultVal description,
        step yaml fromStr st (.lookup n t defaultVal description) = (.ok (some p), st)) ∧
      step yaml fromStr st (.lookupName n t) = (.ok (some p), st)
  mismatched : ∀ n p t var t', st.registry.lookupBase n = some p →
    st.registry.vars.get? p = some ⟨t, var⟩ → t' ≠ t →
      (∀ defaultVal description,
        step yaml fromStr st (.lookup n t' defaultVal description) = (.ok none, st)) ∧
      step yaml fromStr st (.lookupName n t') = (.ok none, st)
  invalid : ∀ n, st.registry.lookupBase n = none → validName n = false →
    ∀ t defaultVal description,
      step yaml fromStr st (.lookup n t defaultVal description) = (.error n, st)
  added : ∀ n, st.registry.lookupBase n = none → validName n = true →
    ∀ t defaultVal description, ∃ r p,
      step yaml fromStr st (.lookup n t defaultVal description) =
        (.ok (some p), { st with registry := r }) ∧
      st.registry.vars.get? p = none ∧ r.lookupBase n = some p ∧
      r.vars.get? p = some ⟨t, n, description, defaultVal, .empty⟩

theorem appendOnly_of_named {st : State σ ε Val} (hst : Named st.registry) :
    AppendOnly yaml fromStr st where
  named n p h := by
    obtain ⟨hvalid, t, hb⟩ := hst n p h
    exact ⟨hvalid, t, hb.stored⟩
  kept n p t var h hvar ops := by
    obtain ⟨-, t', hb⟩ := hst n p h
    obtain ⟨var', hvar', -⟩ := hb.stored
    rw [hvar, Option.some.injEq] at hvar'
    cases hvar'
    obtain ⟨hbound, var'', hvar'', -⟩ := (run_grown yaml fromStr hst ops).keeps n p t hb
    exact ⟨hbound, var'', hvar''⟩
  found n p t var h hvar := by
    constructor
    · intro defaultVal description
      rw [step, lookup_bound h hvar, if_pos rfl]
    · rw [step, Registry.lookupName, h, Option.bind_some, hvar, Option.bind_some, if_pos rfl]
  mismatched n p t var t' h hvar hne := by
    constructor
    · intro defaultVal description
      rw [step, lookup_bound h hvar, if_neg (Ne.symm hne)]
    · rw [step, Registry.lookupName, h, Option.bind_some, hvar, Option.bind_some,
        if_neg (Ne.symm hne)]
  invalid n h hn t defaultVal description := by
    rw [step, lookup_invalid h hn]
  added n h hn t defaultVal description := by
    obtain ⟨r, p, hlook, hp, hbound, hvar⟩ := lookup_new h hn t defaultVal description
    refine ⟨r, p, ?_, hp, hbound, hvar⟩
    rw [step, hlook]

/-- The registry is an append-only map from names to variables of fixed types, in
every state of every run. -/
theorem registry_appendOnly (s : σ) (ops : List (Op Val)) :
    AppendOnly yaml fromStr (run yaml fromStr (initial s) ops) :=
  appendOnly_of_named yaml fromStr (run_grown yaml fromStr empty_named ops).named

end

/-- Two types with the same values, and texts that are values as they are. -/
def keep (_ : Bool) (text : Str) : Except Unit Str := .ok text

/-- A name is looked up with a default, one that is not valid too, and a document gives
a value to the first. -/
def lookups : List (Op fun _ : Bool => Str) :=
  [.lookup ['a'] true ['x'] [], .lookup ['A'] true ['x'] [],
    .loadFromYaml (.map [(.scalar ['a'], .scalar ['y'])])]

theorem registry_appendOnly_lookups :
    let st := run YamlBlocks.yaml keep (initial ()) lookups
    (∀ ops, (run YamlBlocks.yaml keep st ops).registry.lookupBase ['a'] = some 0) ∧
      step YamlBlocks.yaml keep st (.lookupName ['a'] true) = (.ok (some 0), st) ∧
      step YamlBlocks.yaml keep st (.lookup ['a'] false ['z'] []) = (.ok none, st) ∧
      step YamlBlocks.yaml keep st (.lookup ['A'] true ['z'] []) = (.error ['A'], st) ∧
      ∃ r p, step YamlBlocks.yaml keep st (.lookup ['b'] false ['z'] []) =
        (.ok (some p), { st with registry := r }) ∧ r.lookupBase ['b'] = some p := by
  have h := registry_appendOnly YamlBlocks.yaml keep () lookups
  refine ⟨fun ops => (h.kept ['a'] 0 _ _ rfl rfl ops).1, (h.found ['a'] 0 _ _ rfl rfl).2,
    (h.mismatched ['a'] 0 _ _ false rfl rfl nofun).1 ['z'] [],
    h.invalid ['A'] rfl (by decide) true ['z'] [], ?_⟩
  obtain ⟨r, p, hstep, -, hbound, -⟩ := h.added ['b'] rfl (by decide) false ['z'] []
  exact ⟨r, p, hstep, hbound⟩

end Mumu.ConfigRegistry
