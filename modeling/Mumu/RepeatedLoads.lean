import Mumu.ConfigLoading

namespace Mumu.RepeatedLoads

open Mumu.LogLevels Mumu.PointerHeap Mumu.KeyedSets Mumu.ConfigVars Mumu.YamlNodes Mumu.Config
open Mumu.LexcalCasts Mumu.ConfigLoading

/-! ### Storing the same values again -/

section

variable {T : Type} [BEq T]

theorem store_of_equal {old new : T} (h : (new == old) = true) : store old new = old := if_pos h

theorem store_of_not_equal {old new : T} (h : ¬ (new == old) = true) : store old new = new :=
  if_neg h

variable [EquivBEq T]

theorem store_equal (old new : T) : (new == store old new) = true := by
  rw [store]
  split
  · assumption
  · exact BEq.rfl

/-- From wherever it starts, a list leads to a value equal to its last. -/
theorem foldl_store_equal {xs : List T} (hxs : xs ≠ []) (v w : T) :
    (xs.foldl store v == xs.foldl store w) = true := by
  obtain rfl | ⟨ys, y, rfl⟩ := xs.eq_nil_or_concat
  · exact absurd rfl hxs
  · simp only [List.concat_eq_append, List.foldl_append, List.foldl_cons, List.foldl_nil]
    exact BEq.trans (BEq.symm (store_equal _ y)) (store_equal _ y)

theorem foldl_store_twice (xs : List T) (v : T) :
    xs.foldl store (xs.foldl store v) = xs.foldl store v := by
  induction xs using List.reverseRecOn generalizing v with
  | nil => rfl
  | append_singleton xs x ih =>
    simp only [List.foldl_append, List.foldl_cons, List.foldl_nil]
    by_cases hx : (x == xs.foldl store v) = true
    · rw [store_of_equal hx, ih, store_of_equal hx]
    · rw [store_of_not_equal hx]
      by_cases hagain : (x == xs.foldl store x) = true
      · rw [store_of_equal hagain]
        cases xs with
        | nil => rfl
        | cons y ys =>
          have hlast := foldl_store_equal (List.cons_ne_nil y ys) x v
          exact absurd (BEq.trans hagain hlast) hx
      · exact store_of_not_equal hagain

end

/-! ### What loading leaves alone -/

variable {σ ε τ : Type} {Val : τ → Type} [∀ t, BEq (Val t)] (yaml : Yaml)
  (fromStr : ∀ t, Str → Except ε (Val t))

theorem loadNodes_datas (st : State σ ε Val) (nodes : List (Str × Node)) :
    (nodes.foldl (loadNode yaml fromStr) st).registry.datas = st.registry.datas := by
  induction nodes generalizing st with
  | nil => rfl
  | cons i nodes ih => exact (ih _).trans (loadNode_datas yaml fromStr st i)

/-- A variable that no name is bound to. -/
def Unbound (st : State σ ε Val) (p : Ptr) : Prop := ∀ n, st.registry.lookupBase n ≠ some p

theorem loadNode_unbound {st : State σ ε Val} {p : Ptr} (hp : Unbound st p) (i : Str × Node) :
    (loadNode yaml fromStr st i).registry.vars.get? p = st.registry.vars.get? p := by
  obtain hsame | ⟨q, _, hq, hassign⟩ := loadNode_cases yaml fromStr st i
  · rw [hsame]
  · have hqp : q ≠ p := fun h => hp _ (h ▸ hq)
    rw [hassign, assign_get?_of_ne fromStr hqp]

theorem loadNodes_unbound {st : State σ ε Val} {p : Ptr} (hp : Unbound st p)
    (nodes : List (Str × Node)) :
    (nodes.foldl (loadNode yaml fromStr) st).registry.vars.get? p = st.registry.vars.get? p := by
  induction nodes generalizing st with
  | nil => rfl
  | cons i nodes ih =>
    refine (ih fun n => ?_).trans (loadNode_unbound yaml fromStr hp i)
    rw [Registry.lookupBase, loadNode_datas]
    exact hp n

omit [∀ t, BEq (Val t)] in
theorem registry_ext {r r' : Registry σ ε Val} (hdatas : r.datas = r'.datas)
    (hvars : ∀ p, r.vars.get? p = r'.vars.get? p) : r = r' := by
  cases r
  cases r'
  obtain rfl := hdatas
  obtain rfl := Heap.ext_get? hvars
  rfl

/-! ### Loading the same document again -/

/-- The names of the nodes of a document that a variable is registered under. -/
def resolved (st : State σ ε Val) (root : Node) : List Str :=
  ((listAllMember [] root).filter (fun i =>
    i.1 ≠ [] ∧ (st.registry.lookupBase (i.1.map Char.toLower)).isSome)).map
      (fun i => i.1.map Char.toLower)

/-- No listener of any variable throws. -/
def AllQuiet (st : State σ ε Val) : Prop :=
  ∀ p v, st.registry.vars.get? p = some v → ∀ e ∈ v.2.cbs, Quiet e.2

omit [∀ t, BEq (Val t)] in
theorem registered_of_bound {st : State σ ε Val} (hst : AllQuiet st) {n : Str} {p : Ptr}
    (hn : st.registry.lookupBase n = some p) :
    ∃ t var, Registered st n p t var := by
  obtain ⟨⟨t, var⟩, hvar⟩ := st.registry.bound n p hn
  exact ⟨t, var, hn, hvar, hst p _ hvar⟩

theorem filter_eq_singleton {α β : Type} [DecidableEq β] {f : α → β} {l : List α}
    (h : (l.map f).Nodup) {a : α} (ha : a ∈ l) : l.filter (fun b => f b = f a) = [a] := by
  induction l with
  | nil => cases ha
  | cons b l ih =>
    obtain ⟨hb, hl⟩ := List.nodup_cons.mp h
    obtain rfl | ha := List.mem_cons.mp ha
    · have hnone : l.filter (fun b => f b = f a) = [] :=
        List.filter_eq_nil_iff.mpr fun c hc => by
          simpa using fun hfc : f c = f a => hb (hfc ▸ List.mem_map_of_mem hc)
      rw [List.filter_cons_of_pos (by simp), hnone]
    · have hne : f b ≠ f a := fun hfb => hb (hfb ▸ List.mem_map_of_mem ha)
      rw [List.filter_cons_of_neg (by simpa using hne), ih hl ha]

theorem stored_twice {T : Type} [BEq T] [EquivBEq T] (xs : List T) (var : ConfigVar σ ε T) :
    stored xs (stored xs var) = stored xs var := by
  simp only [stored, foldl_store_twice]

theorem registry_twice [∀ t, EquivBEq (Val t)] {st : State σ ε Val} (hst : AllQuiet st)
    (root : Node) :
    (loadFromYaml yaml fromStr (loadFromYaml yaml fromStr st root) root).registry =
      (loadFromYaml yaml fromStr st root).registry := by
  apply registry_ext
  · exact loadNodes_datas yaml fromStr _ _
  · intro p
    by_cases hp : Unbound st p
    · refine loadNodes_unbound yaml fromStr (fun n => ?_) _
      rw [Registry.lookupBase, loadFromYaml, loadNodes_datas]
      exact hp n
    · obtain ⟨n, hn⟩ := not_forall.mp hp
      obtain ⟨t, var, h⟩ := registered_of_bound hst (not_not.mp hn)
      have hvalid : ∀ i ∈ listAllMember [] root, validName i.1 = true := fun i => validName_of_mem
      have hfirst := loadNodes_stored yaml fromStr (listAllMember [] root) hvalid h
      have hsecond := loadNodes_stored yaml fromStr (listAllMember [] root) hvalid hfirst
      rw [stored_twice] at hsecond
      exact hsecond.stored.trans hfirst.stored.symm

omit [∀ t, BEq (Val t)] in
/-- A variable has one text when no two nodes have its name. -/
theorem conversions_resolved {st : State σ ε Val} {root : Node} (hroot : (resolved st root).Nodup)
    {i : Str × Node} (hi : i ∈ listAllMember [] root) (hne : i.1 ≠ []) {p : Ptr}
    (hp : st.registry.lookupBase i.1 = some p) (t : τ) :
    conversions yaml (fromStr t) i.1 (listAllMember [] root) =
      (fromStr t (nodeText yaml i.2)).toOption.toList := by
  have hlower : ∀ j ∈ listAllMember [] root, j.1.map Char.toLower = j.1 := fun j hj =>
    map_toLower (validName_of_mem hj)
  have hmem : i ∈ (listAllMember [] root).filter (fun j =>
      j.1 ≠ [] ∧ (st.registry.lookupBase (j.1.map Char.toLower)).isSome) := by
    simp [hi, hne, hlower i hi, hp]
  have hsingle := filter_eq_singleton hroot hmem
  rw [List.filter_filter] at hsingle
  have hnamed : (listAllMember [] root).filter (fun j => j.1 ≠ [] ∧ j.1 = i.1) = [i] := by
    rw [← hsingle]
    apply List.filter_congr
    intro j hj
    rw [hlower j hj, hlower i hi]
    by_cases hji : j.1 = i.1
    · simp [hji, hne, hp]
    · simp [hji]
  calc conversions yaml (fromStr t) i.1 (listAllMember [] root)
      = ((listAllMember [] root).filter (fun j => j.1 ≠ [] ∧ j.1 = i.1)).filterMap
          (fun j => (fromStr t (nodeText yaml j.2)).toOption) := by
        rw [conversions, List.filterMap_filter]
        simp only [decide_eq_true_eq]
    _ = (fromStr t (nodeText yaml i.2)).toOption.toList := by
        rw [hnamed, List.filterMap_cons, List.filterMap_nil]
        cases fromStr t (nodeText yaml i.2) <;> rfl

omit [∀ t, BEq (Val t)] in
theorem put_self {r : Registry σ ε Val} {p : Ptr} {v : ConfigVarBase σ ε Val}
    (hv : r.vars.get? p = some v) : r.put p v = r := by
  refine registry_ext rfl fun q => ?_
  have hsame : r.vars.modify p (fun _ => v) = r.vars := Heap.modify_eq_self (by simp [hv])
  exact congrArg (fun h => h.get? q) hsame

/-- A text whose value is stored already changes nothing. -/
theorem assign_again {st : State σ ε Val} {p : Ptr} {t : τ} {var : ConfigVar σ ε (Val t)}
    (hvar : st.registry.vars.get? p = some ⟨t, var⟩) {text : Str}
    (hstored : ∀ x, fromStr t text = .ok x → (x == var.val) = true) :
    st.assign fromStr p text = st := by
  have hfrom : ∃ result,
      var.fromString (fromStr t) text st.surroundings = (result, [], st.surroundings, var) := by
    rw [ConfigVar.fromString]
    cases hx : fromStr t text with
    | error e => exact ⟨_, rfl⟩
    | ok x =>
      simp only [setValue_same (hstored x hx)]
      exact ⟨_, rfl⟩
  obtain ⟨result, hresult⟩ := hfrom
  rw [State.assign, hvar]
  simp only [hresult, put_self hvar, List.map_nil, List.append_nil]

theorem loadNode_again [∀ t, EquivBEq (Val t)] {st : State σ ε Val} (hst : AllQuiet st)
    {root : Node} (hroot : (resolved st root).Nodup) {i : Str × Node}
    (hi : i ∈ listAllMember [] root) :
    loadNode yaml fromStr (loadFromYaml yaml fromStr st root) i =
      loadFromYaml yaml fromStr st root := by
  obtain hsame | ⟨p, hne, hp, hassign⟩ :=
    loadNode_cases yaml fromStr (loadFromYaml yaml fromStr st root) i
  · exact hsame
  · rw [map_toLower (validName_of_mem hi), Registry.lookupBase, loadFromYaml,
      loadNodes_datas] at hp
    obtain ⟨t, var, h⟩ := registered_of_bound hst hp
    have hload := loadNodes_stored yaml fromStr (listAllMember [] root)
      (fun j => validName_of_mem) h
    rw [hassign]
    apply assign_again fromStr hload.stored
    intro x hx
    rw [conversions_resolved yaml fromStr hroot hi hne hp t, hx]
    exact store_equal var.val x

/-- Loading a document once more changes no variable, and does nothing at all when
no two of its nodes have the name of one variable. -/
theorem loadFromYaml_twice [∀ t, EquivBEq (Val t)] (st : State σ ε Val) (hst : AllQuiet st)
    (root : Node) :
    (loadFromYaml yaml fromStr (loadFromYaml yaml fromStr st root) root).registry =
        (loadFromYaml yaml fromStr st root).registry ∧
      ((resolved st root).Nodup →
        loadFromYaml yaml fromStr (loadFromYaml yaml fromStr st root) root =
          loadFromYaml yaml fromStr st root) := by
  refine ⟨registry_twice yaml fromStr hst root, fun hroot => ?_⟩
  have hall : ∀ nodes : List (Str × Node), (∀ i ∈ nodes, i ∈ listAllMember [] root) →
      nodes.foldl (loadNode yaml fromStr) (loadFromYaml yaml fromStr st root) =
        loadFromYaml yaml fromStr st root := by
    intro nodes hnodes
    induction nodes with
    | nil => rfl
    | cons i nodes ih =>
      rw [List.foldl_cons, loadNode_again yaml fromStr hst hroot (hnodes i (by simp))]
      exact ih fun j hj => hnodes j (by simp [hj])
  exact hall _ fun i hi => hi

/-- The listener is called for the first load only. -/
theorem loadFromYaml_twice_silent :
    let listener : Listener Unit Exn IntType.int.Val := fun _ _ s => (.ok (), s)
    let st : State Unit Exn IntType.Val := ⟨Registry.empty.add "a".toList
      ⟨.int, "a".toList, [], ⟨0, by decide⟩, KeyedSet.insert .empty (1, listener)⟩ rfl, (), []⟩
    let root : Node := .map [(.scalar "a".toList, .scalar "7".toList)]
    let load := loadFromYaml YamlBlocks.yaml IntType.parse
    (load st root).changes.length = 1 ∧ load (load st root) root = load st root := by
  intro listener st root load
  have hquiet : AllQuiet st := by
    intro p v hv e he
    have hmem : v ∈ st.registry.vars.cells := List.mem_of_getElem? hv
    obtain rfl := List.mem_singleton.mp hmem
    obtain rfl := List.mem_singleton.mp he
    exact fun _ _ _ => rfl
  exact ⟨rfl, (loadFromYaml_twice YamlBlocks.yaml IntType.parse st hquiet root).2 (by decide)⟩

end Mumu.RepeatedLoads
