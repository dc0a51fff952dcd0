import Mumu.ConfigLoading
import Mumu.QuotedElements

namespace Mumu.WrongKinds

open Mumu.LogLevels Mumu.PointerHeap Mumu.KeyedSets Mumu.ConfigVars Mumu.YamlNodes Mumu.Config
open Mumu.LexcalCasts Mumu.ConfigLoading

/-! ### Texts that are rejected -/

section

variable {ε τ : Type} {Val : τ → Type} [∀ t, BEq (Val t)] (yaml : Yaml)
  (fromStr : ∀ t, Str → Except ε (Val t))

/-- The conversion throws, and a variable keeps its value whichever way it is given
the text. -/
structure Rejected (t : τ) (v : Str) : Prop where
  throws : ∃ e, fromStr t v = .error e
  kept : ∀ (σ : Type) (var : ConfigVar σ ε (Val t)) (s : σ),
    (var.fromString (fromStr t) v s).2.2.2 = var
  loaded : ∀ (σ : Type) (st : State σ ε Val) (root : Node) (n : Str) (p : Ptr)
    (var : ConfigVar σ ε (Val t)), st.registry.lookupBase n = some p →
    st.registry.vars.get? p = some ⟨t, var⟩ →
    (∀ i ∈ listAllMember [] root, i.1 = n → nodeText yaml i.2 = v) →
    (loadFromYaml yaml fromStr st root).registry.vars.get? p = some ⟨t, var⟩

variable {fromStr} {t : τ} {v : Str}

theorem assign_throws {σ : Type} {e : ε} (h : fromStr t v = .error e) {st : State σ ε Val} {p : Ptr}
    {var : ConfigVar σ ε (Val t)} (hvar : st.registry.vars.get? p = some ⟨t, var⟩) :
    (st.assign fromStr p v).registry.vars.get? p = some ⟨t, var⟩ := by
  rw [State.assign, hvar]
  dsimp only
  rw [ConfigVar.fromString, h]
  exact (Heap.get?_modify_self _ _ _).trans (by rw [hvar]; rfl)

theorem loadNode_throws {σ : Type} {e : ε} (h : fromStr t v = .error e) {st : State σ ε Val}
    {n : Str} {p : Ptr} {var : ConfigVar σ ε (Val t)} (hbound : st.registry.lookupBase n = some p)
    (hvar : st.registry.vars.get? p = some ⟨t, var⟩) {i : Str × Node}
    (hi : validName i.1 = true) (htext : i.1 = n → nodeText yaml i.2 = v) :
    (loadNode yaml fromStr st i).registry.vars.get? p = some ⟨t, var⟩ := by
  obtain hsame | ⟨q, _, hq, hassign⟩ := loadNode_cases yaml fromStr st i
  · rw [hsame]
    exact hvar
  · rw [map_toLower hi] at hq
    rw [hassign]
    by_cases hqp : q = p
    · obtain rfl := hqp
      rw [htext (st.registry.injective i.1 n q hq hbound)]
      exact assign_throws h hvar
    · exact (assign_get?_of_ne fromStr hqp _).trans hvar

theorem loadNodes_throws {σ : Type} {e : ε} (h : fromStr t v = .error e) {n : Str} {p : Ptr}
    {var : ConfigVar σ ε (Val t)} (nodes : List (Str × Node))
    (hnodes : ∀ i ∈ nodes, validName i.1 = true ∧ (i.1 = n → nodeText yaml i.2 = v))
    {st : State σ ε Val} (hbound : st.registry.lookupBase n = some p)
    (hvar : st.registry.vars.get? p = some ⟨t, var⟩) :
    (nodes.foldl (loadNode yaml fromStr) st).registry.vars.get? p = some ⟨t, var⟩ := by
  induction nodes generalizing st with
  | nil => exact hvar
  | cons i nodes ih =>
    obtain ⟨hi, htext⟩ := hnodes i (by simp)
    have hbound' : (loadNode yaml fromStr st i).registry.lookupBase n = some p := by
      rw [Registry.lookupBase, loadNode_datas]
      exact hbound
    exact ih (fun j hj => hnodes j (by simp [hj])) hbound'
      (loadNode_throws yaml h hbound hvar hi htext)

theorem rejected_iff : Rejected yaml fromStr t v ↔ ∃ e, fromStr t v = .error e := by
  refine ⟨Rejected.throws, ?_⟩
  rintro ⟨e, h⟩
  refine ⟨⟨e, h⟩, fun σ var s => ?_, fun σ st root n p var hbound hvar htexts => ?_⟩
  · rw [ConfigVar.fromString, h]
  · exact loadNodes_throws yaml h (listAllMember [] root)
      (fun i hi => ⟨validName_of_mem hi, htexts i hi⟩) hbound hvar

end

/-! ### What the loops throw at -/

section

variable {yaml : Yaml} {T : Type} {C : LexcalCast T}

theorem mapM_throws_iff {α β : Type} (f : α → Except Exn β) (xs : List α) :
    (∃ e, xs.mapM f = .error e) ↔ ∃ x ∈ xs, ∃ e, f x = .error e := by
  induction xs with
  | nil => simp
  | cons x xs ih =>
    rw [List.mapM_cons, List.exists_mem_cons_iff]
    cases hx : f x with
    | error e => simp
    | ok y =>
      rw [ok_bind, ← ih]
      cases xs.mapM f <;> simp

theorem collect_throws_iff {α β : Type} (xs : Except Exn α) (collect : α → β) :
    (∃ e, (do let x ← xs; return collect x) = .error e) ↔ ∃ e, xs = .error e := by
  cases xs <;> simp

theorem readElements_throws_iff {v : Str} {node : Node} (hload : yaml.load v = .ok node) :
    (∃ e, readElements yaml C v = .error e) ↔
      ∃ text ∈ node.elementTexts yaml, ∃ e, C.fromStr text = .error e := by
  rw [readElements, hload, ok_bind, mapM_throws_iff]

/-- A node that is no sequence: the loop only has elements in a map. -/
theorem wrongElements_throws_iff {v : Str} {node : Node} (hload : yaml.load v = .ok node)
    (hkind : (∃ s, node = .scalar s) ∨ ∃ entries, node = .map entries) :
    (∃ e, readElements yaml C v = .error e) ↔
      (∃ entries, node = .map entries) ∧
        ∃ text ∈ node.elementTexts yaml, ∃ e, C.fromStr text = .error e := by
  rw [readElements_throws_iff hload]
  obtain ⟨s, rfl⟩ | hmap := hkind
  · simp [Node.elementTexts_scalar]
  · exact (and_iff_right hmap).symm

/-- A node that is no map: the loop only throws where there is an element. -/
theorem wrongEntries_throws_iff {v : Str} {node : Node} (hload : yaml.load v = .ok node)
    (hkind : (∃ s, node = .scalar s) ∨ ∃ item items, node = .seq (item :: items)) :
    (∃ e, readEntries yaml C v = .error e) ↔ ∃ item items, node = .seq (item :: items) := by
  rw [readEntries, hload, ok_bind]
  obtain ⟨s, rfl⟩ | ⟨item, items, rfl⟩ := hkind
  · simp
  · simp

end

/-! ### Documents of the wrong kind -/

/-- A container rejects a document of another kind only where it is a map with an
element that does not convert, or a sequence with an element. -/
theorem wrongKind_rejected_iff (yaml : Yaml) {T τ : Type} {Val : τ → Type} [∀ t, BEq (Val t)]
    (fromStr : ∀ t, Str → Except Exn (Val t)) (C : LexcalCast T) (t : τ) (D : LexcalCast (Val t))
    (hfrom : fromStr t = D.fromStr) (v : Str) (node : Node) (hload : yaml.load v = .ok node) :
    (∀ collect, SequenceCast yaml C D collect →
      ((∃ s, node = .scalar s) ∨ ∃ entries, node = .map entries) →
        (Rejected yaml fromStr t v ↔ (∃ entries, node = .map entries) ∧
          ∃ text ∈ node.elementTexts yaml, ∃ e, C.fromStr text = .error e)) ∧
    ∀ collect, MapCast yaml C D collect →
      ((∃ s, node = .scalar s) ∨ ∃ item items, node = .seq (item :: items)) →
        (Rejected yaml fromStr t v ↔ ∃ item items, node = .seq (item :: items)) := by
  rw [rejected_iff, hfrom]
  constructor
  · intro collect hcast hkind
    rw [hcast.fromStr_eq, collect_throws_iff, wrongElements_throws_iff hload hkind]
  · intro collect hcast hkind
    rw [hcast.fromStr_eq, collect_throws_iff, wrongEntries_throws_iff hload hkind]

theorem wrongKind_rejected_map :
    Rejected YamlBlocks.yaml (fun _ : Unit => (vector YamlBlocks.yaml (integer .decimal .int)).fromStr) ()
      "a: 7".toList := by
  have hload : YamlBlocks.yaml.load "a: 7".toList =
      .ok (.map [(.scalar "a".toList, .scalar "7".toList)]) := rfl
  refine ((wrongKind_rejected_iff YamlBlocks.yaml _ (integer .decimal .int) ()
    (vector YamlBlocks.yaml (integer .decimal .int)) rfl _ _ hload).1 id .vector (.inr ⟨_, rfl⟩)).mpr ?_
  -- the loop reads the empty text for the index 0
  exact ⟨⟨_, rfl⟩, [], by decide, _, rfl⟩

/-- A scalar makes a vector empty. -/
theorem wrongKind_scalar_erases :
    let fromStr := (vector YamlBlocks.yaml (integer .decimal .int)).fromStr
    let var : ConfigVar Unit Exn (List IntType.int.Val) :=
      ⟨"a".toList, [], [⟨7, by decide⟩], .empty⟩
    YamlBlocks.yaml.load "7".toList = .ok (.scalar "7".toList) ∧
      ¬ Rejected YamlBlocks.yaml (fun _ : Unit => fromStr) () "7".toList ∧
      (var.fromString fromStr "7".toList ()).2.2.2.val = [] := by
  intro fromStr var
  refine ⟨rfl, fun h => ?_, rfl⟩
  obtain ⟨e, he⟩ := h.throws
  have hempty : fromStr "7".toList = .ok [] := rfl
  rw [hempty] at he
  cases he

end Mumu.WrongKinds
