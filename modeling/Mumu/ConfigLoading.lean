import Mathlib.Data.List.Infix
import Mumu.Config
import Mumu.LexcalCasts
import Mumu.YamlBlocks

namespace Mumu.ConfigLoading

open Mumu.LogLevels Mumu.PointerHeap Mumu.KeyedSets Mumu.ConfigVars Mumu.YamlNodes Mumu.Config
open Mumu.LexcalCasts

/-! ### Names of nodes -/

/-- The name of a node, from the keys on the way to it. -/
def nameOf (path : List Str) : Str := path.foldl join []

def ValidPath (path : List Str) : Prop := ∀ q, q <+: path → validName (nameOf q) = true

instance (path : List Str) : Decidable (ValidPath path) :=
  decidable_of_iff (∀ q ∈ path.inits, validName (nameOf q) = true) (by simp [ValidPath, List.mem_inits])

mutual

/-- All nodes that maps lead to, in the order of the document, with the keys on
the way. -/
def preorder (path : List Str) (node : Node) : List (List Str × Node) :=
  (path, node) :: match node with
    | .map entries => preorderEntries path entries
    | _ => []

def preorderEntries (path : List Str) : List (Node × Node) → List (List Str × Node)
  | [] => []
  | (key, node) :: entries =>
    preorder (path ++ [key.scalarText]) node ++ preorderEntries path entries

end

theorem nameOf_concat (path : List Str) (key : Str) :
    nameOf (path ++ [key]) = join (nameOf path) key := by
  simp [nameOf]

mutual

theorem preorder_extends (path : List Str) (node : Node) :
    ∀ e ∈ preorder path node, path <+: e.1 := by
  intro e he
  unfold preorder at he
  obtain rfl | he := List.mem_cons.mp he
  · exact List.prefix_rfl
  · cases node with
    | map entries => exact preorderEntries_extends path entries e he
    | _ => exact absurd he List.not_mem_nil

theorem preorderEntries_extends (path : List Str) (entries : List (Node × Node)) :
    ∀ e ∈ preorderEntries path entries, path <+: e.1 := by
  intro e he
  match entries with
  | [] => exact absurd he List.not_mem_nil
  | (key, node) :: entries =>
    obtain he | he := List.mem_append.mp he
    · exact (List.prefix_append path _).trans (preorder_extends _ node e he)
    · exact preorderEntries_extends path entries e he

end

/-- The nodes without an invalid name on the way, under their names. -/
def named (nodes : List (List Str × Node)) : List (Str × Node) :=
  (nodes.filter (fun e => ValidPath e.1)).map (fun e => (nameOf e.1, e.2))

theorem named_append (l l' : List (List Str × Node)) : named (l ++ l') = named l ++ named l' := by
  simp [named]

theorem validPath_concat {path : List Str} (h : ValidPath path) {key : Str} :
    ∀ q, q <+: path ++ [key] → q ≠ path ++ [key] → validName (nameOf q) = true := by
  intro q hq hne
  rw [List.prefix_concat_iff] at hq
  obtain rfl | hq := hq
  · exact absurd rfl hne
  · exact h q hq

mutual

theorem listAllMember_eq (path : List Str)
    (hpath : ∀ q, q <+: path → q ≠ path → validName (nameOf q) = true) (node : Node) :
    listAllMember (nameOf path) node = named (preorder path node) := by
  rw [listAllMember.eq_def]
  by_cases hname : validName (nameOf path) = true
  · rw [if_pos hname, preorder.eq_def]
    have hvalid : ValidPath path := by
      intro q hq
      by_cases hqp : q = path
      · rwa [hqp]
      · exact hpath q hq hqp
    cases node with
    | map entries =>
      have ih := listEntries_eq path hvalid entries
      simp only [ih, named, List.filter_cons, hvalid, decide_true, if_true, List.map_cons]
    | _ => simp [named, hvalid]
  · rw [if_neg hname]
    have hnone : ∀ e ∈ preorder path node, ¬ ValidPath e.1 := fun e he hvalid =>
      hname (hvalid path (preorder_extends path node e he))
    have hfilter : (preorder path node).filter (fun e => ValidPath e.1) = [] :=
      List.filter_eq_nil_iff.mpr fun e he => by simpa using hnone e he
    rw [named, hfilter, List.map_nil]

theorem listEntries_eq (path : List Str) (hpath : ValidPath path)
    (entries : List (Node × Node)) :
    listEntries (nameOf path) entries = named (preorderEntries path entries) := by
  match entries with
  | [] => rfl
  | (key, node) :: entries =>
    rw [listEntries, preorderEntries, named_append, ← nameOf_concat,
      listAllMember_eq _ (validPath_concat hpath) node, listEntries_eq path hpath entries]

end

theorem listAllMember_root (root : Node) :
    listAllMember [] root = named (preorder [] root) := by
  refine listAllMember_eq [] (fun q hq hne => ?_) root
  exact absurd (List.prefix_nil.mp hq) hne

theorem validName_of_mem {root : Node} {i : Str × Node} (hi : i ∈ listAllMember [] root) :
    validName i.1 = true := by
  rw [listAllMember_root] at hi
  obtain ⟨e, he, rfl⟩ := List.mem_map.mp hi
  have hvalid : ValidPath e.1 := by simpa using (List.mem_filter.mp he).2
  exact hvalid e.1 List.prefix_rfl

/-- Valid names are in lower case. -/
theorem map_toLower {name : Str} (h : validName name = true) : name.map Char.toLower = name := by
  have hchars : nameChars.all (fun c => c.toLower = c) = true := by decide
  rw [List.map_congr_left (g := id), List.map_id]
  intro c hc
  have hmem : c ∈ nameChars := by simpa using List.all_eq_true.mp h c hc
  simpa using List.all_eq_true.mp hchars c hmem

/-! ### One node -/

variable {σ ε τ : Type} {Val : τ → Type}

/-- What the texts given to a variable convert to, in order. -/
def conversions (yaml : Yaml) {T : Type} (fromStr : Str → Except ε T) (n : Str)
    (nodes : List (Str × Node)) : List T :=
  nodes.filterMap fun i =>
    if i.1 ≠ [] ∧ i.1 = n then (fromStr (nodeText yaml i.2)).toOption else none

theorem conversions_singleton (yaml : Yaml) {T : Type} (fromStr : Str → Except ε T) (n : Str)
    (i : Str × Node) :
    conversions yaml fromStr n [i] =
      if i.1 ≠ [] ∧ i.1 = n then (fromStr (nodeText yaml i.2)).toOption.toList else [] := by
  rw [conversions, List.filterMap_cons, List.filterMap_nil]
  split_ifs with h
  · cases fromStr (nodeText yaml i.2) <;> rfl
  · rfl

/-- A value after some values were stored in turn: the last of them, or one that
its type takes for equal. -/
def Holds {T : Type} [BEq T] (xs : List T) (old new : T) : Prop :=
  match xs.getLast? with
  | some x => new = x ∨ (x == new) = true
  | none => new = old

def Given {T : Type} [BEq T] (xs : List T) (var var' : ConfigVar σ ε T) : Prop :=
  var'.cbs = var.cbs ∧ Holds xs var.val var'.val

theorem Given.refl {T : Type} [BEq T] (var : ConfigVar σ ε T) : Given [] var var := ⟨rfl, rfl⟩

theorem Given.trans {T : Type} [BEq T] {xs ys : List T} {var var' var'' : ConfigVar σ ε T}
    (h : Given xs var var') (h' : Given ys var' var'') : Given (xs ++ ys) var var'' := by
  refine ⟨h'.1.trans h.1, ?_⟩
  rw [Holds]
  rw [List.getLast?_append]
  cases hlast : ys.getLast? with
  | some y => simpa [Holds, hlast] using h'.2
  | none =>
    have hval : var''.val = var'.val := by simpa [Holds, hlast] using h'.2
    simpa [Holds, hval] using h.2

/-- What `setValue` leaves, which does not store a value that is equal. -/
def store {T : Type} [BEq T] (old new : T) : T := if new == old then old else new

/-- A variable after some values were stored in turn. -/
def stored {T : Type} [BEq T] (xs : List T) (var : ConfigVar σ ε T) : ConfigVar σ ε T :=
  { var with val := xs.foldl store var.val }

theorem stored_append {T : Type} [BEq T] (xs ys : List T) (var : ConfigVar σ ε T) :
    stored (xs ++ ys) var = stored ys (stored xs var) := by
  simp [stored]

theorem given_stored {T : Type} [BEq T] (xs : List T) (var : ConfigVar σ ε T) :
    Given xs var (stored xs var) := by
  induction xs generalizing var with
  | nil => exact Given.refl var
  | cons x xs ih =>
    have hfirst : Given [x] var (stored [x] var) := by
      refine ⟨rfl, ?_⟩
      simp only [Holds, stored, store, List.getLast?_singleton, List.foldl_cons, List.foldl_nil]
      split
      · rename_i heq
        exact .inr heq
      · exact .inl rfl
    exact hfirst.trans (ih _)

theorem fromString_stored {T : Type} [BEq T] (fromStr : Str → Except ε T) {var : ConfigVar σ ε T}
    (hcbs : ∀ e ∈ var.cbs, Quiet e.2) (text : Str) (s : σ) :
    (var.fromString fromStr text s).2.2.2 = stored (fromStr text).toOption.toList var := by
  rw [ConfigVar.fromString]
  cases hx : fromStr text with
  | error e => rfl
  | ok x =>
    have hset := setValue_quiet var hcbs x s
    change (var.setValue x s).2 = { var with val := store var.val x }
    rw [store]
    split at hset
    · rename_i heq
      rw [hset, if_pos heq]
    · rename_i heq
      rw [hset.1, if_neg heq]

variable [∀ t, BEq (Val t)] (yaml : Yaml) (fromStr : ∀ t, Str → Except ε (Val t))

theorem assign_datas (st : State σ ε Val) (p : Ptr) (text : Str) :
    (st.assign fromStr p text).registry.datas = st.registry.datas := by
  rw [State.assign]
  split <;> rfl

/-- The text goes to one variable. -/
theorem assign_get?_of_ne {st : State σ ε Val} {p q : Ptr} (hqp : q ≠ p) (text : Str) :
    (st.assign fromStr q text).registry.vars.get? p = st.registry.vars.get? p := by
  rw [State.assign]
  split
  · rfl
  · exact Heap.get?_modify_of_ne _ hqp

/-- A variable that is registered under a name. -/
structure Registered (st : State σ ε Val) (n : Str) (p : Ptr) (t : τ)
    (var : ConfigVar σ ε (Val t)) : Prop where
  bound : st.registry.lookupBase n = some p
  stored : st.registry.vars.get? p = some ⟨t, var⟩
  quiet : ∀ e ∈ var.cbs, Quiet e.2

theorem assign_stored {st : State σ ε Val} {n : Str} {p : Ptr} {t : τ}
    {var : ConfigVar σ ε (Val t)} (h : Registered st n p t var) (text : Str) :
    Registered (st.assign fromStr p text) n p t
      (stored (fromStr t text).toOption.toList var) := by
  rw [← fromString_stored (fromStr t) h.quiet text st.surroundings]
  refine ⟨?_, ?_, ?_⟩
  · rw [Registry.lookupBase, assign_datas]
    exact h.bound
  · rw [State.assign, h.stored]
    exact (Heap.get?_modify_self _ _ _).trans (by rw [h.stored]; rfl)
  · rw [fromString_stored (fromStr t) h.quiet text st.surroundings]
    exact h.quiet

/-- Another name's text does not reach a variable. -/
theorem assign_other {st : State σ ε Val} {n : Str} {p : Ptr} {t : τ}
    {var : ConfigVar σ ε (Val t)} (h : Registered st n p t var) {m : Str} {q : Ptr}
    (hm : st.registry.lookupBase m = some q) (hne : m ≠ n) (text : Str) :
    Registered (st.assign fromStr q text) n p t var := by
  have hqp : q ≠ p := by
    rintro rfl
    exact hne (st.registry.injective m n q hm h.bound)
  refine ⟨?_, (assign_get?_of_ne fromStr hqp text).trans h.stored, h.quiet⟩
  rw [Registry.lookupBase, assign_datas]
  exact h.bound

/-- A node whose name finds a variable gives it its text. -/
theorem loadNode_cases (st : State σ ε Val) (i : Str × Node) :
    loadNode yaml fromStr st i = st ∨
      ∃ p, i.1 ≠ [] ∧ st.registry.lookupBase (i.1.map Char.toLower) = some p ∧
        loadNode yaml fromStr st i = st.assign fromStr p (nodeText yaml i.2) := by
  rw [loadNode]
  by_cases hnil : i.1 = []
  · exact .inl (if_pos hnil)
  · rw [if_neg hnil]
    dsimp only
    cases hp : st.registry.lookupBase (i.1.map Char.toLower) with
    | none => exact .inl rfl
    | some p => exact .inr ⟨p, hnil, rfl, rfl⟩

theorem loadNode_datas (st : State σ ε Val) (i : Str × Node) :
    (loadNode yaml fromStr st i).registry.datas = st.registry.datas := by
  obtain hsame | ⟨p, _, _, hassign⟩ := loadNode_cases yaml fromStr st i
  · rw [hsame]
  · rw [hassign, assign_datas]

theorem loadNode_stored {st : State σ ε Val} {n : Str} {p : Ptr} {t : τ}
    {var : ConfigVar σ ε (Val t)} (h : Registered st n p t var) {i : Str × Node}
    (hi : validName i.1 = true) :
    Registered (loadNode yaml fromStr st i) n p t
      (stored (conversions yaml (fromStr t) n [i]) var) := by
  rw [conversions_singleton, loadNode, map_toLower hi]
  by_cases hnil : i.1 = []
  · rw [if_pos hnil, if_neg (fun hn => hn.1 hnil)]
    exact h
  · rw [if_neg hnil]
    dsimp only
    by_cases hin : i.1 = n
    · have hbound : st.registry.lookupBase i.1 = some p := hin ▸ h.bound
      rw [hbound, if_pos ⟨hnil, hin⟩]
      exact assign_stored fromStr h (nodeText yaml i.2)
    · rw [if_neg (fun hn => hin hn.2)]
      split
      · exact h
      · rename_i q hq
        exact assign_other fromStr h hq hin _

/-! ### The whole document -/

theorem loadNodes_stored (nodes : List (Str × Node)) (hnodes : ∀ i ∈ nodes, validName i.1 = true)
    {st : State σ ε Val} {n : Str} {p : Ptr} {t : τ} {var : ConfigVar σ ε (Val t)}
    (h : Registered st n p t var) :
    Registered (nodes.foldl (loadNode yaml fromStr) st) n p t
      (stored (conversions yaml (fromStr t) n nodes) var) := by
  induction nodes generalizing st var with
  | nil => exact h
  | cons i nodes ih =>
    have hfirst := loadNode_stored yaml fromStr h (hnodes i (by simp))
    have hrest := ih (fun j hj => hnodes j (by simp [hj])) hfirst
    have hsplit : conversions yaml (fromStr t) n (i :: nodes) =
        conversions yaml (fromStr t) n [i] ++ conversions yaml (fromStr t) n nodes := by
      rw [conversions, conversions, conversions, ← List.filterMap_append, List.singleton_append]
    rw [hsplit, stored_append]
    exact hrest

/-- Loading a document gives each registered variable the values of the nodes of
its name, in the order of the document. Only nodes without an invalid name on
the way count, and only those whose text converts. -/
theorem loadFromYaml_given (st : State σ ε Val) (root : Node) (n : Str) (p : Ptr) (t : τ)
    (var : ConfigVar σ ε (Val t)) (hbound : st.registry.lookupBase n = some p)
    (hvar : st.registry.vars.get? p = some ⟨t, var⟩) (hquiet : ∀ e ∈ var.cbs, Quiet e.2) :
    ∃ var' : ConfigVar σ ε (Val t),
      (loadFromYaml yaml fromStr st root).registry.lookupBase n = some p ∧
      (loadFromYaml yaml fromStr st root).registry.vars.get? p = some ⟨t, var'⟩ ∧
      Holds ((preorder [] root).filterMap (fun e =>
        if nameOf e.1 ≠ [] ∧ nameOf e.1 = n ∧ ValidPath e.1 then
          (fromStr t (nodeText yaml e.2)).toOption
        else none)) var.val var'.val := by
  have h := loadNodes_stored yaml fromStr (listAllMember [] root)
    (fun i hi => validName_of_mem hi) ⟨hbound, hvar, hquiet⟩
  refine ⟨_, h.bound, h.stored, ?_⟩
  have hconv : conversions yaml (fromStr t) n (listAllMember [] root) =
      (preorder [] root).filterMap (fun e =>
        if nameOf e.1 ≠ [] ∧ nameOf e.1 = n ∧ ValidPath e.1 then
          (fromStr t (nodeText yaml e.2)).toOption
        else none) := by
    rw [listAllMember_root, conversions, named, List.filterMap_map, List.filterMap_filter]
    congr 1
    funext e
    by_cases hvalid : ValidPath e.1 <;> simp [hvalid]
  rw [← hconv]
  exact (given_stored _ var).2

/-- The variable keeps the first of its texts, as the second is no number and
the third stands below a name that is cut off. -/
theorem loadFromYaml_given_once :
    ∃ var : ConfigVar Unit Exn IntType.int.Val,
      (loadFromYaml YamlBlocks.yaml IntType.parse
        ⟨Registry.empty.add "a.b".toList ⟨.int, "a.b".toList, [], ⟨0, by decide⟩, .empty⟩ rfl,
          (), []⟩
        (.map [(.scalar "a".toList, .map [(.scalar "b".toList, .scalar "7".toList)]),
          (.scalar "a.b".toList, .scalar "x".toList),
          (.scalar "A".toList, .map [(.scalar "a.b".toList, .scalar "8".toList)])])).registry.vars.get?
            0 = some ⟨.int, var⟩ ∧
      var.val = ⟨7, by decide⟩ := by
  obtain ⟨var, _, hvar, hholds⟩ := loadFromYaml_given YamlBlocks.yaml IntType.parse
    ⟨Registry.empty.add "a.b".toList ⟨.int, "a.b".toList, [], ⟨0, by decide⟩, .empty⟩ rfl, (), []⟩
    (.map [(.scalar "a".toList, .map [(.scalar "b".toList, .scalar "7".toList)]),
      (.scalar "a.b".toList, .scalar "x".toList),
      (.scalar "A".toList, .map [(.scalar "a.b".toList, .scalar "8".toList)])])
    "a.b".toList 0 .int ⟨"a.b".toList, [], ⟨0, by decide⟩, .empty⟩ rfl rfl
    (fun e he => absurd he List.not_mem_nil)
  have hval : Holds [(⟨7, by decide⟩ : IntType.int.Val)] ⟨0, by decide⟩ var.val := hholds
  obtain hval | hval := hval
  · exact ⟨var, hvar, hval⟩
  · exact ⟨var, hvar, (beq_iff_eq.mp hval).symm⟩

end Mumu.ConfigLoading
