import Mumu.YamlNodes

namespace Mumu.YamlFields

open Mumu.LogLevels Mumu.YamlNodes

/-! ### Maps from texts -/

def keysOf (fields : List (Str × Node)) : List Str := fields.map Prod.fst

/-- A map whose keys are texts. -/
def ofFields (fields : List (Str × Node)) : Node :=
  .map (fields.map (fun f => (.scalar f.1, f.2)))

theorem isKey_ofFields {fields : List (Str × Node)} {key : Str} (hkey : key ∉ keysOf fields) :
    ∀ e ∈ fields.map (fun f => ((.scalar f.1 : Node), f.2)), Node.isKey key e.1 = false := by
  intro e he
  obtain ⟨f, hf, rfl⟩ := List.mem_map.mp he
  rw [← Bool.not_eq_true, Node.isKey_scalar]
  rintro rfl
  exact hkey (List.mem_map_of_mem hf)

theorem set_of_new {fields : List (Str × Node)} {key : Str} (hkey : key ∉ keysOf fields)
    (value : Node) :
    (ofFields fields).set key value = .ok (ofFields (fields ++ [(key, value)])) := by
  simp [ofFields, Node.set, Node.asEntries, Node.setEntry_of_new (isKey_ofFields hkey)]

/-- Assignment to a field that is there already, and the last one. -/
theorem set_of_last {fields : List (Str × Node)} {key : Str} (hkey : key ∉ keysOf fields)
    (old value : Node) :
    (ofFields (fields ++ [(key, old)])).set key value = .ok (ofFields (fields ++ [(key, value)])) := by
  have hset : ∀ entries : List (Node × Node), (∀ e ∈ entries, Node.isKey key e.1 = false) →
      Node.setEntry key value (entries ++ [(.scalar key, old)]) =
        entries ++ [(.scalar key, value)] := by
    intro entries hentries
    induction entries with
    | nil => simp [Node.setEntry, Node.isKey]
    | cons e entries ih =>
      have hrest := ih (fun e' he' => hentries e' (by simp [he']))
      simp [Node.setEntry, hentries e (by simp), hrest]
  simp [ofFields, Node.set, Node.asEntries, hset _ (isKey_ofFields hkey)]

def lookup (fields : List (Str × Node)) (key : Str) : Option Node :=
  (fields.find? (fun f => f.1 = key)).map Prod.snd

theorem lookup_of_new {fields : List (Str × Node)} {key : Str} (hkey : key ∉ keysOf fields) :
    lookup fields key = none := by
  rw [lookup, Option.map_eq_none_iff, List.find?_eq_none]
  intro f hf hfk
  simp only [decide_eq_true_eq] at hfk
  exact hkey (hfk ▸ List.mem_map_of_mem hf)

theorem lookup_append (fields fields' : List (Str × Node)) (key : Str) :
    lookup (fields ++ fields') key = (lookup fields key).or (lookup fields' key) := by
  rw [lookup, lookup, lookup, List.find?_append]
  cases fields.find? (fun f => f.1 = key) <;> rfl

theorem lookup_singleton (key : Str) (value : Node) : lookup [(key, value)] key = some value := by
  simp [lookup]

theorem field?_ofFields (fields : List (Str × Node)) (key : Str) :
    (ofFields fields).field? key = .ok (lookup fields key) := by
  have hfind : (fields.map (fun f => ((.scalar f.1 : Node), f.2))).find?
      (fun e => Node.isKey key e.1) =
        (fields.find? (fun f => f.1 = key)).map (fun f => (.scalar f.1, f.2)) := by
    rw [List.find?_map]
    congr 2
    funext f
    rw [Bool.eq_iff_iff]
    simp [Node.isKey]
  simp only [ofFields, Node.field?, Node.asEntries, ok_bind, pure_eq_ok, hfind, Option.map_map]
  rfl

/-! ### A sequence in a field -/

/-- Append to the sequence in a field, which comes into being with its first
element. -/
def pushField (node : Node) (key : Str) (value : Node) : Except Exn Node := do
  let old ← node.field? key
  let new ← (old.getD .null).pushBack value
  node.set key new

/-- The field that elements are appended to, if there are any. -/
def seqField (key : Str) : List Node → List (Str × Node)
  | [] => []
  | items => [(key, .seq items)]

theorem lookup_seqField (key : Str) (items : List Node) :
    lookup (seqField key items) key = if items = [] then none else some (.seq items) := by
  cases items with
  | nil => rfl
  | cons item items => exact lookup_singleton _ _

theorem pushField_seqField {fields : List (Str × Node)} {key : Str} (hkey : key ∉ keysOf fields)
    (items : List Node) (value : Node) :
    pushField (ofFields (fields ++ seqField key items)) key value =
      .ok (ofFields (fields ++ seqField key (items ++ [value]))) := by
  rw [pushField]
  rw [field?_ofFields, lookup_append, lookup_of_new hkey, Option.none_or, lookup_seqField]
  cases items with
  | nil => simp [seqField, Node.pushBack, set_of_new hkey]
  | cons item items => simp [seqField, Node.pushBack, set_of_last hkey]

theorem pushFields_ofFields {fields : List (Str × Node)} {key : Str} (hkey : key ∉ keysOf fields)
    (items : List Node) :
    items.foldlM (fun node value => pushField node key value) (ofFields fields) =
      .ok (ofFields (fields ++ seqField key items)) := by
  have hrun : ∀ items before : List Node,
      items.foldlM (fun node value => pushField node key value)
        (ofFields (fields ++ seqField key before)) =
          .ok (ofFields (fields ++ seqField key (before ++ items))) := by
    intro items
    induction items with
    | nil => simp
    | cons item items ih =>
      intro before
      rw [List.foldlM_cons, pushField_seqField hkey, ok_bind, ih, List.append_assoc,
        List.singleton_append]
  simpa [seqField] using hrun items []

/-- Appending to a null or to a sequence. -/
theorem pushBack_seq (items : List Node) :
    items.foldlM Node.pushBack .null = .ok (if items = [] then .null else .seq items) := by
  have hrun : ∀ items before : List Node,
      items.foldlM Node.pushBack (.seq before) = .ok (.seq (before ++ items)) := by
    intro items
    induction items with
    | nil => simp
    | cons item items ih =>
      intro before
      rw [List.foldlM_cons, Node.pushBack, ok_bind, ih, List.append_assoc, List.singleton_append]
  cases items with
  | nil => rfl
  | cons item items =>
    rw [List.foldlM_cons, if_neg (List.cons_ne_nil _ _), Node.pushBack, ok_bind, hrun]
    rfl

end Mumu.YamlFields
