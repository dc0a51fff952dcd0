import Mathlib.Data.Char
import Mathlib.Data.List.Lex
import Mumu.ConfigVars
import Mumu.PointerHeap
import Mumu.YamlNodes

namespace Mumu.Config

open Mumu.LogLevels Mumu.PointerHeap Mumu.KeyedSets Mumu.ConfigVars Mumu.YamlNodes

/-! ### The flattened document -/

def nameChars : Str := "abcdefghijklmnopqrstuvwxyz._0123456789".toList

def validName (name : Str) : Bool := name.all (fun c => c ∈ nameChars)

def join (pre key : Str) : Str := if pre = [] then key else pre ++ '.' :: key

mutual

/-- The named nodes of a document. A name with another character cuts off all
that is under it. -/
def listAllMember (pre : Str) (node : Node) : List (Str × Node) :=
  if validName pre then
    (pre, node) :: match node with
      | .map entries => listEntries pre entries
      | _ => []
  else []

def listEntries (pre : Str) : List (Node × Node) → List (Str × Node)
  | [] => []
  | (key, node) :: entries =>
    listAllMember (join pre key.scalarText) node ++ listEntries pre entries

end

/-! ### The registry -/

variable {σ ε τ : Type} {Val : τ → Type}

/-- A variable of any of the types, behind a pointer to the common base. -/
abbrev ConfigVarBase (σ ε : Type) (Val : τ → Type) := Σ t, ConfigVar σ ε (Val t)

/-- The variables and the map from their names. No two names share a variable. -/
structure Registry (σ ε : Type) (Val : τ → Type) where
  vars : Heap (ConfigVarBase σ ε Val)
  datas : KeyedMap Str Ptr
  bound : ∀ n p, KeyedMap.get? datas n = some p → ∃ v, vars.get? p = some v
  injective : ∀ n m p, KeyedMap.get? datas n = some p → KeyedMap.get? datas m = some p → n = m

/-- The order that a hash table has its elements in. -/
structure Order where
  apply : List (Str × Ptr) → List (Str × Ptr)
  perm : ∀ l, (apply l).Perm l

namespace Registry

def lookupBase (r : Registry σ ε Val) (name : Str) : Option Ptr := KeyedMap.get? r.datas name

def empty : Registry σ ε Val where
  vars := ⟨[]⟩
  datas := .empty
  bound := fun _ _ h => absurd h (by simp [KeyedMap.get?, KeyedSet.find?, KeyedSet.empty])
  injective := fun _ _ _ h => absurd h (by simp [KeyedMap.get?, KeyedSet.find?, KeyedSet.empty])

/-- A new variable under a name that has none. -/
def add (r : Registry σ ε Val) (name : Str) (v : ConfigVarBase σ ε Val)
    (hnew : r.lookupBase name = none) : Registry σ ε Val where
  vars := r.vars.alloc v
  datas := r.datas.insert (name, r.vars.fresh)
  bound := by
    intro n p hn
    rw [KeyedMap.get?_insert_of_new hnew] at hn
    split at hn
    · obtain rfl := Option.some.inj hn
      exact ⟨v, Heap.get?_alloc_fresh _ _⟩
    · obtain ⟨u, hu⟩ := r.bound n p hn
      exact ⟨u, Heap.get?_alloc_of_some hu⟩
  injective := by
    have hold : ∀ n p, KeyedMap.get? r.datas n = some p → p ≠ r.vars.fresh := fun n p hn =>
      Heap.ne_fresh (r.bound n p hn).choose_spec
    intro n m p hn hm
    rw [KeyedMap.get?_insert_of_new hnew] at hn hm
    split at hn <;> split at hm
    · rename_i hnn hmm
      exact hnn.symm.trans hmm
    · exact absurd (Option.some.inj hn).symm (hold m p hm)
    · exact absurd (Option.some.inj hm).symm (hold n p hn)
    · exact r.injective n m p hn hm

/-- A variable of another type under the name is not found, and a name with
another character is an error that carries the name. -/
def lookup [DecidableEq τ] (r : Registry σ ε Val) (name : Str) (t : τ) (defaultVal : Val t)
    (description : Str) : Except Str (Registry σ ε Val × Option Ptr) :=
  match h : r.lookupBase name with
  | some p => .ok (r, (r.vars.get? p).bind (fun v => if v.1 = t then some p else none))
  | none =>
    if validName name then
      let v := ⟨t, name.map Char.toLower, description, defaultVal, .empty⟩
      .ok (r.add name v h, some r.vars.fresh)
    else .error name

/-- The look-up without a default only reads. -/
def lookupName [DecidableEq τ] (r : Registry σ ε Val) (name : Str) (t : τ) : Option Ptr :=
  (r.lookupBase name).bind (fun p =>
    (r.vars.get? p).bind (fun v => if v.1 = t then some p else none))

/-- What a look-up finds is registered under the name, with the type asked for. -/
theorem lookup_found [DecidableEq τ] {r r' : Registry σ ε Val} {name : Str} {t : τ}
    {defaultVal : Val t} {description : Str} {p : Ptr}
    (h : r.lookup name t defaultVal description = .ok (r', some p)) :
    r'.lookupBase name = some p ∧ ∃ var, r'.vars.get? p = some ⟨t, var⟩ := by
  rw [lookup] at h
  split at h
  · rename_i q hq
    simp only [Except.ok.injEq, Prod.mk.injEq, Option.bind_eq_some_iff] at h
    obtain ⟨rfl, ⟨t', var⟩, hvar, htype⟩ := h
    split at htype
    · rename_i ht
      obtain rfl := Option.some.inj htype
      obtain rfl : t' = t := ht
      exact ⟨hq, var, hvar⟩
    · cases htype
  · rename_i hnew
    split at h
    · simp only [Except.ok.injEq, Prod.mk.injEq, Option.some.injEq] at h
      obtain ⟨rfl, rfl⟩ := h
      exact ⟨(KeyedMap.get?_insert_of_new hnew name).trans (if_pos rfl), _,
        Heap.get?_alloc_fresh _ _⟩
    · cases h

/-- Put a variable into the place of another. -/
def put (r : Registry σ ε Val) (p : Ptr) (v : ConfigVarBase σ ε Val) : Registry σ ε Val where
  vars := r.vars.modify p (fun _ => v)
  datas := r.datas
  bound := by
    intro n q hn
    obtain ⟨u, hu⟩ := r.bound n q hn
    rw [Heap.get?_modify, hu]
    split
    · exact ⟨v, rfl⟩
    · exact ⟨u, rfl⟩
  injective := r.injective

/-- A callback for each variable, on a state that it may change. -/
def visit {δ : Type} (r : Registry σ ε Val) (order : Order) (cb : Ptr → δ → δ) (d : δ) : δ :=
  (order.apply r.datas.toList).foldl (fun d e => cb e.2 d) d

end Registry

/-! ### Loading a document -/

structure Change (Val : τ → Type) where
  var : Ptr
  type : τ
  call : Call (Val type)

/-- A registry with what surrounds it, and the calls of listeners so far. -/
structure State (σ ε : Type) (Val : τ → Type) where
  registry : Registry σ ε Val
  surroundings : σ
  changes : List (Change Val)

variable [∀ t, BEq (Val t)] (yaml : Yaml) (fromStr : ∀ t, Str → Except ε (Val t))

def nodeText (node : Node) : Str := if node.isScalar then node.scalarText else yaml.emit node

/-- Give a variable the text of a node. -/
def State.assign (st : State σ ε Val) (p : Ptr) (text : Str) : State σ ε Val :=
  match st.registry.vars.get? p with
  | none => st
  | some ⟨t, var⟩ =>
    let (_, calls, s, var) := var.fromString (fromStr t) text st.surroundings
    ⟨st.registry.put p ⟨t, var⟩, s, st.changes ++ calls.map (fun c => ⟨p, t, c⟩)⟩

def loadNode (st : State σ ε Val) (i : Str × Node) : State σ ε Val :=
  let key := i.1
  if key = [] then st
  else
    let key := key.map Char.toLower
    match st.registry.lookupBase key with
    | none => st
    | some p => st.assign fromStr p (nodeText yaml i.2)

def loadFromYaml (st : State σ ε Val) (root : Node) : State σ ε Val :=
  (listAllMember [] root).foldl (loadNode yaml fromStr) st

end Mumu.Config
