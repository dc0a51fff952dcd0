import Mathlib.Data.List.Pairwise
import Mathlib.Order.Lattice

namespace Mumu.KeyedSets

universe u v

variable {α : Type u} {κ : Type v} [LinearOrder κ]

/-- A finite set whose elements are told apart by a key and kept in the order
of their keys. With the identity as key this is an ordered set, with the first
projection of a pair an ordered map. -/
structure KeyedSet (key : α → κ) where
  toList : List α
  sorted : toList.Pairwise (fun a b => key a < key b)

namespace KeyedSet

variable {key : α → κ}

@[ext] theorem ext {s t : KeyedSet key} (h : s.toList = t.toList) : s = t := by
  cases s
  cases t
  simpa using h

instance [DecidableEq α] : DecidableEq (KeyedSet key) := fun s t =>
  decidable_of_iff (s.toList = t.toList) ⟨ext, fun h => h ▸ rfl⟩

instance : Membership α (KeyedSet key) := ⟨fun s a => a ∈ s.toList⟩

theorem mem_def {s : KeyedSet key} {a : α} : a ∈ s ↔ a ∈ s.toList := Iff.rfl

def empty : KeyedSet key := ⟨[], List.Pairwise.nil⟩

@[simp] theorem not_mem_empty (a : α) : a ∉ (empty : KeyedSet key) := List.not_mem_nil

def insertList (key : α → κ) (a : α) : List α → List α
  | [] => [a]
  | b :: l =>
    if key a < key b then a :: b :: l
    else if key b < key a then b :: insertList key a l
    else b :: l

theorem mem_insertList {a b : α} {l : List α} (h : b ∈ insertList key a l) : b = a ∨ b ∈ l := by
  induction l with
  | nil => simpa [insertList] using h
  | cons c l ih =>
    rw [insertList] at h
    split at h
    · simpa using h
    · split at h
      · obtain rfl | h := List.mem_cons.mp h
        · exact .inr (by simp)
        · exact (ih h).imp id (fun hm => by simp [hm])
      · exact .inr h

theorem insertList_sorted (a : α) {l : List α} (hl : l.Pairwise (fun a b => key a < key b)) :
    (insertList key a l).Pairwise (fun a b => key a < key b) := by
  induction l with
  | nil => simp [insertList]
  | cons b l ih =>
    obtain ⟨hb, hl'⟩ := List.pairwise_cons.mp hl
    rw [insertList]
    split
    · rename_i hab
      refine List.pairwise_cons.mpr ⟨fun c hc => ?_, hl⟩
      obtain rfl | hc := List.mem_cons.mp hc
      · exact hab
      · exact hab.trans (hb c hc)
    · split
      · rename_i hba
        refine List.pairwise_cons.mpr ⟨fun c hc => ?_, ih hl'⟩
        obtain rfl | hc := mem_insertList hc
        · exact hba
        · exact hb c hc
      · exact hl

/-- Insertion keeps an element that is already there under the same key. -/
def insert (s : KeyedSet key) (a : α) : KeyedSet key :=
  ⟨insertList key a s.toList, insertList_sorted a s.sorted⟩

def find? (s : KeyedSet key) (k : κ) : Option α := s.toList.find? (fun a => key a = k)

def erase (s : KeyedSet key) (k : κ) : KeyedSet key :=
  ⟨s.toList.filter (fun a => key a ≠ k), s.sorted.filter _⟩

/-- The sorted list has one element for each key. -/
theorem eq_of_key {s : KeyedSet key} {a b : α} (ha : a ∈ s) (hb : b ∈ s) (h : key a = key b) :
    a = b := by
  by_contra hne
  have hp : s.toList.Pairwise (fun a b => key a ≠ key b) := s.sorted.imp (fun h => h.ne)
  have hsymm : Std.Symm (fun a b => key a ≠ key b) := ⟨fun _ _ h => h.symm⟩
  exact hp.forall ha hb hne h

theorem find?_eq_some {s : KeyedSet key} {k : κ} {a : α} :
    s.find? k = some a ↔ a ∈ s ∧ key a = k := by
  constructor
  · intro h
    exact ⟨List.mem_of_find?_eq_some h, by simpa using List.find?_some h⟩
  · rintro ⟨ha, rfl⟩
    have hsome : (s.find? (key a)).isSome := by
      rw [find?, List.find?_isSome]
      exact ⟨a, ha, by simp⟩
    obtain ⟨b, hb⟩ := Option.isSome_iff_exists.mp hsome
    have hkey : key b = key a := by simpa using List.find?_some hb
    rw [hb, eq_of_key (List.mem_of_find?_eq_some hb) ha hkey]

theorem find?_eq_none {s : KeyedSet key} {k : κ} : s.find? k = none ↔ ∀ a ∈ s, key a ≠ k := by
  simp [find?, mem_def]

theorem filter_key (s : KeyedSet key) (k : κ) :
    s.toList.filter (fun a => key a = k) = (s.find? k).toList := by
  have hl : ∀ l : List α, l.Pairwise (fun a b => key a < key b) →
      l.filter (fun a => key a = k) = (l.find? (fun a => key a = k)).toList := by
    intro l
    induction l with
    | nil => exact fun _ => rfl
    | cons a l ih =>
      intro h
      obtain ⟨ha, hl⟩ := List.pairwise_cons.mp h
      by_cases hk : key a = k
      · have hnil : l.filter (fun a => key a = k) = [] :=
          List.filter_eq_nil_iff.mpr fun b hb => by simpa using hk ▸ (ha b hb).ne'
        simp [hk, hnil]
      · simp [hk, ih hl]
  exact hl s.toList s.sorted

theorem mem_insert_of_new {s : KeyedSet key} {a b : α} (h : s.find? (key a) = none) :
    b ∈ s.insert a ↔ b = a ∨ b ∈ s := by
  have hl : ∀ l : List α, (∀ c ∈ l, key c ≠ key a) → (b ∈ insertList key a l ↔ b = a ∨ b ∈ l) := by
    intro l hl
    induction l with
    | nil => simp [insertList]
    | cons c l ih =>
      have hc := hl c (by simp)
      have ih := ih (fun d hd => hl d (by simp [hd]))
      rw [insertList]
      split
      · simp
      · rename_i hac
        rw [if_pos (lt_of_le_of_ne (not_lt.mp hac) hc)]
        simp [ih, or_left_comm]
  exact hl s.toList (find?_eq_none.mp h)

theorem insert_of_found {s : KeyedSet key} {a b : α} (h : s.find? (key a) = some b) :
    s.insert a = s := by
  obtain ⟨hb, hk⟩ := find?_eq_some.mp h
  have hl : ∀ l : List α, l.Pairwise (fun a b => key a < key b) → b ∈ l →
      insertList key a l = l := by
    intro l hl hbl
    induction l with
    | nil => exact absurd hbl List.not_mem_nil
    | cons c l ih =>
      obtain ⟨hc, hl⟩ := List.pairwise_cons.mp hl
      obtain rfl | hbl := List.mem_cons.mp hbl
      · rw [insertList, if_neg hk.not_gt, if_neg hk.not_lt]
      · have hlt : key c < key a := hk ▸ hc b hbl
        rw [insertList, if_neg hlt.not_gt, if_pos hlt, ih hl hbl]
  exact ext (hl s.toList s.sorted hb)

/-- Two sets with the same elements are equal. -/
theorem ext_mem {s t : KeyedSet key} (h : ∀ a, a ∈ s ↔ a ∈ t) : s = t := by
  have hne : ∀ u : KeyedSet key, u.toList.Nodup := fun u =>
    u.sorted.imp fun hab => ne_of_apply_ne key hab.ne
  have hperm := (List.perm_ext_iff_of_nodup (hne s) (hne t)).mpr h
  exact ext (hperm.eq_of_pairwise (fun a b _ _ hab hba => absurd hab hba.not_gt) s.sorted t.sorted)

theorem find?_insert_of_new {s : KeyedSet key} {a : α} (h : s.find? (key a) = none) (k : κ) :
    (s.insert a).find? k = if key a = k then some a else s.find? k := by
  split
  · rename_i hk
    exact find?_eq_some.mpr ⟨(mem_insert_of_new h).mpr (.inl rfl), hk⟩
  · rename_i hk
    ext b
    rw [find?_eq_some, find?_eq_some, mem_insert_of_new h]
    constructor
    · rintro ⟨rfl | hb, hbk⟩
      · exact absurd hbk hk
      · exact ⟨hb, hbk⟩
    · exact fun ⟨hb, hbk⟩ => ⟨.inr hb, hbk⟩

theorem mem_erase {s : KeyedSet key} {k : κ} {a : α} : a ∈ s.erase k ↔ a ∈ s ∧ key a ≠ k := by
  simp [erase, mem_def]

/-- Inserting a sorted list element by element gives the set back. -/
theorem insertList_append {a : α} {l : List α} (h : ∀ b ∈ l, key b < key a) :
    insertList key a l = l ++ [a] := by
  induction l with
  | nil => rfl
  | cons b l ih =>
    have hb := h b (by simp)
    rw [insertList, if_neg hb.le.not_gt, if_pos hb, ih (fun c hc => h c (by simp [hc])),
      List.cons_append]

theorem foldl_insert (s : KeyedSet key) : s.toList.foldl insert empty = s := by
  have hl : ∀ (l : List α) (t : KeyedSet key),
      (t.toList ++ l).Pairwise (fun a b => key a < key b) →
        (l.foldl insert t).toList = t.toList ++ l := by
    intro l
    induction l with
    | nil => simp
    | cons a l ih =>
      intro t ht
      have hlt : ∀ b ∈ t.toList, key b < key a := fun b hb =>
        (List.pairwise_append.mp ht).2.2 b hb a (by simp)
      have hi : (t.insert a).toList = t.toList ++ [a] := insertList_append hlt
      rw [List.foldl_cons, ih (t.insert a) (by rw [hi]; simpa using ht), hi]
      simp
  exact ext (hl s.toList empty (by simpa [empty] using s.sorted))

end KeyedSet

/-- With the element as its own key, nothing that is inserted is lost. -/
theorem mem_foldl_insert {κ : Type v} [LinearOrder κ] {a : κ} (l : List κ)
    (s : KeyedSet (id : κ → κ)) : a ∈ l.foldl KeyedSet.insert s ↔ a ∈ s ∨ a ∈ l := by
  induction l generalizing s with
  | nil => simp
  | cons b l ih =>
    have hb : a ∈ s.insert b ↔ a = b ∨ a ∈ s := by
      cases hf : s.find? (id b) with
      | none => exact KeyedSet.mem_insert_of_new hf
      | some c =>
        obtain ⟨hc, rfl⟩ := KeyedSet.find?_eq_some.mp hf
        rw [KeyedSet.insert_of_found hf]
        constructor
        · exact .inr
        · rintro (rfl | ha)
          · exact hc
          · exact ha
    rw [List.foldl_cons, ih, hb, List.mem_cons, or_comm (a := a = b), or_assoc]

theorem mem_foldl_insert_empty {κ : Type v} [LinearOrder κ] {a : κ} (l : List κ) :
    a ∈ l.foldl KeyedSet.insert (.empty : KeyedSet (id : κ → κ)) ↔ a ∈ l := by
  rw [mem_foldl_insert]
  exact or_iff_right (KeyedSet.not_mem_empty a)

theorem foldl_insert_eq_iff {κ : Type v} [LinearOrder κ] (l : List κ)
    (s : KeyedSet (id : κ → κ)) : l.foldl KeyedSet.insert .empty = s ↔ ∀ a, a ∈ l ↔ a ∈ s := by
  constructor
  · rintro rfl a
    exact (mem_foldl_insert_empty l).symm
  · intro h
    exact KeyedSet.ext_mem fun a => (mem_foldl_insert_empty l).trans (h a)

/-- An ordered map. -/
abbrev KeyedMap (κ : Type v) [LinearOrder κ] (β : Type u) :=
  KeyedSet (Prod.fst : κ × β → κ)

namespace KeyedMap

variable {β : Type u}

def get? (m : KeyedMap κ β) (k : κ) : Option β := (m.find? k).map Prod.snd

theorem get?_eq_some {m : KeyedMap κ β} {k : κ} {b : β} : m.get? k = some b ↔ (k, b) ∈ m := by
  rw [get?]
  rw [Option.map_eq_some_iff]
  constructor
  · rintro ⟨⟨k', b'⟩, h, rfl⟩
    obtain ⟨hm, rfl⟩ := KeyedSet.find?_eq_some.mp h
    exact hm
  · exact fun h => ⟨(k, b), KeyedSet.find?_eq_some.mpr ⟨h, rfl⟩, rfl⟩

theorem get?_insert_of_new {m : KeyedMap κ β} {k : κ} {b : β} (h : m.get? k = none) (k' : κ) :
    KeyedMap.get? (m.insert (k, b)) k' = if k = k' then some b else m.get? k' := by
  have h' : m.find? k = none := by simpa [get?] using h
  rw [get?]
  rw [KeyedSet.find?_insert_of_new (a := (k, b)) h']
  split <;> rfl

theorem get?_insert (m : KeyedMap κ β) (e : κ × β) (k : κ) :
    KeyedMap.get? (m.insert e) k = (m.get? k).or (if e.1 = k then some e.2 else none) := by
  obtain ⟨key, b⟩ := e
  cases hfind : m.find? key with
  | none =>
    have hnone : m.get? key = none := by rw [get?, hfind, Option.map_none]
    rw [get?_insert_of_new hnone]
    by_cases hk : key = k
    · rw [if_pos hk, if_pos hk, ← hk, hnone, Option.none_or]
    · rw [if_neg hk, if_neg hk, Option.or_none]
  | some e' =>
    have hsome : m.get? key = some e'.2 := by rw [get?, hfind, Option.map_some]
    rw [KeyedSet.insert_of_found (a := (key, b)) hfind]
    by_cases hk : key = k
    · rw [← hk, hsome, Option.some_or]
    · rw [if_neg hk, Option.or_none]

/-- The first of several entries under one key stays. -/
theorem get?_foldl_insert (es : List (κ × β)) (m : KeyedMap κ β) (k : κ) :
    KeyedMap.get? (es.foldl KeyedSet.insert m) k =
      (m.get? k).or ((es.find? (fun e => e.1 = k)).map Prod.snd) := by
  induction es generalizing m with
  | nil => simp
  | cons e es ih =>
    rw [List.foldl_cons, ih, get?_insert, Option.or_assoc, List.find?_cons]
    by_cases hk : e.1 = k <;> simp [hk]

theorem get?_foldl_insert_empty (es : List (κ × β)) (k : κ) :
    KeyedMap.get? (es.foldl KeyedSet.insert .empty) k =
      (es.find? (fun e => e.1 = k)).map Prod.snd := by
  rw [get?_foldl_insert]
  rfl

theorem ext_get? {m m' : KeyedMap κ β} (h : ∀ k, m.get? k = m'.get? k) : m = m' :=
  KeyedSet.ext_mem fun e => by rw [← get?_eq_some, ← get?_eq_some, h]

/-- Assignment through a subscript: the entry of the key is replaced or added. -/
def set (m : KeyedMap κ β) (k : κ) (b : β) : KeyedMap κ β := (m.erase k).insert (k, b)

theorem find?_erase_self (m : KeyedMap κ β) (k : κ) : (m.erase k).find? k = none :=
  KeyedSet.find?_eq_none.mpr (fun _ ha => (KeyedSet.mem_erase.mp ha).2)

theorem mem_set {m : KeyedMap κ β} {k : κ} {b : β} {e : κ × β} :
    e ∈ m.set k b ↔ e = (k, b) ∨ (e ∈ m ∧ e.1 ≠ k) := by
  rw [set, KeyedSet.mem_insert_of_new (find?_erase_self m k), KeyedSet.mem_erase]

theorem get?_set (m : KeyedMap κ β) (k : κ) (b : β) (k' : κ) :
    KeyedMap.get? (m.set k b) k' = if k = k' then some b else m.get? k' := by
  have hnone : get? (m.erase k) k = none := by rw [get?, find?_erase_self, Option.map_none]
  rw [set, get?_insert_of_new hnone]
  by_cases hk : k = k'
  · rw [if_pos hk, if_pos hk]
  · rw [if_neg hk, if_neg hk]
    refine Option.ext fun b' => ?_
    rw [get?_eq_some, get?_eq_some, KeyedSet.mem_erase]
    exact ⟨And.left, fun h => ⟨h, Ne.symm hk⟩⟩

end KeyedMap

end Mumu.KeyedSets
