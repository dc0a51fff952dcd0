import Mathlib.Data.List.Nodup

namespace Mumu.HashedSets

universe u v

variable {α : Type u} {κ : Type v}

/-- A finite set whose elements are told apart by a key. The list is the order
of iteration, which says nothing about the set. -/
structure HashedSet (key : α → κ) where
  toList : List α
  nodup : (toList.map key).Nodup

namespace HashedSet

variable {key : α → κ}

@[ext] theorem ext {s t : HashedSet key} (h : s.toList = t.toList) : s = t := by
  cases s
  cases t
  simpa using h

instance : Membership α (HashedSet key) := ⟨fun s a => a ∈ s.toList⟩

theorem mem_def {s : HashedSet key} {a : α} : a ∈ s ↔ a ∈ s.toList := Iff.rfl

def empty : HashedSet key := ⟨[], List.nodup_nil⟩

variable [DecidableEq κ]

/-- Insertion keeps an element that is already there under the same key. -/
def insert (s : HashedSet key) (a : α) : HashedSet key :=
  if h : key a ∈ s.toList.map key then s
  else ⟨s.toList ++ [a], by
    rw [List.map_append, List.map_singleton, List.nodup_append]
    refine ⟨s.nodup, List.nodup_singleton _, fun k hk k' hk' hkk => ?_⟩
    rw [List.mem_singleton] at hk'
    exact h (hk' ▸ hkk ▸ hk)⟩

theorem toList_insert_of_new {s : HashedSet key} {a : α} (h : key a ∉ s.toList.map key) :
    (s.insert a).toList = s.toList ++ [a] := by
  rw [insert, dif_neg h]

/-- Elements of different keys are all kept. -/
theorem toList_foldl_insert {l : List α} (hl : (l.map key).Nodup) :
    (l.foldl insert (empty : HashedSet key)).toList = l := by
  have append : ∀ (l : List α) (s : HashedSet key), ((s.toList ++ l).map key).Nodup →
      (l.foldl insert s).toList = s.toList ++ l := by
    intro l
    induction l with
    | nil => simp
    | cons a l ih =>
      intro s hs
      have hnew : key a ∉ s.toList.map key := by
        rw [List.map_append, List.nodup_append] at hs
        exact fun ha => hs.2.2 _ ha _ (by simp) rfl
      have hi := toList_insert_of_new hnew
      rw [List.foldl_cons, ih (s.insert a) (by rw [hi]; simpa using hs), hi]
      simp
  exact append l empty (by simpa [empty] using hl)

end HashedSet

/-- With the element as its own key, nothing that is inserted is lost. -/
theorem mem_foldl_insert [DecidableEq α] {a : α} (l : List α) (s : HashedSet (id : α → α)) :
    a ∈ l.foldl HashedSet.insert s ↔ a ∈ s ∨ a ∈ l := by
  induction l generalizing s with
  | nil => simp
  | cons b l ih =>
    have hb : a ∈ s.insert b ↔ a ∈ s ∨ a = b := by
      rw [HashedSet.insert]
      split
      · rename_i h
        simp only [id, List.map_id] at h
        constructor
        · exact .inl
        · rintro (ha | rfl)
          · exact ha
          · exact h
      · simp [HashedSet.mem_def]
    rw [List.foldl_cons, ih, hb, List.mem_cons, or_assoc]

theorem mem_foldl_insert_empty [DecidableEq α] {a : α} (l : List α) :
    a ∈ l.foldl HashedSet.insert (.empty : HashedSet (id : α → α)) ↔ a ∈ l := by
  rw [mem_foldl_insert]
  exact or_iff_right List.not_mem_nil

abbrev HashedMap (κ : Type v) (β : Type u) := HashedSet (Prod.fst : κ × β → κ)

namespace HashedMap

variable [DecidableEq κ] {β : Type u}

def get? (m : HashedMap κ β) (k : κ) : Option β :=
  (m.toList.find? (fun e => e.1 = k)).map Prod.snd

theorem get?_of_mem {m : HashedMap κ β} {e : κ × β} (he : e ∈ m) : m.get? e.1 = some e.2 := by
  have hsome : (m.toList.find? (fun e' => e'.1 = e.1)).isSome :=
    List.find?_isSome.mpr ⟨e, he, by simp⟩
  obtain ⟨e', he'⟩ := Option.isSome_iff_exists.mp hsome
  have hkey : e'.1 = e.1 := by simpa using List.find?_some he'
  have hsame : e' = e := List.inj_on_of_nodup_map m.nodup (List.mem_of_find?_eq_some he') he hkey
  rw [get?, he', hsame, Option.map_some]

theorem get?_insert (m : HashedMap κ β) (e : κ × β) (k : κ) :
    HashedMap.get? (m.insert e) k = (m.get? k).or (if e.1 = k then some e.2 else none) := by
  by_cases hmem : e.1 ∈ m.toList.map Prod.fst
  · have hsame : m.insert e = m := by rw [HashedSet.insert, dif_pos hmem]
    rw [hsame]
    by_cases hk : e.1 = k
    · obtain ⟨e', he', hkey⟩ := List.mem_map.mp hmem
      have hsome : (m.toList.find? (fun e => e.1 = k)).isSome :=
        List.find?_isSome.mpr ⟨e', he', by simpa using hkey.trans hk⟩
      obtain ⟨found, hfound⟩ := Option.isSome_iff_exists.mp hsome
      rw [get?, hfound, Option.map_some, Option.some_or]
    · rw [if_neg hk, Option.or_none]
  · rw [get?, get?, HashedSet.toList_insert_of_new hmem, List.find?_append]
    cases m.toList.find? (fun e => e.1 = k) with
    | some e' => rfl
    | none => by_cases hk : e.1 = k <;> simp [hk]

/-- The first of several entries under one key stays. -/
theorem get?_foldl_insert (es : List (κ × β)) (m : HashedMap κ β) (k : κ) :
    HashedMap.get? (es.foldl HashedSet.insert m) k =
      (m.get? k).or ((es.find? (fun e => e.1 = k)).map Prod.snd) := by
  induction es generalizing m with
  | nil => simp
  | cons e es ih =>
    rw [List.foldl_cons, ih, get?_insert, Option.or_assoc, List.find?_cons]
    by_cases hk : e.1 = k <;> simp [hk]

theorem get?_foldl_insert_empty (es : List (κ × β)) (k : κ) :
    HashedMap.get? (es.foldl HashedSet.insert .empty) k =
      (es.find? (fun e => e.1 = k)).map Prod.snd := by
  rw [get?_foldl_insert]
  rfl

end HashedMap

end Mumu.HashedSets
