import Mathlib.Data.List.Basic

namespace Mumu.PointerHeap

abbrev Ptr := Nat

/-- Objects that are only ever allocated, read and written in place; a pointer
is the number of objects allocated before its own. -/
structure Heap (α : Type*) where
  cells : List α

namespace Heap

variable {α : Type*}

def get? (h : Heap α) (p : Ptr) : Option α := h.cells[p]?

/-- Where the next object goes. -/
def fresh (h : Heap α) : Ptr := h.cells.length

def alloc (h : Heap α) (a : α) : Heap α := ⟨h.cells ++ [a]⟩

def modify (h : Heap α) (p : Ptr) (f : α → α) : Heap α := ⟨h.cells.modify p f⟩

def modifyAll (h : Heap α) (ps : List Ptr) (f : α → α) : Heap α :=
  ps.foldl (fun h p => h.modify p f) h

theorem ext_get? {h h' : Heap α} (hp : ∀ p, h.get? p = h'.get? p) : h = h' := by
  cases h
  cases h'
  exact congrArg Heap.mk (List.ext_getElem? hp)

theorem lt_fresh {h : Heap α} {p : Ptr} {a : α} (hp : h.get? p = some a) : p < h.fresh :=
  (List.getElem?_eq_some_iff.mp hp).1

theorem ne_fresh {h : Heap α} {p : Ptr} {a : α} (hp : h.get? p = some a) : p ≠ h.fresh :=
  Nat.ne_of_lt (lt_fresh hp)

theorem get?_fresh (h : Heap α) : h.get? h.fresh = none := List.getElem?_eq_none (Nat.le_refl _)

theorem get?_alloc (h : Heap α) (a : α) (p : Ptr) :
    (h.alloc a).get? p = if p = h.fresh then some a else h.get? p := by
  unfold get? alloc fresh
  split
  · rename_i hp
    subst hp
    exact List.getElem?_concat_length
  · rename_i hp
    obtain hlt | hgt := Nat.lt_or_gt_of_ne hp
    · exact List.getElem?_append_left hlt
    · rw [List.getElem?_eq_none (by simp; omega), List.getElem?_eq_none (by omega)]

/-- What is read after an allocation is the new object, or was there before. -/
theorem get?_alloc_cases {h : Heap α} {a b : α} {p : Ptr} (hp : (h.alloc a).get? p = some b) :
    a = b ∨ h.get? p = some b := by
  rw [get?_alloc] at hp
  split at hp
  · exact .inl (Option.some.inj hp)
  · exact .inr hp

theorem get?_alloc_of_some {h : Heap α} {a b : α} {p : Ptr} (hp : h.get? p = some b) :
    (h.alloc a).get? p = some b := by
  rw [get?_alloc, if_neg (ne_fresh hp), hp]

@[simp] theorem get?_alloc_fresh (h : Heap α) (a : α) : (h.alloc a).get? h.fresh = some a := by
  rw [get?_alloc, if_pos rfl]

theorem get?_modify (h : Heap α) (p q : Ptr) (f : α → α) :
    (h.modify p f).get? q = if p = q then (h.get? q).map f else h.get? q := by
  unfold get? modify
  rw [List.getElem?_modify]
  split <;> simp

@[simp] theorem get?_modify_self (h : Heap α) (p : Ptr) (f : α → α) :
    (h.modify p f).get? p = (h.get? p).map f := by
  rw [get?_modify, if_pos rfl]

theorem get?_modify_of_ne {h : Heap α} {p q : Ptr} (f : α → α) (hne : p ≠ q) :
    (h.modify p f).get? q = h.get? q := by
  rw [get?_modify, if_neg hne]

theorem fresh_modify (h : Heap α) (p : Ptr) (f : α → α) : (h.modify p f).fresh = h.fresh :=
  List.length_modify ..

theorem fresh_modifyAll (h : Heap α) (ps : List Ptr) (f : α → α) :
    (h.modifyAll ps f).fresh = h.fresh := by
  rw [modifyAll]
  induction ps generalizing h with
  | nil => rfl
  | cons p ps ih => rw [List.foldl_cons, ih, fresh_modify]

theorem modify_congr {h : Heap α} {p : Ptr} {f g : α → α}
    (hfg : ∀ a, h.get? p = some a → f a = g a) : h.modify p f = h.modify p g := by
  refine ext_get? fun q => ?_
  rw [get?_modify, get?_modify]
  by_cases hq : p = q
  · subst hq
    rw [if_pos rfl, if_pos rfl]
    exact Option.map_congr hfg
  · rw [if_neg hq, if_neg hq]

theorem modify_id (h : Heap α) (p : Ptr) : h.modify p id = h := by
  refine ext_get? fun q => ?_
  rw [get?_modify, Option.map_id, id, ite_self]

theorem modify_eq_self {h : Heap α} {p : Ptr} {f : α → α}
    (hf : ∀ a, h.get? p = some a → f a = a) : h.modify p f = h :=
  (modify_congr hf).trans (modify_id h p)

theorem get?_modifyAll (h : Heap α) (ps : List Ptr) (f : α → α) (hf : ∀ a, f (f a) = f a)
    (q : Ptr) :
    (h.modifyAll ps f).get? q = if q ∈ ps then (h.get? q).map f else h.get? q := by
  rw [modifyAll]
  induction ps generalizing h with
  | nil => simp
  | cons p ps ih =>
    rw [List.foldl_cons, ih, get?_modify]
    by_cases hp : p = q
    · subst hp
      have hff : f ∘ f = f := funext hf
      simp [hff]
    · simp [hp, Ne.symm hp]

/-- A pointer to an object with a property. -/
def Has (h : Heap α) (Q : α → Prop) (p : Ptr) : Prop := ∃ a, h.get? p = some a ∧ Q a

section

variable {h : Heap α} {Q : α → Prop} {p : Ptr}

theorem Has.modify (hp : h.Has Q p) (q : Ptr) {f : α → α} (hf : ∀ a, Q a → Q (f a)) :
    (h.modify q f).Has Q p := by
  obtain ⟨a, ha, hQ⟩ := hp
  rw [Has, get?_modify, ha]
  split
  · exact ⟨f a, rfl, hf a hQ⟩
  · exact ⟨a, rfl, hQ⟩

theorem Has.modifyAll (hp : h.Has Q p) (qs : List Ptr) {f : α → α} (hf : ∀ a, Q a → Q (f a)) :
    (h.modifyAll qs f).Has Q p := by
  unfold Heap.modifyAll
  induction qs generalizing h with
  | nil => exact hp
  | cons q qs ih => exact ih (hp.modify q hf)

theorem Has.alloc (hp : h.Has Q p) (b : α) : (h.alloc b).Has Q p := by
  obtain ⟨a, ha, hQ⟩ := hp
  exact ⟨a, get?_alloc_of_some ha, hQ⟩

end

theorem modify_alloc_fresh (h : Heap α) (a : α) (f : α → α) :
    (h.alloc a).modify h.fresh f = h.alloc (f a) := by
  refine ext_get? fun p => ?_
  rw [get?_modify, get?_alloc, get?_alloc]
  by_cases hp : p = h.fresh <;> simp [hp, eq_comm]

/-- A read that some update left defined was defined before it. -/
theorem exists_of_modify {h : Heap α} {p q : Ptr} {f : α → α} {b : α}
    (hq : (h.modify p f).get? q = some b) :
    ∃ a, h.get? q = some a ∧ b = if p = q then f a else a := by
  rw [get?_modify] at hq
  split at hq
  · rename_i hp
    obtain ⟨a, ha, rfl⟩ := Option.map_eq_some_iff.mp hq
    exact ⟨a, ha, by rw [if_pos hp]⟩
  · rename_i hp
    exact ⟨b, hq, by rw [if_neg hp]⟩

end Heap

end Mumu.PointerHeap
