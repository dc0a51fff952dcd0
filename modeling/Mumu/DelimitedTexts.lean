import Mathlib.Data.List.Forall2

namespace Mumu.DelimitedTexts

universe u v

variable {χ : Type u} {α : Type v}

/-- A template is a list of texts of its own and places for fields. -/
inductive Part (χ : Type u) (α : Type v) where
  | text (s : List χ)
  | field (a : α)
  deriving DecidableEq

def write (value : α → List χ) : List (Part χ α) → List χ
  | [] => []
  | .text s :: t => s ++ write value t
  | .field a :: t => value a ++ write value t

/-- What the fields hold, from left to right. -/
def fields (value : α → List χ) : List (Part χ α) → List (List χ)
  | [] => []
  | .text _ :: t => fields value t
  | .field a :: t => value a :: fields value t

/-- The character that a template starts with whatever its fields hold. -/
def stop : List (Part χ α) → Option χ
  | .text (c :: _) :: _ => some c
  | .text [] :: t => stop t
  | _ => none

/-- Every field is followed by a character that it does not hold. -/
def Legible (value : α → List χ) : List (Part χ α) → Prop
  | [] => True
  | .text _ :: t => Legible value t
  | .field a :: t => (∃ c ∈ stop t, c ∉ value a) ∧ Legible value t

/-- The template has a text of its own. -/
def Marked (t : List (Part χ α)) : Prop := ∃ c s, Part.text (c :: s) ∈ t

section

variable [DecidableEq χ]

/-- The fields of a text, and what is left of it. -/
def read : List (Part χ α) → List χ → Option (List (List χ) × List χ)
  | [], s => some ([], s)
  | .text u :: t, s => if u <+: s then read t (s.drop u.length) else none
  | .field _ :: t, s => (stop t).bind fun c =>
      (read t (s.dropWhile (fun d => d ≠ c))).map
        fun r => (s.takeWhile (fun d => d ≠ c) :: r.1, r.2)

end

variable {value : α → List χ} {t : List (Part χ α)}

theorem write_of_stop {c : χ} (h : c ∈ stop t) : ∃ s, write value t = c :: s := by
  induction t with
  | nil => cases h
  | cons part t ih =>
    cases part with
    | field a => cases h
    | text u =>
      cases u with
      | nil => exact ih h
      | cons d u =>
        obtain rfl : d = c := Option.some.inj h
        exact ⟨u ++ write value t, rfl⟩

theorem write_ne_nil (h : Marked t) : write value t ≠ [] := by
  obtain ⟨c, s, hmem⟩ := h
  induction t with
  | nil => cases hmem
  | cons part t ih =>
    obtain rfl | htail := List.mem_cons.mp hmem
    · exact List.cons_ne_nil _ _
    · cases part with
      | text u => exact List.append_ne_nil_of_right_ne_nil u (ih htail)
      | field a => exact List.append_ne_nil_of_right_ne_nil (value a) (ih htail)

/-- A legible text can be read back, wherever it is followed by another. -/
theorem read_write [DecidableEq χ] (h : Legible value t) (rest : List χ) :
    read t (write value t ++ rest) = some (fields value t, rest) := by
  induction t with
  | nil => rfl
  | cons part t ih =>
    cases part with
    | text u =>
      rw [write, List.append_assoc, read, if_pos (List.prefix_append u _), List.drop_left, ih h]
      rfl
    | field a =>
      obtain ⟨⟨c, hstop, hc⟩, hlegible⟩ := h
      obtain ⟨s, hs⟩ : ∃ s, write value t = c :: s := write_of_stop hstop
      have hpass : ∀ d ∈ value a, decide (d ≠ c) = true := fun d hd =>
        decide_eq_true fun hdc => hc (hdc ▸ hd)
      have htake : (write value t ++ rest).takeWhile (fun d => d ≠ c) = [] := by simp [hs]
      have hdrop : (write value t ++ rest).dropWhile (fun d => d ≠ c) = write value t ++ rest := by
        simp [hs]
      rw [write, List.append_assoc, read, Option.mem_def.mp hstop, Option.bind_some,
        List.takeWhile_append_of_pos hpass, List.dropWhile_append_of_pos hpass, htake, hdrop,
        ih hlegible, List.append_nil]
      rfl

theorem fields_eq_iff {value' : α → List χ} :
    fields value t = fields value' t ↔ ∀ a, Part.field a ∈ t → value a = value' a := by
  induction t with
  | nil => simp [fields]
  | cons part t ih =>
    cases part with
    | text u => simp [fields, ih]
    | field a => simp [fields, ih]

theorem write_congr {value' : α → List χ} (h : ∀ a, Part.field a ∈ t → value a = value' a) :
    write value t = write value' t := by
  induction t with
  | nil => rfl
  | cons part t ih =>
    have htail := ih fun a ha => h a (List.mem_cons_of_mem _ ha)
    cases part with
    | text u => rw [write, write, htail]
    | field a => rw [write, write, htail, h a List.mem_cons_self]

/-- The texts of records in turn are the same exactly if there are as many of them
and they agree in every field. -/
theorem flatMap_write_eq_iff (hmarked : Marked t) {us vs : List (α → List χ)}
    (hus : ∀ u ∈ us, Legible u t) (hvs : ∀ v ∈ vs, Legible v t) :
    us.flatMap (fun u => write u t) = vs.flatMap (fun v => write v t) ↔
      List.Forall₂ (fun u v => ∀ a, Part.field a ∈ t → u a = v a) us vs := by
  classical
  constructor
  · intro h
    induction us generalizing vs with
    | nil =>
      cases vs with
      | nil => exact .nil
      | cons v vs => exact absurd h.symm (by simp [write_ne_nil hmarked])
    | cons u us ih =>
      cases vs with
      | nil => exact absurd h (by simp [write_ne_nil hmarked])
      | cons v vs =>
        obtain ⟨hu, hus⟩ := List.forall_mem_cons.mp hus
        obtain ⟨hv, hvs⟩ := List.forall_mem_cons.mp hvs
        have hread := congrArg (read t) h
        rw [List.flatMap_cons, List.flatMap_cons, read_write hu, read_write hv] at hread
        obtain ⟨hfields, hrest⟩ := Prod.mk.inj (Option.some.inj hread)
        exact .cons (fields_eq_iff.mp hfields) (ih hus hvs hrest)
  · intro h
    clear hus hvs
    induction h with
    | nil => rfl
    | cons huv _ ih => rw [List.flatMap_cons, List.flatMap_cons, ih, write_congr huv]

end Mumu.DelimitedTexts
