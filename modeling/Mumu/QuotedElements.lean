import Mathlib.Data.List.Perm.Subperm
import Mumu.NestedValues

namespace Mumu.QuotedElements

open Mumu.LogLevels Mumu.KeyedSets Mumu.HashedSets Mumu.YamlNodes Mumu.LexcalCasts
open Mumu.NestedValues

/-! ### Lists element by element -/

section

variable {α β γ : Type}

theorem mapM_eq_ok (f : α → Except Exn β) (xs : List α) (ys : List β) :
    xs.mapM f = .ok ys ↔ List.Forall₂ (fun x y => f x = .ok y) xs ys := by
  induction xs generalizing ys with
  | nil =>
    rw [List.mapM_nil, List.forall₂_nil_left_iff]
    simp [eq_comm]
  | cons x xs ih =>
    rw [List.mapM_cons, List.forall₂_cons_left_iff]
    cases hx : f x with
    | error e => simp
    | ok y =>
      simp only [ok_bind, Except.ok.injEq, ← ih]
      cases hxs : xs.mapM f with
      | error e => simp
      | ok ys' => simp [eq_comm]

theorem forall₂_comp {R : α → β → Prop} {S : β → γ → Prop} (xs : List α) (zs : List γ) :
    (∃ ys, List.Forall₂ R xs ys ∧ List.Forall₂ S ys zs) ↔
      List.Forall₂ (fun x z => ∃ y, R x y ∧ S y z) xs zs := by
  constructor
  · rintro ⟨ys, hxy, hyz⟩
    induction hxy generalizing zs with
    | nil =>
      cases hyz
      exact .nil
    | cons h _ ih =>
      cases hyz with
      | cons h' hyz => exact .cons ⟨_, h, h'⟩ (ih _ hyz)
  · intro h
    induction h with
    | nil => exact ⟨[], .nil, .nil⟩
    | cons h _ ih =>
      obtain ⟨y, hxy, hyz⟩ := h
      obtain ⟨ys, hxys, hyzs⟩ := ih
      exact ⟨y :: ys, .cons hxy hxys, .cons hyz hyzs⟩

/-- A list as long as one without repetitions, with the same elements. -/
theorem perm_of_same_mem {xs ys : List α} (hxs : xs.Nodup) (hlen : ys.length = xs.length)
    (hmem : ∀ a, a ∈ ys ↔ a ∈ xs) : ys.Perm xs :=
  ((List.subperm_of_subset hxs fun a ha => (hmem a).mpr ha).perm_of_length_le hlen.le).symm

end

/-! ### Texts as scalars -/

section

variable (yaml : Yaml) {T : Type} (C : LexcalCast T)

/-- A value's text, taken for the text of a scalar and converted back. -/
def readQuoted (x : T) : Except Exn T := do
  let text ← C.toStr x
  C.fromStr (yaml.emit (.scalar text))

/-- A value whose text still converts back to it from a scalar. -/
def ReadsQuoted (x : T) : Prop := ∃ y, readQuoted yaml C x = .ok y ∧ C.eq y x

/-- The values that the elements' quoted texts convert to. -/
def QuotedReadings (xs ys : List T) : Prop :=
  List.Forall₂ (fun x y => readQuoted yaml C x = .ok y) xs ys

variable {yaml C}

theorem readQuoted_eq_ok (x y : T) : readQuoted yaml C x = .ok y ↔
    ∃ t, C.toStr x = .ok t ∧ C.fromStr (yaml.emit (.scalar t)) = .ok y :=
  bind_eq_ok

variable (hyaml : yaml.Lawful)

include hyaml

/-- What the conversions to a sequence and back do to the elements. -/
theorem writeTexts_readElements (xs ys : List T) :
    (∃ t, writeTexts yaml C xs = .ok t ∧ readElements yaml C t = .ok ys) ↔
      QuotedReadings yaml C xs ys := by
  have hread : ∀ ts : List Str, readElements yaml C (yaml.emit (.seq (ts.map .scalar))) =
      ts.mapM (fun t => C.fromStr (yaml.emit (.scalar t))) := by
    intro ts
    rw [readElements, hyaml, ok_bind, Node.elementTexts_seq, List.map_map, List.mapM_map]
    rfl
  have hcomp := forall₂_comp (R := fun x t => C.toStr x = .ok t)
    (S := fun t y => C.fromStr (yaml.emit (.scalar t)) = .ok y) xs ys
  rw [QuotedReadings]
  simp only [readQuoted_eq_ok, ← hcomp, ← mapM_eq_ok]
  constructor
  · rintro ⟨t, hwrite, hys⟩
    obtain ⟨ts, hts, hemit⟩ := bind_eq_ok.mp hwrite
    obtain rfl := Except.ok.inj hemit
    exact ⟨ts, hts, (hread ts).symm.trans hys⟩
  · rintro ⟨ts, hts, hys⟩
    exact ⟨_, by rw [writeTexts, hts]; rfl, (hread ts).trans hys⟩

theorem list_roundTrips (c : List T) :
    (list yaml C).RoundTrips c ↔ ∀ x ∈ c, ReadsQuoted yaml C x := by
  have hsame : (∀ x ∈ c, ReadsQuoted yaml C x) ↔
      ∃ ys, QuotedReadings yaml C c ys ∧ List.Forall₂ C.eq ys c :=
    ((forall₂_comp c c).trans List.forall₂_same).symm
  rw [hsame]
  constructor
  · rintro ⟨t, ys, hto, hfrom, heq⟩
    exact ⟨ys, (writeTexts_readElements hyaml c ys).mp ⟨t, hto, hfrom⟩, heq⟩
  · rintro ⟨ys, hys, heq⟩
    obtain ⟨t, hto, hfrom⟩ := (writeTexts_readElements hyaml c ys).mpr hys
    exact ⟨t, ys, hto, hfrom, heq⟩

/-- A conversion that goes over the elements one way and collects them into a
set the other way. -/
theorem elements_roundTrip {S : Type} {D : LexcalCast S} {elems : S → List T} {collect : List T → S}
    (hcast : SequenceCast yaml C D collect) (hto : ∀ c, D.toStr c = writeTexts yaml C (elems c))
    (hnodup : ∀ c, (elems c).Nodup)
    (heq : ∀ ys c, D.eq (collect ys) c ↔ ∀ a, a ∈ ys ↔ a ∈ elems c) (c : S) :
    D.RoundTrips c ↔ ∃ ys, QuotedReadings yaml C (elems c) ys ∧ ys.Perm (elems c) := by
  constructor
  · rintro ⟨t, d, ht, hd, heqv⟩
    obtain ⟨ys, hys, rfl⟩ := hcast.fromStr_eq_ok.mp hd
    have hquoted := (writeTexts_readElements hyaml _ ys).mp ⟨t, hto c ▸ ht, hys⟩
    have hlen : ys.length = (elems c).length := (List.Forall₂.length_eq hquoted).symm
    exact ⟨ys, hquoted, perm_of_same_mem (hnodup c) hlen ((heq ys c).mp heqv)⟩
  · rintro ⟨ys, hquoted, hperm⟩
    obtain ⟨t, ht, hys⟩ := (writeTexts_readElements hyaml _ ys).mpr hquoted
    exact ⟨t, collect ys, (hto c).trans ht, hcast.fromStr_eq_ok.mpr ⟨ys, hys, rfl⟩,
      (heq ys c).mpr fun a => hperm.mem_iff⟩

theorem set_roundTrips [LinearOrder T] (c : KeyedSet (id : T → T)) :
    (set yaml C).RoundTrips c ↔ ∃ ys, QuotedReadings yaml C c.toList ys ∧ ys.Perm c.toList := by
  apply elements_roundTrip hyaml .set (fun _ => rfl)
  · exact fun c => c.sorted.imp fun hab => hab.ne
  · exact fun ys c => KeyedSets.foldl_insert_eq_iff ys c

theorem unorderedSet_roundTrips [DecidableEq T] (c : HashedSet (id : T → T)) :
    (unorderedSet yaml C).RoundTrips c ↔
      ∃ ys, QuotedReadings yaml C c.toList ys ∧ ys.Perm c.toList := by
  apply elements_roundTrip hyaml .unorderedSet (fun _ => rfl)
  · exact fun c => List.map_id c.toList ▸ c.nodup
  · intro ys c
    constructor
    · intro h a
      exact (HashedSets.mem_foldl_insert_empty ys).symm.trans (h a)
    · intro h a
      exact (HashedSets.mem_foldl_insert_empty ys).trans (h a)

end

/-! ### Which elements survive -/

section

variable {yaml : Yaml} {T : Type} {C : LexcalCast T}

theorem integer_readsQuoted {boost : Boost} {k : IntType} (hboost : boost.Lawful k)
    (hprint : ∀ i, yaml.emit (.scalar (Decimal.print i)) = Decimal.print i) (x : k.Val) :
    ReadsQuoted yaml (integer boost k) x := by
  obtain ⟨hto, hfrom⟩ := hboost x
  refine ⟨x, (readQuoted_eq_ok x x).mpr ⟨Decimal.print x.val, congrArg Except.ok hto, ?_⟩, rfl⟩
  rw [hprint]
  exact hfrom

/-- A conversion that takes every scalar for one value. -/
theorem readsQuoted_iff_eq {e : T} (hto : ∃ t, C.toStr e = .ok t)
    (hfrom : ∀ s, C.fromStr (yaml.emit (.scalar s)) = .ok e) (heq : ∀ x, C.eq e x ↔ x = e)
    (x : T) : ReadsQuoted yaml C x ↔ x = e := by
  constructor
  · rintro ⟨y, hy, hyx⟩
    obtain ⟨t, _, ht⟩ := (readQuoted_eq_ok x y).mp hy
    rw [hfrom, Except.ok.injEq] at ht
    exact (heq x).mp (ht ▸ hyx)
  · rintro rfl
    obtain ⟨t, ht⟩ := hto
    exact ⟨x, (readQuoted_eq_ok x x).mpr ⟨t, ht, hfrom t⟩, (heq x).mpr rfl⟩

variable (yaml) in
/-- The containers, each with its empty value. -/
inductive Container : {S : Type} → LexcalCast S → S → Prop
  | vector {T : Type} (C : LexcalCast T) : Container (vector yaml C) []
  | list {T : Type} (C : LexcalCast T) : Container (list yaml C) []
  | set {T : Type} [LinearOrder T] (C : LexcalCast T) : Container (set yaml C) .empty
  | unorderedSet {T : Type} [DecidableEq T] (C : LexcalCast T) :
    Container (unorderedSet yaml C) .empty
  | map {T : Type} (C : LexcalCast T) : Container (map yaml C) .empty
  | unorderedMap {T : Type} (C : LexcalCast T) : Container (unorderedMap yaml C) .empty

theorem readElements_scalar (hyaml : yaml.Lawful) (s : Str) :
    readElements yaml C (yaml.emit (.scalar s)) = .ok [] := by
  rw [readElements, hyaml, ok_bind, Node.elementTexts_scalar, List.mapM_nil, pure_eq_ok]

theorem readEntries_scalar (hyaml : yaml.Lawful) (s : Str) :
    readEntries yaml C (yaml.emit (.scalar s)) = .ok [] := by
  simp [readEntries, hyaml _]

/-- Of a container only the empty value survives as a scalar. -/
theorem container_readsQuoted (hyaml : yaml.Lawful) {e : T} (h : Container yaml C e) (x : T) :
    ReadsQuoted yaml C x ↔ x = e := by
  cases h with
  | vector C =>
    apply readsQuoted_iff_eq ⟨_, rfl⟩ (readElements_scalar hyaml)
    exact fun x => List.forall₂_nil_left_iff
  | list C =>
    apply readsQuoted_iff_eq ⟨_, rfl⟩ (readElements_scalar hyaml)
    exact fun x => List.forall₂_nil_left_iff
  | set C =>
    apply readsQuoted_iff_eq ⟨_, rfl⟩
    · intro s
      simp only [LexcalCasts.set, readElements_scalar hyaml s]
      rfl
    · exact fun x => eq_comm
  | unorderedSet C =>
    apply readsQuoted_iff_eq ⟨_, rfl⟩
    · intro s
      simp only [unorderedSet, readElements_scalar hyaml s]
      rfl
    · intro x
      constructor
      · exact fun h => HashedSet.ext (List.eq_nil_iff_forall_not_mem.mpr fun a ha =>
          absurd ((h a).mpr ha) List.not_mem_nil)
      · rintro rfl
        exact fun a => Iff.rfl
  | map C =>
    apply readsQuoted_iff_eq ⟨_, rfl⟩
    · intro s
      simp only [map, readEntries_scalar hyaml s]
      rfl
    · intro x
      constructor
      · exact fun h => KeyedSet.ext (List.forall₂_nil_left_iff.mp h)
      · rintro rfl
        exact .nil
  | unorderedMap C =>
    apply readsQuoted_iff_eq ⟨_, rfl⟩
    · intro s
      simp only [unorderedMap, readEntries_scalar hyaml s]
      rfl
    · intro x
      constructor
      · intro h
        apply HashedSet.ext
        cases hx : x.toList with
        | nil => rfl
        | cons e es =>
          have hrel := h e.1
          rw [HashedMap.get?, HashedMap.get?, hx] at hrel
          simp [HashedSet.empty] at hrel
      · rintro rfl
        exact fun k => .none

end

/-- A list, a set or an unordered set converts to a text that converts back to
it exactly when its elements survive as scalars, and containers among the
elements do so only when they are empty. -/
theorem sequences_roundTrip_iff (yaml : Yaml) (hyaml : yaml.Lawful) {T : Type}
    (C : LexcalCast T) :
    (∀ c : List T, (list yaml C).RoundTrips c ↔ ∀ x ∈ c, ReadsQuoted yaml C x) ∧
    (∀ [LinearOrder T] (c : KeyedSet (id : T → T)), (set yaml C).RoundTrips c ↔
      ∃ ys, QuotedReadings yaml C c.toList ys ∧ ys.Perm c.toList) ∧
    (∀ [DecidableEq T] (c : HashedSet (id : T → T)), (unorderedSet yaml C).RoundTrips c ↔
      ∃ ys, QuotedReadings yaml C c.toList ys ∧ ys.Perm c.toList) ∧
    ∀ e, Container yaml C e → ∀ x, ReadsQuoted yaml C x ↔ x = e :=
  ⟨list_roundTrips hyaml, set_roundTrips hyaml, unorderedSet_roundTrips hyaml,
    fun _ h => container_readsQuoted hyaml h⟩

theorem sequences_roundTrip_integers :
    (list YamlBlocks.yaml (integer .decimal .int)).RoundTrips [⟨7, by decide⟩, ⟨-7, by decide⟩] :=
  ((sequences_roundTrip_iff YamlBlocks.yaml YamlBlocks.yaml_lawful (integer .decimal .int)).1
    _).mpr fun x _ => integer_readsQuoted (Boost.decimal_lawful _) YamlBlocks.emit_print x

/-- A list of vectors loses what is in them. -/
theorem list_vector_loses :
    YamlBlocks.yaml.Lawful ∧
      (∀ x, (vector YamlBlocks.yaml (integer .decimal .int)).RoundTrips x) ∧
      ¬ (list YamlBlocks.yaml (vector YamlBlocks.yaml (integer .decimal .int))).RoundTrips
        [[⟨7, by decide⟩]] := by
  refine ⟨YamlBlocks.yaml_lawful, fun x => ?_, fun h => ?_⟩
  · exact (cast_embeds YamlBlocks.emit_print YamlBlocks.yaml_lawful (.vector (.integer .int))
      (Boost.decimal_lawful _) x).roundTrips
  · have hquoted := (list_roundTrips YamlBlocks.yaml_lawful _).mp h _ (List.mem_singleton.mpr rfl)
    have hnil := (container_readsQuoted YamlBlocks.yaml_lawful (.vector _) _).mp hquoted
    exact List.cons_ne_nil _ _ hnil

end Mumu.QuotedElements
