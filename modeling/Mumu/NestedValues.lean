import Mumu.LexcalCasts
import Mumu.YamlBlocks

namespace Mumu.NestedValues

open Mumu.LogLevels Mumu.KeyedSets Mumu.HashedSets Mumu.YamlNodes Mumu.LexcalCasts

/-! ### The types -/

/-- The types built from integers by vectors and by maps from texts. -/
inductive Ty where
  | integer (k : IntType)
  | vector (t : Ty)
  | map (t : Ty)
  | unorderedMap (t : Ty)

def Ty.Val : Ty → Type
  | integer k => k.Val
  | vector t => List t.Val
  | map t => KeyedMap Str t.Val
  | unorderedMap t => HashedMap Str t.Val

/-- The integers that a type is built from. -/
def Ty.base : Ty → IntType
  | integer k => k
  | vector t | map t | unorderedMap t => t.base

def Ty.cast (boost : Boost) (yaml : Yaml) : (t : Ty) → LexcalCast t.Val
  | integer k => LexcalCasts.integer boost k
  | vector t => LexcalCasts.vector yaml (t.cast boost yaml)
  | map t => LexcalCasts.map yaml (t.cast boost yaml)
  | unorderedMap t => LexcalCasts.unorderedMap yaml (t.cast boost yaml)

/-! ### Values inside other values -/

/-- The text of a value is that of a node, so that it survives in another
document. -/
def Embeds (yaml : Yaml) {T : Type} (C : LexcalCast T) (x : T) : Prop :=
  ∃ n y, C.toStr x = .ok (yaml.emit n) ∧ C.fromStr (yaml.emit n) = .ok y ∧ C.eq y x

theorem Embeds.roundTrips {yaml : Yaml} {T : Type} {C : LexcalCast T} {x : T}
    (h : Embeds yaml C x) : C.RoundTrips x := by
  obtain ⟨n, y, hto, hfrom, heq⟩ := h
  exact ⟨_, y, hto, hfrom, heq⟩

section

variable {yaml : Yaml} {T : Type} {C : LexcalCast T}

theorem map_fst_eq {R : T → T → Prop} {ys es : List (Str × T)}
    (h : List.Forall₂ (fun e e' => e.1 = e'.1 ∧ R e.2 e'.2) ys es) :
    ys.map Prod.fst = es.map Prod.fst := by
  induction h with
  | nil => rfl
  | cons h _ ih => rw [List.map_cons, List.map_cons, h.1, ih]

theorem find?_related {R : T → T → Prop} {ys es : List (Str × T)}
    (h : List.Forall₂ (fun e e' => e.1 = e'.1 ∧ R e.2 e'.2) ys es) (k : Str) :
    Option.Rel R ((ys.find? (fun e => e.1 = k)).map Prod.snd)
      ((es.find? (fun e => e.1 = k)).map Prod.snd) := by
  induction h with
  | nil => exact .none
  | @cons e e' ys es h _ ih =>
    by_cases hk : e'.1 = k
    · simpa [h.1, hk] using Option.Rel.some h.2
    · simpa [h.1, hk] using ih

variable (hyaml : yaml.Lawful)

include hyaml

theorem vector_embeds (xs : List T) (hxs : ∀ x ∈ xs, Embeds yaml C x) :
    Embeds yaml (vector yaml C) xs := by
  have each : ∃ nodes ys, xs.mapM (valueNode yaml C) = .ok nodes ∧
      (nodes.map yaml.emit).mapM C.fromStr = .ok ys ∧ List.Forall₂ C.eq ys xs := by
    induction xs with
    | nil => exact ⟨[], [], rfl, rfl, .nil⟩
    | cons x xs ih =>
      obtain ⟨n, y, hto, hfrom, heq⟩ := hxs x (by simp)
      obtain ⟨nodes, ys, hnodes, hys, heqs⟩ := ih (fun x hx => hxs x (by simp [hx]))
      refine ⟨n :: nodes, y :: ys, ?_, ?_, .cons heq heqs⟩
      · simp [List.mapM_cons, valueNode, hto, hyaml n, hnodes]
      · simp [List.mapM_cons, hfrom, hys]
  obtain ⟨nodes, ys, hnodes, hys, heqs⟩ := each
  refine ⟨.seq nodes, ys, ?_, ?_, heqs⟩
  · simp [vector, hnodes]
  · simp [vector, readElements, hyaml (.seq nodes), Node.elementTexts_seq, hys]

/-- Entries of different keys, written after some others and read again. -/
theorem entries_embed (es : List (Str × T)) (hkeys : (es.map Prod.fst).Nodup)
    (hes : ∀ e ∈ es, Embeds yaml C e.2) (before : List (Node × Node))
    (hbefore : ∀ e ∈ es, ∀ b ∈ before, Node.isKey e.1 b.1 = false) :
    ∃ entries ys, es.foldlM (writeEntry yaml C) (.map before) = .ok (.map (before ++ entries)) ∧
      entries.mapM (readEntry yaml C) = .ok ys ∧
      List.Forall₂ (fun e e' => e.1 = e'.1 ∧ C.eq e.2 e'.2) ys es := by
  induction es generalizing before with
  | nil => exact ⟨[], [], by simp, rfl, .nil⟩
  | cons e es ih =>
    obtain ⟨key, x⟩ := e
    obtain ⟨hkey, hkeys⟩ := List.nodup_cons.mp hkeys
    obtain ⟨n, y, hto, hfrom, heq⟩ := hes (key, x) (by simp)
    have hnew : ∀ e ∈ es, ∀ b ∈ before ++ [(.scalar key, n)], Node.isKey e.1 b.1 = false := by
      intro e he b hb
      obtain hb | hb := List.mem_append.mp hb
      · exact hbefore e (by simp [he]) b hb
      · obtain rfl := List.mem_singleton.mp hb
        rw [← Bool.not_eq_true, Node.isKey_scalar]
        rintro rfl
        exact hkey (List.mem_map.mpr ⟨e, he, rfl⟩)
    obtain ⟨entries, ys, hentries, hys, heqs⟩ :=
      ih hkeys (fun e he => hes e (by simp [he])) (before ++ [(.scalar key, n)]) hnew
    have hwrite : writeEntry yaml C (.map before) (key, x) =
        .ok (.map (before ++ [(.scalar key, n)])) := by
      simp [writeEntry, valueNode, hto, hyaml n, Node.set, Node.asEntries,
        Node.setEntry_of_new (hbefore (key, x) (by simp))]
    refine ⟨(.scalar key, n) :: entries, (key, y) :: ys, ?_, ?_, .cons ⟨rfl, heq⟩ heqs⟩
    · rw [List.foldlM_cons, hwrite, ok_bind, hentries, List.append_assoc, List.singleton_append]
    · simp [List.mapM_cons, readEntry, hfrom, hys, Node.scalarText]

/-- The text of some entries is that of a map, or of an empty sequence. -/
theorem writeEntries_embeds (es : List (Str × T)) (hkeys : (es.map Prod.fst).Nodup)
    (hes : ∀ e ∈ es, Embeds yaml C e.2) :
    ∃ n ys, writeEntries yaml C es = .ok (yaml.emit n) ∧
      readEntries yaml C (yaml.emit n) = .ok ys ∧
      List.Forall₂ (fun e e' => e.1 = e'.1 ∧ C.eq e.2 e'.2) ys es := by
  cases es with
  | nil =>
    refine ⟨.seq [], [], rfl, ?_, .nil⟩
    simp [readEntries, hyaml (.seq [])]
  | cons e es =>
    obtain ⟨entries, ys, hentries, hys, heqs⟩ :=
      entries_embed hyaml (e :: es) hkeys hes [] (fun _ _ _ hb => absurd hb List.not_mem_nil)
    refine ⟨.map entries, ys, ?_, ?_, heqs⟩
    · -- the first key turns the empty sequence into a map
      have hfirst : writeEntry yaml C (.seq []) e = writeEntry yaml C (.map []) e := rfl
      rw [List.foldlM_cons] at hentries
      rw [writeEntries, List.foldlM_cons, hfirst, hentries]
      rfl
    · rw [readEntries, hyaml (.map entries)]
      exact hys

theorem map_embeds (m : KeyedMap Str T) (hm : ∀ e ∈ m, Embeds yaml C e.2) :
    Embeds yaml (map yaml C) m := by
  have hkeys : (m.toList.map Prod.fst).Nodup :=
    List.pairwise_map.mpr (m.sorted.imp fun h => h.ne)
  obtain ⟨n, ys, hwrite, hread, heqs⟩ := writeEntries_embeds hyaml m.toList hkeys hm
  have hsorted : ys.Pairwise (fun e e' => e.1 < e'.1) := by
    have h : (ys.map Prod.fst).Pairwise (· < ·) := by
      rw [map_fst_eq heqs]
      exact List.pairwise_map.mpr m.sorted
    exact List.pairwise_map.mp h
  let m' : KeyedMap Str T := ⟨ys, hsorted⟩
  have hinsert : ys.foldl KeyedSet.insert .empty = m' := m'.foldl_insert
  refine ⟨n, m', hwrite, ?_, heqs⟩
  simp only [map, hread, ok_bind, pure_eq_ok]
  rw [hinsert]

theorem unorderedMap_embeds (m : HashedMap Str T) (hm : ∀ e ∈ m, Embeds yaml C e.2) :
    Embeds yaml (unorderedMap yaml C) m := by
  obtain ⟨n, ys, hwrite, hread, heqs⟩ := writeEntries_embeds hyaml m.toList m.nodup hm
  have hkeys : (ys.map Prod.fst).Nodup := by
    rw [map_fst_eq heqs]
    exact m.nodup
  refine ⟨n, ys.foldl HashedSet.insert .empty, hwrite, ?_, fun k => ?_⟩
  · simp only [unorderedMap, hread, ok_bind, pure_eq_ok]
  · rw [HashedMap.get?, HashedMap.get?, HashedSet.toList_foldl_insert hkeys]
    exact find?_related heqs k

end

/-! ### The round trip -/

section

variable {boost : Boost} {yaml : Yaml}
  (hprint : ∀ i, yaml.emit (.scalar (Decimal.print i)) = Decimal.print i)

include hprint

theorem integer_embeds {k : IntType} (hboost : boost.Lawful k) (x : k.Val) :
    Embeds yaml (integer boost k) x := by
  obtain ⟨hto, hfrom⟩ := hboost x
  refine ⟨.scalar (Decimal.print x.val), x, ?_, ?_, rfl⟩
  · rw [hprint]
    exact congrArg Except.ok hto
  · rw [hprint]
    exact hfrom

theorem cast_embeds (hyaml : yaml.Lawful) (t : Ty) (hboost : boost.Lawful t.base) (v : t.Val) :
    Embeds yaml (t.cast boost yaml) v := by
  induction t with
  | integer k => exact integer_embeds hprint hboost v
  | vector t ih => exact vector_embeds hyaml v fun x _ => ih hboost x
  | map t ih => exact map_embeds hyaml v fun e _ => ih hboost e.2
  | unorderedMap t ih => exact unorderedMap_embeds hyaml v fun e _ => ih hboost e.2

end

/-- Every value of every type built from integers by vectors and maps converts
to a text that converts back to it. -/
theorem cast_roundTrips (boost : Boost) (yaml : Yaml) (hyaml : yaml.Lawful)
    (hprint : ∀ i, yaml.emit (.scalar (Decimal.print i)) = Decimal.print i) (t : Ty)
    (hboost : boost.Lawful t.base) (v : t.Val) : (t.cast boost yaml).RoundTrips v :=
  (cast_embeds hprint hyaml t hboost v).roundTrips

/-- An empty map in a vector, beside one whose key needs quotes. -/
theorem cast_roundTrips_mixed :
    ((Ty.vector (.map (.integer .int))).cast .decimal YamlBlocks.yaml).RoundTrips
      [KeyedSet.empty, KeyedSet.empty.insert ("a: b".toList, ⟨-7, by decide⟩)] :=
  cast_roundTrips .decimal YamlBlocks.yaml YamlBlocks.yaml_lawful YamlBlocks.emit_print _
    (Boost.decimal_lawful _) _

end Mumu.NestedValues
