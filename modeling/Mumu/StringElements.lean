import Mumu.ConfigLoading
import Mumu.NestedValues

namespace Mumu.StringElements

open Mumu.LogLevels Mumu.PointerHeap Mumu.KeyedSets Mumu.HashedSets Mumu.ConfigVars
open Mumu.YamlNodes Mumu.Config Mumu.LexcalCasts Mumu.ConfigLoading

/-! ### Texts that are changed one by one -/

/-- A function that leaves a text as it is or makes it longer. -/
def Grows (q : Str → Str) : Prop := ∀ s, q s = s ∨ s.length < (q s).length

variable {q : Str → Str}

/-- The emitter writes a scalar as it is or in a quoted form. -/
def Quotes (yaml : Yaml) : Prop := Grows (fun s => yaml.emit (.scalar s))

theorem map_eq_self_iff (ss : List Str) : ss.map q = ss ↔ ∀ s ∈ ss, q s = s := by
  rw [← List.forall₂_eq_eq_eq, List.forall₂_map_left_iff, List.forall₂_same]

/-- The texts stay the same as a set only if each of them does: the shortest that
changes could be no other's image. -/
theorem same_mem_iff (hq : Grows q) (ss : List Str) :
    (∀ a, a ∈ ss.map q ↔ a ∈ ss) ↔ ∀ s ∈ ss, q s = s := by
  constructor
  · intro h s
    induction hn : s.length using Nat.strong_induction_on generalizing s with
    | _ n ih =>
      intro hs
      obtain ⟨s', hs', hqs'⟩ := List.mem_map.mp ((h s).mpr hs)
      have hfixed : q s' = s' := by
        obtain hsame | hlonger := hq s'
        · exact hsame
        · exact ih s'.length (by rw [← hn, ← hqs']; exact hlonger) s' rfl hs'
      rw [← hqs', hfixed, hfixed]
  · intro h
    rw [(map_eq_self_iff ss).mpr h]
    exact fun a => Iff.rfl

/-- Only the first entry of each key counts. -/
theorem same_find_iff (es : List (Str × Str)) :
    (∀ k, ((es.map (fun e => (e.1, q e.2))).find? (fun e => e.1 = k)).map Prod.snd =
        (es.find? (fun e => e.1 = k)).map Prod.snd) ↔
      ∀ k e, es.find? (fun e => e.1 = k) = some e → q e.2 = e.2 := by
  have hfind : ∀ k, ((es.map (fun e => (e.1, q e.2))).find? (fun e => e.1 = k)).map Prod.snd =
      (es.find? (fun e => e.1 = k)).map (fun e => q e.2) := by
    intro k
    rw [List.find?_map, Option.map_map]
    rfl
  simp only [hfind]
  constructor
  · intro h k e he
    simpa [he] using h k
  · intro h k
    cases he : es.find? (fun e => e.1 = k) with
    | none => rfl
    | some e => simp [h k e he]

/-! ### Containers of texts -/

section

variable {yaml : Yaml} {S : Type} {D : LexcalCast S}

theorem option_rel_eq {α : Type} (a b : Option α) : Option.Rel Eq a b ↔ a = b := by
  constructor
  · intro h
    cases h with
    | some h => rw [h]
    | none => rfl
  · rintro rfl
    cases a with
    | some x => exact .some rfl
    | none => exact .none

theorem text_cast {copy : Str → S} (h : TextCast D copy) :
    (∀ s, D.fromStr s = .ok (copy s)) ∧ Equivalence D.eq := by
  cases h
  exact ⟨fun s => rfl, eq_equivalence⟩

theorem sequence_eq_iff (hq : Grows q) {collect : List Str → S}
    (h : SequenceCast yaml string D collect) (ss : List Str) :
    D.eq (collect (ss.map q)) (collect ss) ↔ ∀ s ∈ ss, q s = s := by
  cases h with
  | vector | list =>
    rw [← map_eq_self_iff, ← List.forall₂_eq_eq_eq]
    rfl
  | set =>
    have hmem : ∀ a, a ∈ ss.foldl KeyedSet.insert .empty ↔ a ∈ ss := fun a =>
      KeyedSets.mem_foldl_insert_empty ss
    rw [← same_mem_iff hq]
    simp only [← hmem]
    exact KeyedSets.foldl_insert_eq_iff _ _
  | unorderedSet =>
    rw [← same_mem_iff hq]
    exact forall_congr' fun a => iff_congr (HashedSets.mem_foldl_insert_empty _)
      (HashedSets.mem_foldl_insert_empty _)

theorem sequence_equivalence {collect : List Str → S} (h : SequenceCast yaml string D collect) :
    Equivalence D.eq := by
  cases h with
  | vector | list =>
    change Equivalence (List.Forall₂ Eq)
    rw [List.forall₂_eq_eq_eq]
    exact eq_equivalence
  | set => exact eq_equivalence
  | unorderedSet => exact ⟨fun _ _ => Iff.rfl, fun h a => (h a).symm, fun h h' a => (h a).trans (h' a)⟩

theorem keyedMap_eq_iff (m m' : KeyedMap Str Str) : (map yaml string).eq m m' ↔ m = m' := by
  have hentry : (fun e e' : Str × Str => e.1 = e'.1 ∧ string.eq e.2 e'.2) = Eq := by
    funext e e'
    exact propext Prod.ext_iff.symm
  change List.Forall₂ (fun e e' : Str × Str => e.1 = e'.1 ∧ string.eq e.2 e'.2) _ _ ↔ _
  rw [hentry, List.forall₂_eq_eq_eq, KeyedSet.ext_iff]

theorem hashedMap_eq_iff (m m' : HashedMap Str Str) :
    (unorderedMap yaml string).eq m m' ↔ ∀ k, m.get? k = m'.get? k :=
  forall_congr' fun _ => option_rel_eq _ _

theorem map_eq_iff {collect : List (Str × Str) → S} (h : MapCast yaml string D collect)
    (es : List (Str × Str)) :
    D.eq (collect (es.map (fun e => (e.1, q e.2)))) (collect es) ↔
      ∀ k e, es.find? (fun e => e.1 = k) = some e → q e.2 = e.2 := by
  rw [← same_find_iff]
  cases h with
  | map =>
    rw [keyedMap_eq_iff]
    constructor
    · intro h k
      have hk := congrArg (fun m => KeyedMap.get? m k) h
      simp only [KeyedMap.get?_foldl_insert_empty] at hk
      convert hk
    · intro h
      apply KeyedMap.ext_get?
      intro k
      simp only [KeyedMap.get?_foldl_insert_empty]
      convert h k
  | unorderedMap =>
    rw [hashedMap_eq_iff]
    simp only [HashedMap.get?_foldl_insert_empty]

theorem map_equivalence {collect : List (Str × Str) → S} (h : MapCast yaml string D collect) :
    Equivalence D.eq := by
  cases h with
  | map =>
    have heq : (map yaml string).eq = Eq := by
      funext m m'
      exact propext (keyedMap_eq_iff m m')
    rw [heq]
    exact eq_equivalence
  | unorderedMap =>
    have heq := @hashedMap_eq_iff yaml
    refine ⟨fun m => (heq m m).mpr fun _ => rfl, fun h => ?_, fun h h' => ?_⟩
    · exact (heq _ _).mpr fun k => ((heq _ _).mp h k).symm
    · exact (heq _ _).mpr fun k => ((heq _ _).mp h k).trans ((heq _ _).mp h' k)

end

/-! ### Loading the last node of a name -/

theorem length_lt_join {pre : Str} (hpre : pre ≠ []) (key : Str) :
    pre.length < (join pre key).length := by
  rw [join, if_neg hpre, List.length_append, List.length_cons]
  omega

mutual

theorem length_le_of_mem (pre : Str) (node : Node) :
    ∀ i ∈ listAllMember pre node, pre.length ≤ i.1.length := by
  intro i hi
  rw [listAllMember.eq_def] at hi
  split at hi
  · obtain rfl | hi := List.mem_cons.mp hi
    · exact Nat.le_refl _
    · cases node with
      | map entries =>
        by_cases hpre : pre = []
        · rw [hpre]
          exact Nat.zero_le _
        · exact (length_lt_of_mem pre hpre entries i hi).le
      | _ => exact absurd hi List.not_mem_nil
  · exact absurd hi List.not_mem_nil

theorem length_lt_of_mem (pre : Str) (hpre : pre ≠ []) (entries : List (Node × Node)) :
    ∀ i ∈ listEntries pre entries, pre.length < i.1.length := by
  intro i hi
  match entries with
  | [] => exact absurd hi List.not_mem_nil
  | (key, node) :: entries =>
    rw [listEntries] at hi
    obtain hi | hi := List.mem_append.mp hi
    · exact (length_lt_join hpre key.scalarText).trans_le (length_le_of_mem _ node i hi)
    · exact length_lt_of_mem pre hpre entries i hi

end

/-- A node under a single key is the only one of its name. -/
theorem filter_listAllMember_single {n : Str} (hn : n ≠ []) (hvalid : validName n = true)
    (node : Node) :
    (listAllMember [] (.map [(.scalar n, node)])).filter (fun i => i.1 = n) = [(n, node)] := by
  have hroot : listAllMember [] (.map [(.scalar n, node)]) =
      ([], .map [(.scalar n, node)]) :: listAllMember n node := by
    simp [listAllMember, listEntries, join, validName, Node.scalarText]
  have hbelow : ∀ entries, (listEntries n entries).filter (fun i => i.1 = n) = [] := by
    refine fun entries => List.filter_eq_nil_iff.mpr fun i hi => ?_
    have hlt := length_lt_of_mem n hn entries i hi
    simpa using fun h : i.1 = n => absurd hlt (by rw [h]; exact lt_irrefl _)
  rw [hroot, List.filter_cons_of_neg (by simpa using hn.symm), listAllMember.eq_def, if_pos hvalid,
    List.filter_cons_of_pos (by simp)]
  cases node with
  | map entries => rw [hbelow]
  | _ => rfl

section

variable {τ : Type} {Val : τ → Type} [∀ t, BEq (Val t)] (yaml : Yaml)
  (fromStr : ∀ t, Str → Except Exn (Val t))

/-- Whichever document has the node as the last one of a variable's name, it leaves
the variable with the value. -/
def LoadsAs (t : τ) (eq : Val t → Val t → Prop) (node : Node) (x : Val t) : Prop :=
  ∀ (σ : Type) (st : State σ Exn Val) (root : Node) (n : Str) (p : Ptr)
    (var : ConfigVar σ Exn (Val t)), n ≠ [] → Registered st n p t var →
    ((listAllMember [] root).filter (fun i => i.1 = n)).getLast? = some (n, node) →
    ∃ var', (loadFromYaml yaml fromStr st root).registry.vars.get? p = some ⟨t, var'⟩ ∧
      eq var'.val x

variable {fromStr} {t : τ} {node : Node} {y : Val t}

omit [∀ t, BEq (Val t)] in
theorem conversions_last (hy : fromStr t (nodeText yaml node) = .ok y) {n : Str} (hn : n ≠ [])
    {nodes : List (Str × Node)}
    (hlast : (nodes.filter (fun i => i.1 = n)).getLast? = some (n, node)) :
    ∃ xs, conversions yaml (fromStr t) n nodes = xs ++ [y] := by
  obtain ⟨before, hsplit⟩ := List.getLast?_eq_some_iff.mp hlast
  have hconv : conversions yaml (fromStr t) n nodes =
      (nodes.filter (fun i => i.1 = n)).filterMap
        (fun i => (fromStr t (nodeText yaml i.2)).toOption) := by
    rw [conversions, List.filterMap_filter]
    apply List.filterMap_congr
    intro i _
    by_cases hi : i.1 = n <;> simp [hi, hn]
  refine ⟨before.filterMap (fun i => (fromStr t (nodeText yaml i.2)).toOption), ?_⟩
  rw [hconv, hsplit, List.filterMap_append, List.filterMap_cons, hy]
  rfl

variable {eq : Val t → Val t → Prop} (hequiv : Equivalence eq)
  (heq : ∀ a b, (a == b) = true ↔ eq a b)

include hequiv heq

/-- What is stored is equal to the value that came last. -/
theorem loaded_last (hy : fromStr t (nodeText yaml node) = .ok y) {σ : Type}
    {st : State σ Exn Val} {root : Node} {n : Str} {p : Ptr} {var : ConfigVar σ Exn (Val t)}
    (hn : n ≠ []) (h : Registered st n p t var)
    (hlast : ((listAllMember [] root).filter (fun i => i.1 = n)).getLast? = some (n, node)) :
    ∃ var', (loadFromYaml yaml fromStr st root).registry.vars.get? p = some ⟨t, var'⟩ ∧
      eq var'.val y := by
  obtain ⟨xs, hxs⟩ := conversions_last yaml hy hn hlast
  have hload := loadNodes_stored yaml fromStr (listAllMember [] root)
    (fun i => validName_of_mem) h
  refine ⟨_, hload.stored, ?_⟩
  rw [hxs, stored, List.foldl_append, List.foldl_cons, List.foldl_nil]
  generalize xs.foldl store var.val = old
  rw [store]
  split
  · rename_i hsame
    exact hequiv.symm ((heq y old).mp hsame)
  · exact hequiv.refl y

theorem loadsAs_iff (hy : fromStr t (nodeText yaml node) = .ok y) (x : Val t) :
    LoadsAs yaml fromStr t eq node x ↔ eq y x := by
  constructor
  · intro h
    let st : State Unit Exn Val :=
      ⟨Registry.empty.add "a".toList ⟨t, "a".toList, [], x, .empty⟩ rfl, (), []⟩
    have hreg : Registered st "a".toList 0 t ⟨"a".toList, [], x, .empty⟩ :=
      ⟨rfl, rfl, fun e he => absurd he List.not_mem_nil⟩
    have hlast : ((listAllMember [] (.map [(.scalar "a".toList, node)])).filter
        (fun i => i.1 = "a".toList)).getLast? = some ("a".toList, node) := by
      rw [filter_listAllMember_single (by decide) (by decide)]
      rfl
    obtain ⟨var, hvar, hx⟩ := h Unit st _ _ 0 _ (by decide) hreg hlast
    obtain ⟨var', hvar', hy'⟩ := loaded_last yaml hequiv heq hy (by decide) hreg hlast
    rw [hvar, Option.some.injEq] at hvar'
    cases hvar'
    exact hequiv.trans (hequiv.symm hy') hx
  · intro hyx σ st root n p var hn h hlast
    obtain ⟨var', hvar', hy'⟩ := loaded_last yaml hequiv heq hy hn h hlast
    exact ⟨var', hvar', hequiv.trans hy' hyx⟩

end

/-! ### The texts of the elements -/

section

variable {yaml : Yaml}

theorem mapM_readEntry (entries : List (Node × Node)) :
    entries.mapM (readEntry yaml string) =
      .ok (entries.map (fun it => (it.1.scalarText, yaml.emit it.2))) :=
  List.mapM_pure (m := Except Exn) (f := fun it : Node × Node => (it.1.scalarText, yaml.emit it.2))

variable (hyaml : yaml.Lawful)

include hyaml

theorem readElements_seq (items : List Node) :
    readElements yaml string (yaml.emit (.seq items)) = .ok (items.map yaml.emit) := by
  rw [readElements, hyaml, ok_bind, Node.elementTexts_seq]
  exact (List.mapM_pure (m := Except Exn) (f := id)).trans (by rw [List.map_id]; rfl)

theorem readEntries_map (entries : List (Node × Node)) :
    readEntries yaml string (yaml.emit (.map entries)) =
      .ok (entries.map (fun it => (it.1.scalarText, yaml.emit it.2))) := by
  rw [readEntries, hyaml, ok_bind]
  exact mapM_readEntry entries

end

/-- A text reaches a variable as it is; as an element or an entry of a container it
does so exactly when the emitter needs no quotes for it. -/
theorem strings_load_iff (yaml : Yaml) (hyaml : yaml.Lawful) (hquotes : Quotes yaml) {τ : Type}
    {Val : τ → Type} [∀ t, BEq (Val t)] (fromStr : ∀ t, Str → Except Exn (Val t)) (t : τ)
    (D : LexcalCast (Val t)) (hfrom : fromStr t = D.fromStr)
    (heq : ∀ a b, (a == b) = true ↔ D.eq a b) :
    (∀ copy, TextCast D copy → ∀ s, LoadsAs yaml fromStr t D.eq (.scalar s) (copy s)) ∧
    (∀ collect, SequenceCast yaml string D collect → ∀ ss : List Str,
      (LoadsAs yaml fromStr t D.eq (.seq (ss.map .scalar)) (collect ss) ↔
        ∀ s ∈ ss, yaml.emit (.scalar s) = s)) ∧
    ∀ collect, MapCast yaml string D collect → ∀ es : List (Str × Str),
      (LoadsAs yaml fromStr t D.eq (.map (es.map (fun e => (.scalar e.1, .scalar e.2))))
          (collect es) ↔
        ∀ k e, es.find? (fun e => e.1 = k) = some e → yaml.emit (.scalar e.2) = e.2) := by
  refine ⟨fun copy hcast s => ?_, fun collect hcast ss => ?_, fun collect hcast es => ?_⟩
  · obtain ⟨hcopy, hequiv⟩ := text_cast hcast
    have hy : fromStr t (nodeText yaml (.scalar s)) = .ok (copy s) := by
      rw [hfrom]
      exact hcopy s
    rw [loadsAs_iff yaml hequiv heq hy]
    exact hequiv.refl _
  · have hy : fromStr t (nodeText yaml (.seq (ss.map .scalar))) =
        .ok (collect (ss.map (fun s => yaml.emit (.scalar s)))) := by
      rw [hfrom, hcast.fromStr_eq]
      change (readElements yaml string (yaml.emit _) >>= _) = _
      rw [readElements_seq hyaml, List.map_map]
      rfl
    rw [loadsAs_iff yaml (sequence_equivalence hcast) heq hy]
    exact sequence_eq_iff hquotes hcast ss
  · have hy : fromStr t (nodeText yaml (.map (es.map (fun e => (.scalar e.1, .scalar e.2))))) =
        .ok (collect (es.map (fun e => (e.1, yaml.emit (.scalar e.2))))) := by
      rw [hfrom, hcast.fromStr_eq]
      change (readEntries yaml string (yaml.emit _) >>= _) = _
      rw [readEntries_map hyaml, List.map_map]
      rfl
    rw [loadsAs_iff yaml (map_equivalence hcast) heq hy]
    exact map_eq_iff (q := fun s => yaml.emit (.scalar s)) hcast es

theorem blocks_quotes : Quotes YamlBlocks.yaml := fun s => by
  simp only [YamlBlocks.emit_scalar]
  exact YamlScalars.scalarText_self_or_longer s

theorem vector_beq_iff (a b : List Str) :
    (a == b) = true ↔ (vector YamlBlocks.yaml string).eq a b := by
  change _ ↔ List.Forall₂ Eq a b
  rw [List.forall₂_eq_eq_eq, beq_iff_eq]

theorem strings_load_words :
    LoadsAs YamlBlocks.yaml (fun _ : Unit => (vector YamlBlocks.yaml string).fromStr) ()
      (vector YamlBlocks.yaml string).eq (.seq [.scalar "a".toList, .scalar "7".toList])
      ["a".toList, "7".toList] :=
  ((strings_load_iff YamlBlocks.yaml YamlBlocks.yaml_lawful blocks_quotes
    (fun _ : Unit => (vector YamlBlocks.yaml string).fromStr) () _ rfl vector_beq_iff).2.1 id .vector
      ["a".toList, "7".toList]).mpr (by decide)

/-- A text with a colon arrives with quotes around it. -/
theorem strings_load_quoted :
    let fromStr := fun _ : Unit => (vector YamlBlocks.yaml string).fromStr
    YamlBlocks.yaml.Lawful ∧ Quotes YamlBlocks.yaml ∧
      fromStr () (nodeText YamlBlocks.yaml (.seq [.scalar "a: b".toList])) =
        .ok ["\"a: b\"".toList] ∧
      ¬ LoadsAs YamlBlocks.yaml fromStr () (vector YamlBlocks.yaml string).eq
        (.seq [.scalar "a: b".toList]) ["a: b".toList] := by
  intro fromStr
  have hconv : fromStr () (nodeText YamlBlocks.yaml (.seq [.scalar "a: b".toList])) =
      .ok ["\"a: b\"".toList] :=
    readElements_seq YamlBlocks.yaml_lawful [.scalar "a: b".toList]
  refine ⟨YamlBlocks.yaml_lawful, blocks_quotes, hconv, fun h => ?_⟩
  have hsame := (loadsAs_iff YamlBlocks.yaml (sequence_equivalence .vector) vector_beq_iff hconv
    _).mp h
  exact absurd ((vector_beq_iff _ _).mpr hsame) (by decide)

end Mumu.StringElements
