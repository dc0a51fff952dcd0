import Mumu.QuotedElements
import Mumu.StringElements

namespace Mumu.StringRoundTrips

open Mumu.LogLevels Mumu.KeyedSets Mumu.HashedSets Mumu.YamlNodes Mumu.LexcalCasts
open Mumu.NestedValues Mumu.QuotedElements Mumu.StringElements

/-! ### Texts as documents -/

section

variable {yaml : Yaml}

/-- A text that the emitter writes for some node. -/
def Emitted (yaml : Yaml) (s : Str) : Prop := ∃ n, yaml.emit n = s

theorem Emitted.embeds {s : Str} (h : Emitted yaml s) : Embeds yaml string s := by
  obtain ⟨n, rfl⟩ := h
  exact ⟨n, _, rfl, rfl, rfl⟩

/-- Whatever is read from a map was written by the emitter. -/
theorem readEntries_emitted {t : Str} {ys : List (Str × Str)}
    (h : readEntries yaml string t = .ok ys) : ∀ e ∈ ys, Emitted yaml e.2 := by
  obtain ⟨node, -, hnode⟩ := bind_eq_ok.mp h
  cases node with
  | map entries =>
    obtain rfl := Except.ok.inj ((mapM_readEntry entries).symm.trans hnode)
    intro e he
    obtain ⟨it, _, rfl⟩ := List.mem_map.mp he
    exact ⟨it.2, rfl⟩
  | seq items =>
    cases items with
    | nil =>
      obtain rfl := Except.ok.inj hnode
      exact fun e he => absurd he List.not_mem_nil
    | cons item items => cases hnode
  | null | scalar s =>
    obtain rfl := Except.ok.inj hnode
    exact fun e he => absurd he List.not_mem_nil

theorem find?_emitted {ys : List (Str × Str)} (hys : ∀ e ∈ ys, Emitted yaml e.2) {k s : Str}
    (h : (ys.find? (fun e => e.1 = k)).map Prod.snd = some s) : Emitted yaml s := by
  obtain ⟨e, he, rfl⟩ := Option.map_eq_some_iff.mp h
  exact hys e (List.mem_of_find?_eq_some he)

variable (hyaml : yaml.Lawful)

include hyaml

theorem vector_roundTrips_iff (v : List Str) :
    (vector yaml string).RoundTrips v ↔ ∀ s ∈ v, Emitted yaml s := by
  constructor
  · rintro ⟨t, y, hto, hfrom, heq⟩
    obtain rfl : y = v := by
      rw [← List.forall₂_eq_eq_eq]
      exact heq
    obtain ⟨nodes, -, hnodes⟩ := bind_eq_ok.mp hto
    obtain rfl := Except.ok.inj hnodes
    obtain rfl := Except.ok.inj ((readElements_seq hyaml nodes).symm.trans hfrom)
    intro s hs
    obtain ⟨n, _, hn⟩ := List.mem_map.mp hs
    exact ⟨n, hn⟩
  · intro h
    exact (vector_embeds hyaml v fun s hs => (h s hs).embeds).roundTrips

theorem map_roundTrips_iff (m : KeyedMap Str Str) :
    (map yaml string).RoundTrips m ↔ ∀ e ∈ m, Emitted yaml e.2 := by
  constructor
  · rintro ⟨t, y, -, hfrom, heq⟩ e he
    obtain rfl := (keyedMap_eq_iff y m).mp heq
    obtain ⟨ys, hys, rfl⟩ := MapCast.map.fromStr_eq_ok.mp hfrom
    have hget := KeyedMap.get?_eq_some.mpr he
    rw [KeyedMap.get?_foldl_insert_empty] at hget
    apply find?_emitted (readEntries_emitted hys) (k := e.1)
    convert hget
  · intro h
    exact (map_embeds hyaml m fun e he => (h e he).embeds).roundTrips

theorem unorderedMap_roundTrips_iff (m : HashedMap Str Str) :
    (unorderedMap yaml string).RoundTrips m ↔ ∀ e ∈ m, Emitted yaml e.2 := by
  constructor
  · rintro ⟨t, y, -, hfrom, heq⟩ e he
    obtain ⟨ys, hys, rfl⟩ := MapCast.unorderedMap.fromStr_eq_ok.mp hfrom
    have hget := ((hashedMap_eq_iff _ m).mp heq e.1).trans (HashedMap.get?_of_mem he)
    rw [HashedMap.get?_foldl_insert_empty] at hget
    exact find?_emitted (readEntries_emitted hys) hget
  · intro h
    exact (unorderedMap_embeds hyaml m fun e he => (h e he).embeds).roundTrips

end

/-- A vector or a map of strings converts to a text that converts back to it exactly
when the emitter could have written each of the strings. -/
theorem strings_roundTrip_iff (yaml : Yaml) (hyaml : yaml.Lawful) :
    (∀ v : List Str, (vector yaml string).RoundTrips v ↔ ∀ s ∈ v, ∃ n, yaml.emit n = s) ∧
    (∀ m : KeyedMap Str Str,
      (map yaml string).RoundTrips m ↔ ∀ e ∈ m, ∃ n, yaml.emit n = e.2) ∧
    ∀ m : HashedMap Str Str,
      (unorderedMap yaml string).RoundTrips m ↔ ∀ e ∈ m, ∃ n, yaml.emit n = e.2 :=
  ⟨vector_roundTrips_iff hyaml, map_roundTrips_iff hyaml, unorderedMap_roundTrips_iff hyaml⟩

theorem strings_roundTrip_words :
    (vector YamlBlocks.yaml string).RoundTrips ["a".toList, "7".toList] := by
  refine ((strings_roundTrip_iff YamlBlocks.yaml YamlBlocks.yaml_lawful).1 _).mpr fun s hs => ?_
  refine ⟨.scalar s, ?_⟩
  rw [YamlBlocks.emit_scalar]
  revert s
  decide

/-! ### A reader that takes comments for nothing -/

def isComment (l : Str) : Bool :=
  match l.dropWhile (fun c => c = ' ') with
  | [] => true
  | c :: _ => c = '#'

def isCommentText (t : Str) : Bool := (t.splitOn '\n').all isComment

def commented : Yaml :=
  { YamlBlocks.yaml with
    load := fun t =>
      match YamlBlocks.load t with
      | .ok node => .ok node
      | .error e => if isCommentText t then .ok .null else .error e }

theorem commented_lawful : commented.Lawful := by
  intro n
  have hload : YamlBlocks.load (YamlBlocks.emit n) = .ok n := YamlBlocks.yaml_lawful n
  change (match YamlBlocks.load (YamlBlocks.emit n) with
    | .ok node => Except.ok node
    | .error e => if isCommentText (YamlBlocks.emit n) then .ok .null else .error e) = .ok n
  rw [hload]

theorem isComment_cases {l : Str} (h : isComment l = true) :
    l = [] ∨ ∃ c l', l = c :: l' ∧ (c = ' ' ∨ c = '#') := by
  cases l with
  | nil => exact .inl rfl
  | cons c l' =>
    refine .inr ⟨c, l', rfl, ?_⟩
    by_cases hc : c = ' '
    · exact .inl hc
    · simpa [isComment, hc] using h

theorem readScalar_comment {c : Char} (hc : c = ' ' ∨ c = '#') (l : Str) :
    YamlScalars.readScalar (c :: l) = none := by
  obtain rfl | rfl := hc
  · rfl
  · rfl

/-- The block reader makes nothing but a null of a comment. -/
theorem parse_comment {l : Str} (h : isComment l = true) (fuel : Nat) (ls : List Str) (n : Node)
    (hn : YamlBlocks.parse fuel (l :: ls) = some n) : n = .null := by
  cases fuel with
  | zero => cases hn
  | succ fuel =>
    rw [YamlBlocks.parse] at hn
    obtain rfl | ⟨c, l, rfl, hc⟩ := isComment_cases h
    · rw [if_neg (by decide), if_neg (by decide)] at hn
      split at hn
      · exact (Option.some.inj hn).symm
      · cases hn
    · have hkey : YamlBlocks.readKey (c :: l) = none := by
        rw [YamlBlocks.readKey, readScalar_comment hc]
      have hmark : ∀ d, d ≠ ' ' → d ≠ '#' → ∀ mark, ¬ d :: mark <+: c :: l := by
        intro d hspace hhash mark hpre
        obtain rfl := (List.cons_prefix_cons.mp hpre).1
        exact hc.elim hspace hhash
      have hinline : YamlBlocks.inlineNode (c :: l) = none := by
        rw [YamlBlocks.inlineNode, readScalar_comment hc]
        obtain rfl | rfl := hc
        · simp
        · simp
      have hitem : ¬ "- ".toList <+: c :: l := hmark '-' (by decide) (by decide) _
      have hentry : ¬ ("? ".toList <+: c :: l ∨ (YamlBlocks.readKey (c :: l)).isSome) := by
        rw [hkey]
        exact not_or.mpr ⟨hmark '?' (by decide) (by decide) _, by decide⟩
      rw [if_neg hitem, if_neg hentry, hinline] at hn
      split at hn <;> cases hn

theorem commented_null (t : Str) (h : isCommentText t = true) : commented.load t = .ok .null := by
  have hload : YamlBlocks.load t = .ok .null ∨ ∃ e, YamlBlocks.load t = .error e := by
    rw [YamlBlocks.load]
    cases hn : YamlBlocks.parse (t.length + 1) (t.splitOn '\n') with
    | none => exact .inr ⟨_, rfl⟩
    | some n =>
      rw [isCommentText] at h
      cases hlines : t.splitOn '\n' with
      | nil => rw [hlines] at hn; cases hn
      | cons l ls =>
        rw [hlines] at hn h
        rw [parse_comment (List.all_eq_true.mp h l (by simp)) _ ls n hn]
        exact .inl rfl
  change (match YamlBlocks.load t with
    | .ok node => Except.ok node
    | .error e => if isCommentText t then .ok .null else .error e) = .ok .null
  obtain hnull | ⟨e, he⟩ := hload
  · rw [hnull]
  · rw [he]
    exact if_pos h

/-- An empty text becomes a null, which is not empty when it is written, and a brace
does not become anything. -/
theorem strings_roundTrip_empty :
    commented.Lawful ∧ (∀ t, isCommentText t = true → commented.load t = .ok .null) ∧
      ¬ (vector commented string).RoundTrips [[]] ∧
      (vector commented string).toStr ["\x7b".toList] = .error .parser := by
  refine ⟨commented_lawful, commented_null, fun h => ?_, ?_⟩
  · obtain ⟨t, y, hto, hfrom, heq⟩ := h
    obtain rfl := (Except.ok.inj hto : "- ~".toList = t)
    obtain rfl := (Except.ok.inj hfrom : ["~".toList] = y)
    cases heq with
    | cons hsame _ => exact List.cons_ne_nil _ _ hsame
  · rfl

end Mumu.StringRoundTrips
