import Mumu.YamlNodes
import Mumu.YamlScalars

namespace Mumu.YamlBlocks

open Mumu.LogLevels Mumu.YamlNodes Mumu.YamlScalars

/-! ### Writing -/

/-- Lines under a mark of two characters, the first line behind the mark. -/
def nest (mark : Str) : List Str → List Str
  | [] => []
  | l :: ls => (mark ++ l) :: ls.map ("  ".toList ++ ·)

def isInline : Node → Bool
  | .null => true
  | .scalar _ => true
  | .seq items => items.isEmpty
  | .map entries => entries.isEmpty

def inlineText : Node → Str
  | .null => "~".toList
  | .scalar s => scalarText s
  | .seq _ => "[]".toList
  | .map _ => "{}".toList

/-- An entry of a map: a scalar key stands in front of its value, any other key
gets a mark of its own. -/
def entryBlocks (key node : Node) (keyLines nodeLines : List Str) : List (List Str) :=
  match key with
  | .scalar s =>
    if isInline node then [[scalarText s ++ ": ".toList ++ inlineText node]]
    else [(scalarText s ++ ":".toList) :: nodeLines.map ("  ".toList ++ ·)]
  | _ => [nest "? ".toList keyLines, nest ": ".toList nodeLines]

mutual

def lines : Node → List Str
  | .null => [inlineText .null]
  | .scalar s => [inlineText (.scalar s)]
  | .seq items => if items.isEmpty then [inlineText (.seq items)] else (seqBlocks items).flatten
  | .map entries =>
    if entries.isEmpty then [inlineText (.map entries)] else (mapBlocks entries).flatten

def seqBlocks : List Node → List (List Str)
  | [] => []
  | node :: items => nest "- ".toList (lines node) :: seqBlocks items

def mapBlocks : List (Node × Node) → List (List Str)
  | [] => []
  | (key, node) :: entries => entryBlocks key node (lines key) (lines node) ++ mapBlocks entries

end

def emit (node : Node) : Str := ['\n'].intercalate (lines node)

/-! ### Reading -/

def indented (l : Str) : Bool := l.head? == some ' '

/-- Each line that is not indented, with the indented ones after it. -/
def groups : List Str → List (List Str)
  | [] => []
  | l :: ls =>
    match groups ls with
    | (l' :: g) :: gs => if indented l' then (l :: l' :: g) :: gs else [l] :: (l' :: g) :: gs
    | gs => [l] :: gs

def unnest (g : List Str) : List Str := g.map (List.drop 2)

def inlineNode (l : Str) : Option Node :=
  if l = [] ∨ l = "~".toList then some .null
  else if l = "[]".toList then some (.seq [])
  else if l = "{}".toList then some (.map [])
  else
    match readScalar l with
    | some (s, []) => some (.scalar s)
    | _ => none

/-- The key that a line begins with, and what comes after its colon. -/
def readKey (l : Str) : Option (Str × Str) :=
  match readScalar l with
  | some (s, ':' :: rest) => some (s, rest)
  | _ => none

def parseEntries (parse : List Str → Option Node) : List (List Str) → Option (List (Node × Node))
  | [] => some []
  | [] :: _ => none
  | (l :: ls) :: gs =>
    if "? ".toList <+: l then
      match gs with
      | [] => none
      | g :: gs => do
        let key ← parse (unnest (l :: ls))
        let node ← parse (unnest g)
        let entries ← parseEntries parse gs
        return (key, node) :: entries
    else do
      let (s, rest) ← readKey l
      let node ← if rest = [] then parse (unnest ls) else inlineNode (rest.drop 1)
      let entries ← parseEntries parse gs
      return (.scalar s, node) :: entries

def parse : Nat → List Str → Option Node
  | 0, _ => none
  | _, [] => none
  | fuel + 1, l :: ls =>
    if "- ".toList <+: l then
      ((groups (l :: ls)).mapM (fun g => parse fuel (unnest g))).map .seq
    else if "? ".toList <+: l ∨ (readKey l).isSome then
      (parseEntries (parse fuel) (groups (l :: ls))).map .map
    else if ls = [] then inlineNode l
    else none

def load (text : Str) : Except Exn Node :=
  match parse (text.length + 1) (text.splitOn '\n') with
  | some node => .ok node
  | none => .error .parser

/-! ### Blocks -/

/-- Lines that belong together because all but the first are indented. -/
def Block (g : List Str) : Prop :=
  ∃ l ls, g = l :: ls ∧ indented l = false ∧ ∀ l' ∈ ls, indented l' = true

theorem groups_append (l : Str) (ls rest : List Str) (hls : ∀ l' ∈ ls, indented l' = true)
    (hrest : ∀ l' ∈ rest.head?, indented l' = false) :
    groups (l :: ls ++ rest) = (l :: ls) :: groups rest := by
  induction ls generalizing l with
  | nil =>
    cases rest with
    | nil => rfl
    | cons r rest =>
      have hr := hrest r rfl
      have hhead : ∃ g gs, groups (r :: rest) = (r :: g) :: gs := by
        rw [groups]
        split
        · split
          · exact ⟨_, _, rfl⟩
          · exact ⟨_, _, rfl⟩
        · exact ⟨_, _, rfl⟩
      obtain ⟨g, gs, heq⟩ := hhead
      change groups (l :: r :: rest) = _
      rw [groups, heq]
      simp [hr]
  | cons l' ls ih =>
    have hl' := hls l' (by simp)
    change groups (l :: (l' :: ls ++ rest)) = _
    rw [groups, ih l' (fun x hx => hls x (by simp [hx]))]
    simp [hl']

theorem groups_flatten (gs : List (List Str)) (hgs : ∀ g ∈ gs, Block g) : groups gs.flatten = gs := by
  induction gs with
  | nil => rfl
  | cons g gs ih =>
    obtain ⟨l, ls, rfl, _, hls⟩ := hgs g (by simp)
    have hrest : ∀ l' ∈ gs.flatten.head?, indented l' = false := by
      cases gs with
      | nil => simp
      | cons g' gs =>
        obtain ⟨r, rs, rfl, hr, _⟩ := hgs g' (by simp)
        simpa using hr
    rw [List.flatten_cons, groups_append l ls _ hls hrest, ih (fun g hg => hgs g (by simp [hg]))]

theorem indented_indent (ls : List Str) : ∀ l ∈ ls.map ("  ".toList ++ ·), indented l = true := by
  intro l hl
  obtain ⟨l', _, rfl⟩ := List.mem_map.mp hl
  rfl

theorem unnest_indent (ls : List Str) : unnest (ls.map ("  ".toList ++ ·)) = ls := by
  rw [unnest, List.map_map]
  exact List.map_id' ls

theorem unnest_nest {mark : Str} (hmark : mark.length = 2) (ls : List Str) :
    unnest (nest mark ls) = ls := by
  cases ls with
  | nil => rfl
  | cons l ls =>
    have hrest := unnest_indent ls
    have hhead : (mark ++ l).drop 2 = l := by rw [← hmark, List.drop_left]
    simp only [unnest] at hrest
    simp only [nest, unnest, List.map_cons, hrest, hhead]

/-! ### First lines -/

theorem lines_ne_nil (node : Node) : lines node ≠ [] := by
  have nest_ne_nil : ∀ mark ls, ls ≠ [] → nest mark ls ≠ [] := by
    intro mark ls hls
    cases ls with
    | nil => exact absurd rfl hls
    | cons l ls => exact List.cons_ne_nil _ _
  cases node with
  | null => exact List.cons_ne_nil _ _
  | scalar s => exact List.cons_ne_nil _ _
  | seq items =>
    cases items with
    | nil => exact List.cons_ne_nil _ _
    | cons x items =>
      simp only [lines, List.isEmpty_cons, seqBlocks, List.flatten_cons]
      exact List.append_ne_nil_of_left_ne_nil (nest_ne_nil _ _ (lines_ne_nil x)) _
  | map entries =>
    cases entries with
    | nil => exact List.cons_ne_nil _ _
    | cons e entries =>
      obtain ⟨key, node⟩ := e
      simp only [lines, List.isEmpty_cons, mapBlocks, List.flatten_append]
      apply List.append_ne_nil_of_left_ne_nil
      unfold entryBlocks
      split
      · split <;> exact List.cons_ne_nil _ _
      · exact List.append_ne_nil_of_left_ne_nil (nest_ne_nil _ _ (lines_ne_nil key)) _

theorem block_nest {mark : Str} (hmark : indented mark = false) (hne : mark ≠ []) {ls : List Str}
    (hls : ls ≠ []) : Block (nest mark ls) := by
  obtain ⟨l, ls, rfl⟩ := List.exists_cons_of_ne_nil hls
  refine ⟨mark ++ l, _, rfl, ?_, indented_indent ls⟩
  cases mark with
  | nil => exact absurd rfl hne
  | cons c mark => exact hmark

/-- A scalar's text never begins like a mark. -/
theorem scalarText_head (s rest : Str) :
    indented (scalarText s ++ rest) = false ∧ ¬ "- ".toList <+: scalarText s ++ rest ∧
      ¬ "? ".toList <+: scalarText s ++ rest := by
  have of_head : ∀ (c : Char) (t : Str), c ≠ ' ' → c ≠ '-' → c ≠ '?' →
      indented (c :: t) = false ∧ ¬ "- ".toList <+: c :: t ∧ ¬ "? ".toList <+: c :: t := by
    intro c t h₁ h₂ h₃
    refine ⟨by simp [indented, h₁], fun h => ?_, fun h => ?_⟩
    · exact h₂ (List.cons_prefix_cons.mp h).1.symm
    · exact h₃ (List.cons_prefix_cons.mp h).1.symm
  have of_word : ∀ w, isWord w = true → ∃ c t, w = c :: t ∧ c ≠ ' ' ∧ c ≠ '-' ∧ c ≠ '?' := by
    intro w hw
    cases w with
    | nil => exact absurd hw (by decide)
    | cons c t =>
      have hc : c.isAlphanum = true := by
        simp only [isWord, Bool.and_eq_true] at hw
        exact hw.1
      refine ⟨c, t, rfl, ?_, ?_, ?_⟩ <;>
      · rintro rfl
        exact absurd hc (by decide)
  rw [scalarText]
  split
  · rename_i hplain
    obtain ⟨s', rfl, hw⟩ | hw := (isPlain_cases hplain).2
    · obtain ⟨c, t, rfl, hc, _, _⟩ := of_word s' hw
      refine ⟨rfl, fun h => ?_, fun h => ?_⟩
      · exact hc (List.cons_prefix_cons.mp (List.cons_prefix_cons.mp h).2).1.symm
      · exact absurd (List.cons_prefix_cons.mp h).1 (by decide)
    · obtain ⟨c, t, rfl, h₁, h₂, h₃⟩ := of_word s hw
      exact of_head c _ h₁ h₂ h₃
  · exact of_head '"' _ (by decide) (by decide) (by decide)

theorem readKey_scalarText (s rest : Str) : readKey (scalarText s ++ ':' :: rest) = some (s, rest) := by
  rw [readKey, readScalar_text s (':' :: rest) (by simp [isPlainChar, isWordChar])]
  rfl

theorem readKey_scalar (s : Str) : readKey (scalarText s) = none := by
  have h := readScalar_text s [] (by simp)
  rw [List.append_nil] at h
  rw [readKey, h]

theorem inlineNode_scalar (s : Str) : inlineNode (scalarText s) = some (.scalar s) := by
  have h := readScalar_text s [] (by simp)
  rw [List.append_nil] at h
  have hne : ∀ t, readScalar t = none → scalarText s ≠ t := by
    rintro t ht rfl
    rw [h] at ht
    cases ht
  rw [inlineNode]
  rw [if_neg (not_or.mpr ⟨hne _ (by decide), hne _ (by decide)⟩), if_neg (hne _ (by decide)),
    if_neg (hne _ (by decide)), h]

/-- A node on one line reads back, and its line is no item and no entry. -/
theorem inlineText_spec {node : Node} (h : isInline node = true) :
    inlineNode (inlineText node) = some node ∧ ¬ "- ".toList <+: inlineText node ∧
      ¬ "? ".toList <+: inlineText node ∧ readKey (inlineText node) = none := by
  cases node with
  | null => exact ⟨rfl, by decide, by decide, by decide⟩
  | scalar s =>
    have hhead := scalarText_head s []
    rw [List.append_nil] at hhead
    exact ⟨inlineNode_scalar s, hhead.2.1, hhead.2.2, readKey_scalar s⟩
  | seq items =>
    obtain rfl : items = [] := by simpa [isInline] using h
    exact ⟨rfl, by decide, by decide, by decide⟩
  | map entries =>
    obtain rfl : entries = [] := by simpa [isInline] using h
    exact ⟨rfl, by decide, by decide, by decide⟩

theorem lines_inline {node : Node} (h : isInline node = true) : lines node = [inlineText node] := by
  cases node with
  | null => rfl
  | scalar s => rfl
  | seq items => exact if_pos h
  | map entries => exact if_pos h

theorem block_entry (key node : Node) :
    ∀ g ∈ entryBlocks key node (lines key) (lines node), Block g := by
  unfold entryBlocks
  split
  · rename_i s
    split
    · intro g hg
      obtain rfl := List.mem_singleton.mp hg
      exact ⟨_, [], rfl, by rw [List.append_assoc]; exact (scalarText_head s _).1, by simp⟩
    · intro g hg
      obtain rfl := List.mem_singleton.mp hg
      exact ⟨_, _, rfl, (scalarText_head s _).1, indented_indent _⟩
  · intro g hg
    obtain rfl | hg := List.mem_cons.mp hg
    · exact block_nest rfl (by decide) (lines_ne_nil key)
    · obtain rfl := List.mem_singleton.mp hg
      exact block_nest rfl (by decide) (lines_ne_nil node)

theorem block_seq (items : List Node) : ∀ g ∈ seqBlocks items, Block g := by
  induction items with
  | nil => simp [seqBlocks]
  | cons node items ih =>
    intro g hg
    rw [seqBlocks] at hg
    obtain rfl | hg := List.mem_cons.mp hg
    · exact block_nest rfl (by decide) (lines_ne_nil node)
    · exact ih g hg

theorem block_map (entries : List (Node × Node)) : ∀ g ∈ mapBlocks entries, Block g := by
  induction entries with
  | nil => simp [mapBlocks]
  | cons e entries ih =>
    obtain ⟨key, node⟩ := e
    intro g hg
    rw [mapBlocks] at hg
    obtain hg | hg := List.mem_append.mp hg
    · exact block_entry key node g hg
    · exact ih g hg

/-! ### Reading what was written -/

def chars (ls : List Str) : Nat := (ls.map List.length).sum

theorem chars_append (ls ls' : List Str) : chars (ls ++ ls') = chars ls + chars ls' := by
  simp [chars]

theorem chars_indent (ls : List Str) : chars ls ≤ chars (ls.map ("  ".toList ++ ·)) := by
  induction ls with
  | nil => exact Nat.le_refl _
  | cons l ls ih =>
    simp only [chars, List.map_cons, List.sum_cons, List.length_append] at ih ⊢
    omega

theorem chars_nest {mark : Str} (hmark : mark.length = 2) {ls : List Str} (hls : ls ≠ []) :
    chars ls + 2 ≤ chars (nest mark ls) := by
  obtain ⟨l, ls, rfl⟩ := List.exists_cons_of_ne_nil hls
  have hrest := chars_indent ls
  simp only [chars, nest, List.map_cons, List.sum_cons, List.length_append, hmark] at hrest ⊢
  omega

/-- A map's first line is the first of an entry. -/
theorem entry_head (key node : Node) :
    ∃ l ls gs, entryBlocks key node (lines key) (lines node) = (l :: ls) :: gs ∧
      ¬ "- ".toList <+: l ∧ ("? ".toList <+: l ∨ (readKey l).isSome) := by
  unfold entryBlocks
  split
  · rename_i s
    split
    · refine ⟨_, _, _, rfl, ?_, .inr ?_⟩
      · rw [List.append_assoc]
        exact (scalarText_head s _).2.1
      · rw [List.append_assoc]
        exact Option.isSome_iff_exists.mpr ⟨_, readKey_scalarText s _⟩
    · exact ⟨_, _, _, rfl, (scalarText_head s _).2.1,
        .inr (Option.isSome_iff_exists.mpr ⟨_, readKey_scalarText s _⟩)⟩
  · obtain ⟨l, ls, hl⟩ := List.exists_cons_of_ne_nil (lines_ne_nil key)
    rw [hl]
    refine ⟨_, _, _, rfl, fun h => ?_, .inl (List.prefix_append _ _)⟩
    exact absurd (List.cons_prefix_cons.mp h).1 (by decide)

/-- Both parts of an entry are shorter than the entry. -/
theorem chars_entry (key node : Node) :
    chars (lines key) < chars (entryBlocks key node (lines key) (lines node)).flatten ∧
      chars (lines node) < chars (entryBlocks key node (lines key) (lines node)).flatten := by
  unfold entryBlocks
  split
  · rename_i s
    have hkey : lines (.scalar s) = [scalarText s] := rfl
    have hindent := chars_indent (lines node)
    rw [hkey]
    split
    · rename_i hinline
      rw [lines_inline hinline]
      simp [chars]
      omega
    · simp only [chars, List.flatten_singleton, List.map_cons, List.map_nil, List.sum_cons,
        List.sum_nil, List.length_append] at hindent ⊢
      have hcolon : ":".toList.length = 1 := rfl
      omega
  · have hkey : chars (lines key) + 2 ≤ chars (nest "? ".toList (lines key)) :=
      chars_nest rfl (lines_ne_nil key)
    have hnode : chars (lines node) + 2 ≤ chars (nest ": ".toList (lines node)) :=
      chars_nest rfl (lines_ne_nil node)
    simp only [List.flatten_cons, List.flatten_nil, List.append_nil, chars_append]
    omega

theorem parseEntries_key (read : List Str → Option Node) {l : Str} (ls : List Str)
    (gs : List (List Str)) (hl : ¬ "? ".toList <+: l) {s rest : Str}
    (hkey : readKey l = some (s, rest)) {node : Node} {entries : List (Node × Node)}
    (hnode : (if rest = [] then read (unnest ls) else inlineNode (rest.drop 1)) = some node)
    (hgs : parseEntries read gs = some entries) :
    parseEntries read ((l :: ls) :: gs) = some ((.scalar s, node) :: entries) := by
  rw [parseEntries.eq_def]
  dsimp only
  rw [if_neg hl, hkey, hgs]
  by_cases hrest : rest = []
  · rw [if_pos hrest] at hnode
    simp [hrest, hnode]
  · rw [if_neg hrest, List.drop_one] at hnode
    simp [hrest, hnode]

/-- The blocks of an entry, read in front of the others. -/
theorem parseEntries_entry (read : List Str → Option Node) (key node : Node)
    (hkey : read (lines key) = some key) (hnode : read (lines node) = some node)
    {gs : List (List Str)} {entries : List (Node × Node)}
    (hgs : parseEntries read gs = some entries) :
    parseEntries read (entryBlocks key node (lines key) (lines node) ++ gs) =
      some ((key, node) :: entries) := by
  unfold entryBlocks
  split
  · rename_i s
    split
    · rename_i hinline
      have hread := readKey_scalarText s (' ' :: inlineText node)
      rw [List.singleton_append, List.append_assoc]
      exact parseEntries_key read [] gs (scalarText_head s _).2.2 hread
        ((if_neg (List.cons_ne_nil _ _)).trans (inlineText_spec hinline).1) hgs
    · have hread := readKey_scalarText s []
      rw [List.singleton_append]
      exact parseEntries_key read _ gs (scalarText_head s _).2.2 hread
        ((if_pos rfl).trans (by rw [unnest_indent, hnode])) hgs
  · obtain ⟨l, ls, hl⟩ := List.exists_cons_of_ne_nil (lines_ne_nil key)
    have hunnest : unnest (nest "? ".toList (lines key)) = lines key := unnest_nest rfl _
    have hunnest' : unnest (nest ": ".toList (lines node)) = lines node := unnest_nest rfl _
    rw [hl, nest] at hunnest ⊢
    rw [hl] at hkey
    simp only [List.cons_append, List.nil_append]
    rw [parseEntries.eq_def]
    dsimp only
    rw [if_pos (List.prefix_append _ _), hunnest, hunnest', hkey, hnode, hgs]
    rfl

mutual

theorem parse_lines (node : Node) (fuel : Nat) (hfuel : chars (lines node) < fuel) :
    parse fuel (lines node) = some node := by
  cases fuel with
  | zero => exact absurd hfuel (Nat.not_lt_zero _)
  | succ fuel =>
    by_cases hinline : isInline node = true
    · obtain ⟨hread, hseq, hmap, hkey⟩ := inlineText_spec hinline
      have hentry : ¬ ("? ".toList <+: inlineText node ∨ (readKey (inlineText node)).isSome) := by
        rw [hkey]
        exact not_or.mpr ⟨hmap, by simp⟩
      rw [lines_inline hinline, parse, if_neg hseq, if_neg hentry, if_pos rfl, hread]
    · cases node with
      | null => exact absurd rfl hinline
      | scalar s => exact absurd rfl hinline
      | seq items =>
        have hlines : lines (.seq items) = (seqBlocks items).flatten := if_neg hinline
        have hitems := parse_items items fuel (by rw [← hlines]; omega)
        have hgroups := groups_flatten _ (block_seq items)
        rw [hlines]
        cases items with
        | nil => exact absurd rfl hinline
        | cons x items =>
          obtain ⟨l, ls, hl⟩ := List.exists_cons_of_ne_nil (lines_ne_nil x)
          have hhead : (seqBlocks (x :: items)).flatten =
              ("- ".toList ++ l) :: (ls.map ("  ".toList ++ ·) ++ (seqBlocks items).flatten) := by
            rw [seqBlocks, hl]
            rfl
          rw [hhead] at hgroups ⊢
          rw [parse, if_pos (List.prefix_append _ _), hgroups, hitems]
          rfl
      | map entries =>
        have hlines : lines (.map entries) = (mapBlocks entries).flatten := if_neg hinline
        have hentries := parse_entries entries fuel (by rw [← hlines]; omega)
        have hgroups := groups_flatten _ (block_map entries)
        rw [hlines]
        cases entries with
        | nil => exact absurd rfl hinline
        | cons e entries =>
          obtain ⟨key, node⟩ := e
          obtain ⟨l, ls, gs, hentry, hseq, hmap⟩ := entry_head key node
          have hhead : (mapBlocks ((key, node) :: entries)).flatten =
              l :: (ls ++ (gs ++ mapBlocks entries).flatten) := by
            rw [mapBlocks, hentry]
            rfl
          rw [hhead] at hgroups ⊢
          rw [parse, if_neg hseq, if_pos hmap, hgroups, hentries]
          rfl

theorem parse_items (items : List Node) (fuel : Nat)
    (hfuel : chars (seqBlocks items).flatten ≤ fuel) :
    (seqBlocks items).mapM (fun g => parse fuel (unnest g)) = some items := by
  match items with
  | [] => rfl
  | node :: items =>
    rw [seqBlocks, List.flatten_cons, chars_append] at hfuel
    have hnest : chars (lines node) + 2 ≤ chars (nest "- ".toList (lines node)) :=
      chars_nest rfl (lines_ne_nil node)
    rw [seqBlocks, List.mapM_cons, unnest_nest rfl, parse_lines node fuel (by omega),
      parse_items items fuel (by omega)]
    rfl

theorem parse_entries (entries : List (Node × Node)) (fuel : Nat)
    (hfuel : chars (mapBlocks entries).flatten ≤ fuel) :
    parseEntries (parse fuel) (mapBlocks entries) = some entries := by
  match entries with
  | [] => rfl
  | (key, node) :: entries =>
    rw [mapBlocks, List.flatten_append, chars_append] at hfuel
    obtain ⟨hkey, hnode⟩ := chars_entry key node
    rw [mapBlocks]
    apply parseEntries_entry
    · exact parse_lines key fuel (by omega)
    · exact parse_lines node fuel (by omega)
    · exact parse_entries entries fuel (by omega)

end

/-! ### Lines in a text -/

theorem newline_not_mem_nest {mark : Str} (hmark : '\n' ∉ mark) {ls : List Str}
    (hls : ∀ l ∈ ls, '\n' ∉ l) : ∀ l ∈ nest mark ls, '\n' ∉ l := by
  cases ls with
  | nil => simp [nest]
  | cons l ls =>
    intro l' hl'
    obtain rfl | hl' := List.mem_cons.mp hl'
    · simpa [hmark] using hls l (by simp)
    · obtain ⟨l'', hl'', rfl⟩ := List.mem_map.mp hl'
      simpa using hls l'' (by simp [hl''])

theorem newline_not_mem_inlineText (node : Node) : '\n' ∉ inlineText node := by
  cases node with
  | null => decide
  | scalar s => exact newline_not_mem_scalarText s
  | seq items =>
    change '\n' ∉ "[]".toList
    decide
  | map entries =>
    change '\n' ∉ "{}".toList
    decide

mutual

theorem newline_not_mem_lines (node : Node) : ∀ l ∈ lines node, '\n' ∉ l := by
  by_cases hinline : isInline node = true
  · rw [lines_inline hinline]
    intro l hl
    obtain rfl := List.mem_singleton.mp hl
    exact newline_not_mem_inlineText node
  · cases node with
    | null => exact absurd rfl hinline
    | scalar s => exact absurd rfl hinline
    | seq items =>
      rw [show lines (.seq items) = (seqBlocks items).flatten from if_neg hinline]
      exact newline_not_mem_seq items
    | map entries =>
      rw [show lines (.map entries) = (mapBlocks entries).flatten from if_neg hinline]
      exact newline_not_mem_map entries

theorem newline_not_mem_seq (items : List Node) : ∀ l ∈ (seqBlocks items).flatten, '\n' ∉ l := by
  match items with
  | [] => simp [seqBlocks]
  | node :: items =>
    intro l hl
    rw [seqBlocks, List.flatten_cons] at hl
    obtain hl | hl := List.mem_append.mp hl
    · exact newline_not_mem_nest (by decide) (newline_not_mem_lines node) l hl
    · exact newline_not_mem_seq items l hl

theorem newline_not_mem_map (entries : List (Node × Node)) :
    ∀ l ∈ (mapBlocks entries).flatten, '\n' ∉ l := by
  match entries with
  | [] => simp [mapBlocks]
  | (key, node) :: entries =>
    intro l hl
    rw [mapBlocks, List.flatten_append] at hl
    obtain hl | hl := List.mem_append.mp hl
    · have hkey := newline_not_mem_lines key
      have hnode := newline_not_mem_lines node
      unfold entryBlocks at hl
      split at hl
      · rename_i s
        split at hl
        · simp only [List.flatten_singleton, List.mem_singleton] at hl
          subst hl
          simp [newline_not_mem_scalarText, newline_not_mem_inlineText]
        · simp only [List.flatten_singleton, List.mem_cons, List.mem_map] at hl
          obtain rfl | ⟨l', hl', rfl⟩ := hl
          · simp [newline_not_mem_scalarText]
          · simpa using hnode l' hl'
      · simp only [List.flatten_cons, List.flatten_nil, List.append_nil, List.mem_append] at hl
        obtain hl | hl := hl
        · exact newline_not_mem_nest (by decide) hkey l hl
        · exact newline_not_mem_nest (by decide) hnode l hl
    · exact newline_not_mem_map entries l hl

end

theorem chars_le_intercalate (ls : List Str) : chars ls ≤ (['\n'].intercalate ls).length := by
  induction ls with
  | nil => exact Nat.le_refl _
  | cons l ls ih =>
    cases ls with
    | nil => simp [chars]
    | cons l' ls =>
      rw [List.intercalate_cons_cons]
      simp only [chars, List.map_cons, List.sum_cons, List.length_append] at ih ⊢
      omega

/-- Every document reads back from its text. -/
theorem load_emit (node : Node) : load (emit node) = .ok node := by
  have hsplit : (emit node).splitOn '\n' = lines node :=
    List.splitOn_intercalate _ (newline_not_mem_lines node) (lines_ne_nil node)
  have hchars : chars (lines node) ≤ (emit node).length := chars_le_intercalate (lines node)
  rw [load, hsplit, parse_lines node _ (Nat.lt_succ_of_le hchars)]

/-- The library as far as the program uses it. -/
def yaml : Yaml where
  load := load
  emit := emit
  keyIndex
    | .scalar s => Decimal.readNat s
    | _ => none
  asString
    | .scalar s => .ok s
    | _ => .error .badConversion

theorem yaml_lawful : yaml.Lawful := load_emit

theorem emit_scalar (s : Str) : yaml.emit (.scalar s) = scalarText s := by
  change ['\n'].intercalate [scalarText s] = _
  exact List.intercalate_singleton

theorem emit_print (i : Int) : yaml.emit (.scalar (Decimal.print i)) = Decimal.print i := by
  rw [emit_scalar, scalarText_print]

end Mumu.YamlBlocks
