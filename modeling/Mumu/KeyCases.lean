import Mumu.ConfigLoading
import Mumu.ConfigRegistry

namespace Mumu.KeyCases

open Mumu.LogLevels Mumu.PointerHeap Mumu.KeyedSets Mumu.ConfigVars Mumu.YamlNodes Mumu.Config
open Mumu.LexcalCasts Mumu.ConfigLoading

/-! ### Documents in lower case -/

mutual

/-- Lower-case all keys of all maps in a document. -/
def lowerKeys : Node → Node
  | .null => .null
  | .scalar s => .scalar s
  | .seq items => .seq (lowerItems items)
  | .map entries => .map (lowerEntries entries)

def lowerItems : List Node → List Node
  | [] => []
  | item :: items => lowerKeys item :: lowerItems items

def lowerEntries : List (Node × Node) → List (Node × Node)
  | [] => []
  | (key, node) :: entries => (lowerKey key, lowerKeys node) :: lowerEntries entries

def lowerKey : Node → Node
  | .null => .null
  | .scalar s => .scalar (s.map Char.toLower)
  | .seq items => .seq (lowerItems items)
  | .map entries => .map (lowerEntries entries)

end

def lowerPath (path : List Str) : List Str := path.map (fun key => key.map Char.toLower)

theorem scalarText_lowerKey (key : Node) :
    (lowerKey key).scalarText = key.scalarText.map Char.toLower := by
  cases key <;> simp [lowerKey, Node.scalarText]

mutual

theorem preorder_lowerKeys (path : List Str) (node : Node) :
    preorder (lowerPath path) (lowerKeys node) =
      (preorder path node).map (fun e => (lowerPath e.1, lowerKeys e.2)) := by
  cases node with
  | map entries =>
    rw [lowerKeys, preorder.eq_def, preorder.eq_def path]
    simp only [preorderEntries_lowerEntries path entries, List.map_cons, lowerKeys]
  | null | scalar s | seq items => simp [lowerKeys, preorder]

theorem preorderEntries_lowerEntries (path : List Str) (entries : List (Node × Node)) :
    preorderEntries (lowerPath path) (lowerEntries entries) =
      (preorderEntries path entries).map (fun e => (lowerPath e.1, lowerKeys e.2)) := by
  match entries with
  | [] => simp [lowerEntries, preorderEntries]
  | (key, node) :: entries =>
    have hpath : lowerPath path ++ [key.scalarText.map Char.toLower] =
        lowerPath (path ++ [key.scalarText]) := by
      simp [lowerPath]
    rw [lowerEntries, preorderEntries, preorderEntries, scalarText_lowerKey, hpath,
      preorder_lowerKeys _ node, preorderEntries_lowerEntries path entries, List.map_append]

end

/-! ### Names in lower case -/

theorem mem_join (pre key : Str) : ∀ c ∈ key, c ∈ join pre key := by
  intro c hc
  rw [join]
  split
  · exact hc
  · simp [hc]

/-- The keys on the way to a name that is valid are in lower case. -/
theorem lowerPath_of_valid {path : List Str} (h : ValidPath path) : lowerPath path = path := by
  induction path using List.reverseRecOn with
  | nil => rfl
  | append_singleton path key ih =>
    have hpath : ValidPath path := fun q hq => h q (hq.trans (List.prefix_append path [key]))
    have hname : validName (nameOf (path ++ [key])) = true := h _ List.prefix_rfl
    have hkey : validName key = true := by
      rw [nameOf_concat] at hname
      exact List.all_eq_true.mpr fun c hc =>
        List.all_eq_true.mp hname c (mem_join (nameOf path) key c hc)
    have hsplit : lowerPath (path ++ [key]) = lowerPath path ++ [key.map Char.toLower] := by
      simp [lowerPath]
    rw [hsplit, ih hpath, map_toLower hkey]

/-! ### The texts that a document gives -/

section

variable (yaml : Yaml)

/-- The name and the text of a node, if its name is one. -/
def given (e : List Str × Node) : Option (Str × Str) :=
  if ValidPath e.1 ∧ nameOf e.1 ≠ [] then some (nameOf e.1, nodeText yaml e.2) else none

def lowered (e : List Str × Node) : List Str × Node := (lowerPath e.1, lowerKeys e.2)

variable {σ ε τ : Type} {Val : τ → Type} [∀ t, BEq (Val t)]
  (fromStr : ∀ t, Str → Except ε (Val t))

def giveText (st : State σ ε Val) (i : Str × Str) : State σ ε Val :=
  match st.registry.lookupBase i.1 with
  | none => st
  | some p => st.assign fromStr p i.2

theorem loadNode_given {e : List Str × Node} (he : ValidPath e.1) (st : State σ ε Val) :
    loadNode yaml fromStr st (nameOf e.1, e.2) =
      (given yaml e).toList.foldl (giveText fromStr) st := by
  have hlower : (nameOf e.1).map Char.toLower = nameOf e.1 := map_toLower (he e.1 List.prefix_rfl)
  rw [loadNode, given, hlower]
  by_cases hnil : nameOf e.1 = []
  · rw [if_pos hnil, if_neg (fun h => h.2 hnil)]
    rfl
  · rw [if_neg hnil, if_pos ⟨he, hnil⟩]
    rfl

/-- Loading hands out the texts in the order of the document. -/
theorem loadFromYaml_eq (st : State σ ε Val) (root : Node) :
    loadFromYaml yaml fromStr st root =
      ((preorder [] root).filterMap (given yaml)).foldl (giveText fromStr) st := by
  rw [loadFromYaml, listAllMember_root, named]
  generalize preorder [] root = nodes
  induction nodes generalizing st with
  | nil => rfl
  | cons e nodes ih =>
    by_cases he : ValidPath e.1
    · rw [List.filter_cons_of_pos (by simpa using he), List.map_cons, List.foldl_cons,
        loadNode_given yaml fromStr he, ih]
      cases hgiven : given yaml e with
      | none => rw [List.filterMap_cons_none hgiven]; rfl
      | some i => rw [List.filterMap_cons_some hgiven]; rfl
    · have hnone : given yaml e = none := if_neg fun h => he h.1
      rw [List.filter_cons_of_neg (by simpa using he), ih, List.filterMap_cons_none hnone]

end

/-! ### Documents that lower case changes nothing of -/

/-- No key on the way to, or inside, a node whose name in lower case is valid has
a letter in upper case. -/
def LowerCase (root : Node) : Prop :=
  ∀ e ∈ preorder [] root, ValidPath (lowerPath e.1) → nameOf (lowerPath e.1) ≠ [] →
    lowerPath e.1 = e.1 ∧ lowerKeys e.2 = e.2

theorem nodeText_lowerKeys {yaml : Yaml} (hyaml : yaml.Lawful) (node : Node) :
    nodeText yaml (lowerKeys node) = nodeText yaml node ↔ lowerKeys node = node := by
  refine ⟨fun h => ?_, fun h => by rw [h]⟩
  have hemit : yaml.emit (lowerKeys node) = yaml.emit node → lowerKeys node = node := fun heq =>
    Except.ok.inj ((hyaml _).symm.trans (heq ▸ hyaml node))
  cases node with
  | null | scalar s => simp [lowerKeys]
  | seq items | map entries => exact hemit (by simpa [nodeText, lowerKeys, Node.isScalar] using h)

variable {yaml : Yaml}

/-- A node that is found is found in lower case too, under the same name. -/
theorem given_lowered_some {e : List Str × Node} {i : Str × Str} (h : given yaml e = some i) :
    given yaml (lowered e) = some (i.1, nodeText yaml (lowerKeys e.2)) := by
  rw [given] at h
  split at h
  · rename_i hvalid
    obtain rfl := Option.some.inj h
    have hpath := lowerPath_of_valid hvalid.1
    rw [given, lowered]
    dsimp only
    rw [hpath, if_pos hvalid]
  · cases h

theorem given_lowered_iff (hyaml : yaml.Lawful) (e : List Str × Node) :
    given yaml (lowered e) = given yaml e ↔
      (ValidPath (lowerPath e.1) → nameOf (lowerPath e.1) ≠ [] →
        lowerPath e.1 = e.1 ∧ lowerKeys e.2 = e.2) := by
  constructor
  · intro h hvalid hne
    have hlow : given yaml (lowered e) =
        some (nameOf (lowerPath e.1), nodeText yaml (lowerKeys e.2)) := if_pos ⟨hvalid, hne⟩
    rw [hlow] at h
    have hgiven := h.symm
    rw [given] at hgiven
    split at hgiven
    · rename_i hpath
      have htext := (Prod.mk.inj (Option.some.inj hgiven)).2
      exact ⟨lowerPath_of_valid hpath.1, (nodeText_lowerKeys hyaml _).mp htext.symm⟩
    · cases hgiven
  · intro h
    by_cases hvalid : ValidPath (lowerPath e.1) ∧ nameOf (lowerPath e.1) ≠ []
    · obtain ⟨hpath, hnode⟩ := h hvalid.1 hvalid.2
      rw [lowered, hpath, hnode]
    · have hlow : given yaml (lowered e) = none := if_neg hvalid
      cases hgiven : given yaml e with
      | none => exact hlow
      | some i => rw [given_lowered_some hgiven] at hlow; cases hlow

theorem lowerCase_iff (hyaml : yaml.Lawful) (root : Node) :
    LowerCase root ↔ ∀ e ∈ preorder [] root, given yaml (lowered e) = given yaml e := by
  simp only [LowerCase, given_lowered_iff hyaml]

theorem filterMap_given_lowerKeys (root : Node) :
    (preorder [] (lowerKeys root)).filterMap (given yaml) =
      (preorder [] root).filterMap (fun e => given yaml (lowered e)) := by
  have h := preorder_lowerKeys [] root
  rw [show lowerPath [] = [] from rfl] at h
  rw [h, List.filterMap_map]
  rfl

/-! ### Effects on variables -/

/-- What happened to a variable is the same: what it holds, and the calls of its
listeners. -/
structure SameEffect {σ ε τ : Type} {Val : τ → Type} (p : Ptr) (st st' : State σ ε Val) :
    Prop where
  stored : st.registry.vars.get? p = st'.registry.vars.get? p
  told : st.changes.filter (fun c => c.var = p) = st'.changes.filter (fun c => c.var = p)

/-- In no registry does it matter to a variable in what case the keys of a
document are. -/
def CaseInsensitive (yaml : Yaml) (root : Node) : Prop :=
  ∀ (σ ε τ : Type) (Val : τ → Type) [∀ t, BEq (Val t)] (fromStr : ∀ t, Str → Except ε (Val t))
    (st : State σ ε Val) (n : Str) (p : Ptr), st.registry.lookupBase n = some p →
      SameEffect p (loadFromYaml yaml fromStr st root)
        (loadFromYaml yaml fromStr st (lowerKeys root))

theorem LowerCase.insensitive (hyaml : yaml.Lawful) {root : Node} (h : LowerCase root) :
    CaseInsensitive yaml root := by
  intro σ ε τ Val _ fromStr st n p _
  have hsame : (preorder [] root).filterMap (fun e => given yaml (lowered e)) =
      (preorder [] root).filterMap (given yaml) :=
    List.filterMap_congr ((lowerCase_iff hyaml root).mp h)
  rw [loadFromYaml_eq, loadFromYaml_eq, filterMap_given_lowerKeys, hsame]
  exact ⟨rfl, rfl⟩

/-! ### A variable that records its texts -/

/-- A text that is never equal to another, so that each one is stored. -/
structure Note where
  text : Str

instance : BEq Note := ⟨fun _ _ => false⟩

def listening : KeyedMap Nat (Listener Unit Unit Note) :=
  KeyedSet.insert .empty (1, fun _ _ s => (.ok (), s))

def toNote (_ : Unit) (text : Str) : Except Unit Note := .ok ⟨text⟩

/-- A registry of one variable, and the texts that its listener has been told. -/
structure Records (n : Str) (st : State Unit Unit (fun _ : Unit => Note)) (texts : List Str) :
    Prop where
  bound : ∀ m, st.registry.lookupBase m = if n = m then some 0 else none
  stored : ∃ note, st.registry.vars.get? 0 = some ⟨(), ⟨n, [], note, listening⟩⟩
  told : (st.changes.filter (fun c => c.var = 0)).map (fun c => c.call.newValue.text) = texts

def recorder (n : Str) : State Unit Unit (fun _ : Unit => Note) :=
  ⟨Registry.empty.add n ⟨(), n, [], ⟨[]⟩, listening⟩ rfl, (), []⟩

theorem recorder_records (n : Str) : Records n (recorder n) [] where
  bound m := ConfigRegistry.lookupBase_add rfl _ m
  stored := ⟨⟨[]⟩, rfl⟩
  told := rfl

theorem giveText_records {n : Str} {st : State Unit Unit (fun _ : Unit => Note)}
    {texts : List Str} (h : Records n st texts) (i : Str × Str) :
    Records n (giveText toNote st i) (texts ++ if i.1 = n then [i.2] else []) := by
  by_cases hin : i.1 = n
  · obtain ⟨note, hnote⟩ := h.stored
    have hgive : giveText toNote st i =
        ⟨st.registry.put 0 ⟨(), ⟨n, [], ⟨i.2⟩, listening⟩⟩, st.surroundings,
          st.changes ++ [⟨0, (), ⟨1, note, ⟨i.2⟩⟩⟩]⟩ := by
      rw [giveText, h.bound, if_pos hin.symm]
      dsimp only
      rw [State.assign, hnote]
      rfl
    rw [hgive, if_pos hin]
    refine ⟨h.bound, ⟨⟨i.2⟩, ?_⟩, ?_⟩
    · exact (Heap.get?_modify_self _ _ _).trans (by rw [hnote]; rfl)
    · simp [h.told]
  · have hgive : giveText toNote st i = st := by
      rw [giveText, h.bound, if_neg (Ne.symm hin)]
    rw [hgive, if_neg hin, List.append_nil]
    exact h

theorem giveTexts_records {n : Str} {st : State Unit Unit (fun _ : Unit => Note)}
    {texts : List Str} (h : Records n st texts) (is : List (Str × Str)) :
    Records n (is.foldl (giveText toNote) st)
      (texts ++ is.filterMap (fun i => if i.1 = n then some i.2 else none)) := by
  induction is generalizing st texts with
  | nil => simpa using h
  | cons i is ih =>
    have hrest := ih (giveText_records h i)
    by_cases hin : i.1 = n
    · simpa [hin] using hrest
    · simpa [hin] using hrest

theorem length_filterMap_le {α β : Type} {f g : α → Option β} {l : List α}
    (hfg : ∀ a ∈ l, (f a).isSome → (g a).isSome) :
    (l.filterMap f).length ≤ (l.filterMap g).length := by
  induction l with
  | nil => exact le_rfl
  | cons a l ih =>
    have hrest := ih fun b hb => hfg b (by simp [hb])
    have hhead := hfg a (by simp)
    cases hf : f a <;> cases hg : g a <;> simp [hf, hg] at hhead ⊢ <;> omega

/-- Where one function finds all that the other does, and no more in all, they find
the same everywhere. -/
theorem eq_of_filterMap_eq {α β : Type} {f g : α → Option β} {l : List α}
    (hfg : ∀ a ∈ l, (f a).isSome → (g a).isSome) (h : l.filterMap f = l.filterMap g) :
    ∀ a ∈ l, f a = g a := by
  induction l with
  | nil => nofun
  | cons b l ih =>
    have htail : ∀ a ∈ l, (f a).isSome → (g a).isSome := fun a ha => hfg a (by simp [ha])
    have hlen := length_filterMap_le htail
    have hhead := hfg b (by simp)
    have hsame : f b = g b ∧ l.filterMap f = l.filterMap g := by
      cases hf : f b with
      | none =>
        cases hg : g b with
        | none => simpa [hf, hg] using h
        | some y =>
          have := congrArg List.length h
          simp [hf, hg] at this
          omega
      | some x =>
        obtain ⟨y, hg⟩ := Option.isSome_iff_exists.mp (hhead (by rw [hf]; rfl))
        simpa [hf, hg] using h
    intro a ha
    obtain rfl | ha := List.mem_cons.mp ha
    · exact hsame.1
    · exact ih htail hsame.2 a ha

theorem CaseInsensitive.lowerCase (hyaml : yaml.Lawful) {root : Node}
    (h : CaseInsensitive yaml root) : LowerCase root := by
  rw [lowerCase_iff hyaml]
  have htexts : ∀ n, (preorder [] root).filterMap (fun e =>
        (given yaml e).bind (fun i => if i.1 = n then some i.2 else none)) =
      (preorder [] root).filterMap (fun e =>
        (given yaml (lowered e)).bind (fun i => if i.1 = n then some i.2 else none)) := by
    intro n
    have hbound : (recorder n).registry.lookupBase n = some 0 :=
      ((recorder_records n).bound n).trans (if_pos rfl)
    have htold := (h Unit Unit Unit _ toNote (recorder n) n 0 hbound).told
    rw [loadFromYaml_eq, loadFromYaml_eq, filterMap_given_lowerKeys] at htold
    have hdirect := (giveTexts_records (recorder_records n)
      ((preorder [] root).filterMap (given yaml))).told
    have hlower := (giveTexts_records (recorder_records n)
      ((preorder [] root).filterMap (fun e => given yaml (lowered e)))).told
    rw [htold, hlower] at hdirect
    simpa [List.filterMap_filterMap] using hdirect.symm
  have hfound : ∀ n e, ((given yaml e).bind (fun i => if i.1 = n then some i.2 else none)).isSome →
      ((given yaml (lowered e)).bind (fun i => if i.1 = n then some i.2 else none)).isSome := by
    intro n e hsome
    cases hgiven : given yaml e with
    | none => simp [hgiven] at hsome
    | some i =>
      rw [given_lowered_some hgiven]
      by_cases hin : i.1 = n
      · simp [hin]
      · simp [hgiven, hin] at hsome
  intro e he
  have hsame := fun n => eq_of_filterMap_eq (fun e _ => hfound n e) (htexts n) e he
  cases hgiven : given yaml e with
  | some i =>
    have hn : some i.2 = some (nodeText yaml (lowerKeys e.2)) := by
      simpa [hgiven, given_lowered_some hgiven] using hsame i.1
    rw [given_lowered_some hgiven, ← Option.some.inj hn]
  | none =>
    cases hlow : given yaml (lowered e) with
    | none => rfl
    | some i =>
      have hn := hsame i.1
      simp [hlow, hgiven] at hn

/-- The case of the keys of a document does not matter exactly when lower case
changes none that stands on the way to, or inside, a node of a valid name. -/
theorem caseInsensitive_iff (yaml : Yaml) (hyaml : yaml.Lawful) (root : Node) :
    CaseInsensitive yaml root ↔ LowerCase root :=
  ⟨CaseInsensitive.lowerCase hyaml, LowerCase.insensitive hyaml⟩

/-- A key that is cut off in either case may be in any. -/
theorem caseInsensitive_cutOff :
    let root : Node := .map [(.scalar "a".toList, .scalar "1".toList),
      (.scalar "X-Y".toList, .scalar "2".toList)]
    lowerKeys root ≠ root ∧ CaseInsensitive YamlBlocks.yaml root := by
  refine ⟨fun h => ?_, (caseInsensitive_iff YamlBlocks.yaml YamlBlocks.yaml_lawful _).mpr ?_⟩
  · simp [lowerKeys, lowerEntries, lowerKey] at h
  · intro e he hvalid hne
    simp only [preorder, preorderEntries, List.nil_append, List.append_nil, List.mem_cons,
      List.cons_append, List.not_mem_nil, or_false, Node.scalarText] at he
    obtain rfl | rfl | rfl := he
    · exact absurd rfl hne
    · exact ⟨by decide, rfl⟩
    · exact absurd hvalid (by decide)

/-- The name is not found as it is spelt, and found in lower case. -/
theorem upperCase_cutOff : ¬ CaseInsensitive YamlBlocks.yaml
    (.map [(.scalar "A".toList, .scalar "1".toList)]) := by
  intro h
  have hstored := (h Unit Exn IntType IntType.Val IntType.parse
    ⟨Registry.empty.add "a".toList ⟨.int, "a".toList, [], ⟨0, by decide⟩, .empty⟩ rfl, (), []⟩
    "a".toList 0 rfl).stored
  have hvalues := congrArg (Option.map (fun v : ConfigVarBase Unit Exn IntType.Val =>
    (v.2.val : Int))) hstored
  exact absurd hvalues (by decide)

end Mumu.KeyCases
