import Mumu.PatternReading

namespace Mumu.PatternLanguage

open Mumu.LogLevels Mumu.LogItems Mumu.PatternScanner Mumu.PatternGrammar Mumu.PatternReading

/-! ### Text that stands for itself -/

/-- A percent sign before another one is text, and the other one is not used up. -/
def Plain (c : Char) (q : Str) : Prop := c ≠ '%' ∨ q.head? = some '%'

instance (c : Char) (q : Str) : Decidable (Plain c q) := inferInstanceAs (Decidable (_ ∨ _))

/-- All characters of a text are plain, before what follows it. -/
def PlainText : Str → Str → Prop
  | [], _ => True
  | c :: s, rest => Plain c (s ++ rest) ∧ PlainText s rest

/-- The pattern ends, or a directive begins. -/
def Begins : Str → Prop
  | [] => True
  | c :: q => ¬ Plain c q

/-- The language of all patterns: text is taken as it is, up to a percent sign
that no other one follows. -/
inductive Reads : Str → List Segment → Prop
  | nil : Reads [] []
  | literal {s rest : Str} {segs : List Segment} (hs : s ≠ []) (hp : PlainText s rest)
      (hm : Begins rest) (h : Reads rest segs) : Reads (s ++ rest) (.literal s :: segs)
  | bare {k : Char} {rest : Str} {segs : List Segment} (hk : k ∈ keys)
      (hf : ∀ c ∈ rest.head?, ¬ continues c) (h : Reads rest segs) :
      Reads ('%' :: k :: rest) (.bare k :: segs)
  | formatted {k : Char} {f rest : Str} {segs : List Segment} (hk : k ∈ keys) (hf : '}' ∉ f)
      (h : Reads rest segs) :
      Reads ('%' :: k :: '{' :: (f ++ '}' :: rest)) (.formatted k f :: segs)

theorem key_begins {k : Char} (hk : k ∈ keys) (q : Str) : Begins ('%' :: k :: q) := by
  rintro (h | h)
  · exact h rfl
  · exact (keys_spec hk).2 (Option.some.inj h)

theorem exists_plain (p : Str) : ∃ s rest, p = s ++ rest ∧ PlainText s rest ∧ Begins rest := by
  induction p with
  | nil => exact ⟨[], [], rfl, trivial, trivial⟩
  | cons c p ih =>
    by_cases hc : Plain c p
    · obtain ⟨s, rest, rfl, hs, hrest⟩ := ih
      exact ⟨c :: s, rest, rfl, ⟨hc, hs⟩, hrest⟩
    · exact ⟨[], c :: p, rfl, trivial, hc⟩

theorem plain_unique {s s' rest rest' : Str} (hs : PlainText s rest) (hrest : Begins rest)
    (hs' : PlainText s' rest') (hrest' : Begins rest') (h : s ++ rest = s' ++ rest') :
    s = s' ∧ rest = rest' := by
  induction s generalizing s' with
  | nil =>
    cases s' with
    | nil => exact ⟨rfl, h⟩
    | cons c s' =>
      obtain rfl : rest = c :: (s' ++ rest') := h
      exact absurd hs'.1 hrest
  | cons c s ih =>
    cases s' with
    | nil =>
      obtain rfl : c :: (s ++ rest) = rest' := h
      exact absurd hs.1 hrest'
    | cons c' s' =>
      obtain ⟨rfl, htail⟩ := List.cons.inj h
      obtain ⟨rfl, rfl⟩ := ih hs.2 hs'.2 htail
      exact ⟨rfl, rfl⟩

/-! ### What the scanner makes of it -/

theorem reading_plain {s rest : Str} (hs : PlainText s rest) :
    reading (s ++ rest) = { reading rest with text := s ++ (reading rest).text } := by
  induction s with
  | nil => rfl
  | cons c s ih =>
    rw [List.cons_append, reading_literal hs.1, ih hs.2]
    rfl

theorem isName_key {k : Char} (hk : k ∈ keys) : isName k = true := by
  simp [isName, (keys_spec hk).1]

theorem directive_bare {k : Char} {rest : Str} (hk : k ∈ keys)
    (hf : ∀ c ∈ rest.head?, ¬ continues c) : directive (k :: rest) = some ⟨[k], [], rest⟩ := by
  rw [directive, List.takeWhile_cons_of_pos (isName_key hk),
    List.dropWhile_cons_of_pos (isName_key hk)]
  cases rest with
  | nil => rfl
  | cons c rest =>
    have hc : ¬ continues c := hf c rfl
    have hname : ¬ isName c = true := by
      intro h
      rw [isName, Bool.or_eq_true, beq_iff_eq] at h
      exact hc (h.imp_right .inr)
    rw [List.takeWhile_cons_of_neg hname, List.dropWhile_cons_of_neg hname, close,
      if_pos fun h => hc (.inr (.inl h))]

theorem directive_formatted {k : Char} {f rest : Str} (hk : k ∈ keys) (hf : '}' ∉ f) :
    directive (k :: '{' :: (f ++ '}' :: rest)) = some ⟨[k], f, rest⟩ := by
  have hbrace : ¬ isName '{' = true := by decide
  have hall : ∀ c ∈ f, (c != '}') = true := fun c hc => bne_iff_ne.mpr fun h => hf (h ▸ hc)
  rw [directive, List.takeWhile_cons_of_pos (isName_key hk),
    List.dropWhile_cons_of_pos (isName_key hk), List.takeWhile_cons_of_neg hbrace,
    List.dropWhile_cons_of_neg hbrace, close, if_neg (by simp), if_pos (by simp),
    List.takeWhile_append_of_pos hall, List.dropWhile_append_of_pos hall]
  simp

/-- A directive of the table, and the pattern that it was read from. -/
theorem eq_of_directive {q : Str} {d : Directive} (h : directive q = some d) {k : Char}
    (hk : d.name = [k]) :
    (q = k :: d.rest ∧ d.fmt = [] ∧ ∀ c ∈ d.rest.head?, ¬ continues c) ∨
      (q = k :: '{' :: (d.fmt ++ '}' :: d.rest) ∧ '}' ∉ d.fmt) := by
  have hname : q.takeWhile isName = [k] := (directive_name h).symm.trans hk
  have hq : q = k :: q.dropWhile isName := by
    conv_lhs => rw [← split_names q, hname]
    rfl
  have hcont := not_continues q
  rw [directive, hname] at h
  generalize q.dropWhile isName = t at h hq hcont
  subst hq
  cases t with
  | nil =>
    obtain rfl := Option.some.inj h
    exact .inl ⟨rfl, rfl, by simp⟩
  | cons c g =>
    rw [close] at h
    split at h
    · rename_i hc
      obtain rfl := Option.some.inj h
      exact .inl ⟨rfl, rfl, hcont (by simpa using hc)⟩
    · rename_i hc
      split at h
      · rename_i hg
        obtain rfl := Option.some.inj h
        obtain ⟨hsplit, hf⟩ := split_brace hg
        refine .inr ⟨?_, hf⟩
        rw [not_not.mp hc, ← hsplit]
      · cases h

/-! ### The language is what the scanner accepts -/

theorem reading_of_reads {p : Str} {segs : List Segment} (h : Reads p segs) :
    (reading p).error = false ∧ (reading p).errors = 0 ∧
      (reading p).after [] = segs.map Segment.entry ∧ (Begins p → (reading p).text = []) := by
  have directive : ∀ {k : Char} {q f rest : Str} {segs : List Segment}, k ∈ keys →
      directive (k :: q) = some ⟨[k], f, rest⟩ → (reading rest).error = false →
      (reading rest).after [] = segs.map Segment.entry →
      (reading ('%' :: k :: q)).error = false ∧ (reading ('%' :: k :: q)).errors = 0 ∧
        (reading ('%' :: k :: q)).after [] = ([k], f, 1) :: segs.map Segment.entry ∧
        (Begins ('%' :: k :: q) → (reading ('%' :: k :: q)).text = []) := by
    intro k q f rest segs hk hd herr hafter
    have hq : (k :: q).head? ≠ some '%' := fun h => (keys_spec hk).2 (Option.some.inj h)
    rw [reading_directive hq hd]
    exact ⟨herr, rfl, congrArg (([k], f, 1) :: ·) hafter, fun _ => rfl⟩
  induction h with
  | nil =>
    rw [reading]
    exact ⟨rfl, rfl, rfl, fun _ => rfl⟩
  | @literal s rest segs hs hp hm h ih =>
    obtain ⟨herr, herrors, hafter, htext⟩ := ih
    have hnone := htext hm
    have hentries : (reading rest).entries = segs.map Segment.entry := by
      simpa [Reading.after, herrors, hnone, literalEntry] using hafter
    rw [reading_plain hp]
    refine ⟨herr, herrors, ?_, fun hbegins => ?_⟩
    · simp [Reading.after, herrors, hnone, hentries, literalEntry, hs, Segment.entry]
    · cases s with
      | nil => exact absurd rfl hs
      | cons c s => exact absurd hp.1 hbegins
  | bare hk hf h ih => exact directive hk (directive_bare hk hf) ih.1 ih.2.2.1
  | formatted hk hf h ih => exact directive hk (directive_formatted hk hf) ih.1 ih.2.2.1

/-- A pattern without errors, whose directives are all in the table. -/
theorem reads_of_reading (p : Str) (herr : (reading p).error = false)
    (hknown : ∀ e ∈ (reading p).entries, Known e) : ∃ segs, Reads p segs := by
  induction hl : p.length using Nat.strong_induction_on generalizing p with
  | _ l ih =>
    obtain ⟨s, rest, rfl, hs, hrest⟩ := exists_plain p
    rw [reading_plain hs] at herr hknown
    have hdirective : ∃ segs, Reads rest segs := by
      cases rest with
      | nil => exact ⟨[], .nil⟩
      | cons c q =>
        obtain ⟨rfl, hq⟩ : c = '%' ∧ q.head? ≠ some '%' := by simpa [Begins, Plain] using hrest
        cases hd : directive q with
        | none =>
          rw [reading_unclosed hq hd] at herr
          cases herr
        | some d =>
          rw [reading_directive hq hd] at herr hknown
          have hlen := directive_rest hd
          rw [List.length_append, List.length_cons] at hl
          obtain ⟨k, hk, hname⟩ := hknown _ List.mem_cons_self Nat.one_ne_zero
          have hrest : ∀ e ∈ (reading d.rest).entries, Known e :=
            (known_after _ []).mp fun e he => hknown e (List.mem_cons_of_mem _ he)
          obtain ⟨segs, hsegs⟩ := ih d.rest.length (by omega) d.rest herr hrest rfl
          obtain ⟨hbare, -, hf⟩ | ⟨hformatted, hf⟩ := eq_of_directive hd hname
          · rw [hbare]
            exact ⟨_, .bare hk hf hsegs⟩
          · rw [hformatted]
            exact ⟨_, .formatted hk hf hsegs⟩
    obtain ⟨segs, hsegs⟩ := hdirective
    by_cases hnil : s = []
    · exact ⟨segs, by rwa [hnil]⟩
    · exact ⟨_, .literal hnil hs hrest hsegs⟩

/-! ### One reading -/

theorem Reads.keyed {p : Str} {segs : List Segment} (h : Reads p segs) : ∀ s ∈ segs, s.Keyed := by
  induction h with
  | nil => simp
  | literal hs hp hm h ih => exact List.forall_mem_cons.mpr ⟨trivial, ih⟩
  | bare hk hf h ih => exact List.forall_mem_cons.mpr ⟨hk, ih⟩
  | formatted hk hf h ih => exact List.forall_mem_cons.mpr ⟨hk, ih⟩

theorem literal_not_begins {s rest : Str} (hs : s ≠ []) (hp : PlainText s rest) :
    ¬ Begins (s ++ rest) := by
  cases s with
  | nil => exact absurd rfl hs
  | cons c s => exact fun h => h hp.1

theorem not_literal {k : Char} (hk : k ∈ keys) {q s rest : Str} (hs : s ≠ [])
    (hp : PlainText s rest) : '%' :: k :: q ≠ s ++ rest :=
  fun h => literal_not_begins hs hp (h ▸ key_begins hk q)

/-- A bare directive is not followed by the brace of a format. -/
theorem Reads.unique {p : Str} {segs : List Segment} (h : Reads p segs) :
    ∀ segs', Reads p segs' → segs' = segs := by
  induction h with
  | nil =>
    intro segs' h'
    generalize hp : ([] : Str) = p at h'
    cases h' with
    | nil => rfl
    | literal hs _ _ _ => exact absurd (List.append_eq_nil_iff.mp hp.symm).1 hs
    | bare _ _ _ | formatted _ _ _ => cases hp
  | @literal s rest segs hs hp hm h ih =>
    intro segs' h'
    generalize heq : s ++ rest = p at h'
    cases h' with
    | nil => exact absurd (List.append_eq_nil_iff.mp heq).1 hs
    | literal hs' hp' hm' h' =>
      obtain ⟨rfl, rfl⟩ := plain_unique hp hm hp' hm' heq
      rw [ih _ h']
    | bare hk _ _ => exact absurd heq.symm (not_literal hk hs hp)
    | formatted hk _ _ => exact absurd heq.symm (not_literal hk hs hp)
  | @bare k rest segs hk hf h ih =>
    intro segs' h'
    generalize heq : '%' :: k :: rest = p at h'
    cases h' with
    | nil => cases heq
    | literal hs hp _ _ => exact absurd heq (not_literal hk hs hp)
    | bare _ _ h' =>
      cases heq
      rw [ih _ h']
    | formatted _ _ _ =>
      cases heq
      exact absurd (.inr (.inl rfl)) (hf '{' rfl)
  | @formatted k f rest segs hk hf h ih =>
    intro segs' h'
    generalize heq : '%' :: k :: '{' :: (f ++ '}' :: rest) = p at h'
    cases h' with
    | nil => cases heq
    | literal hs hp _ _ => exact absurd heq (not_literal hk hs hp)
    | bare _ hbare _ =>
      cases heq
      exact absurd (.inr (.inl rfl)) (hbare '{' rfl)
    | formatted hk' hf' h' =>
      have hdirective : directive (k :: '{' :: (f ++ '}' :: rest)) = some ⟨[k], f, rest⟩ :=
        directive_formatted hk hf
      rw [(List.cons.inj heq).2, directive_formatted hk' hf'] at hdirective
      cases hdirective
      rw [ih _ h']

/-- A formatter is made without an error exactly for the patterns of the language,
adjacent percent signs included. Each of these has one reading, whose segments
give the items in order. -/
theorem new_accepts_iff (p : Str) :
    ((LogFormatter.new p).isError = false ↔ ∃ segs, Reads p segs) ∧
      ∀ segs, Reads p segs → (LogFormatter.new p).items.map some = segs.map Segment.item ∧
        ∀ segs', Reads p segs' → segs' = segs := by
  constructor
  · rw [isError_new, known_after]
    constructor
    · rintro ⟨herr, hknown⟩
      exact reads_of_reading p herr hknown
    · rintro ⟨segs, h⟩
      obtain ⟨herr, -, hafter, -⟩ := reading_of_reads h
      refine ⟨herr, (known_after _ []).mp ?_⟩
      rw [hafter, List.forall_mem_map]
      exact fun s hs => (item_segment (h.keyed s hs)).2
  · intro segs h
    refine ⟨?_, h.unique⟩
    rw [LogFormatter.new_items, entries_reading, (reading_of_reads h).2.2.1, List.map_map,
      List.map_map]
    exact List.map_congr_left fun s hs => (item_segment (h.keyed s hs)).1.symm

end Mumu.PatternLanguage
