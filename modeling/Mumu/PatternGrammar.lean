import Mumu.PatternScanner
import Mathlib.Data.List.Infix

namespace Mumu.PatternGrammar

open Mumu.LogLevels Mumu.LogItems Mumu.PatternScanner

/-- One segment of a well-formed pattern. -/
inductive Segment where
  | literal (s : Str)
  | bare (k : Char)
  | formatted (k : Char) (f : Str)

/-- A character that cannot follow the key of a bare directive. -/
def continues (c : Char) : Prop := c.isAlpha ∨ c = '{' ∨ c = '}'

/-- The pattern language: literal runs are maximal, so that a run ends where
the pattern does or at a percent sign. -/
inductive Splits : Str → List Segment → Prop
  | nil : Splits [] []
  | literal {s rest : Str} {segs : List Segment} (hs : s ≠ []) (hp : '%' ∉ s)
      (hm : ∀ c ∈ rest.head?, c = '%') (h : Splits rest segs) :
      Splits (s ++ rest) (.literal s :: segs)
  | bare {k : Char} {rest : Str} {segs : List Segment} (hk : k ∈ keys)
      (hf : ∀ c ∈ rest.head?, ¬ continues c) (h : Splits rest segs) :
      Splits ('%' :: k :: rest) (.bare k :: segs)
  | formatted {k : Char} {f rest : Str} {segs : List Segment} (hk : k ∈ keys)
      (hf : '}' ∉ f) (h : Splits rest segs) :
      Splits ('%' :: k :: '{' :: (f ++ '}' :: rest)) (.formatted k f :: segs)

/-- The item a segment stands for. -/
def Segment.item : Segment → Option FormatItem
  | literal s => some (.string s)
  | bare k => (findItem [k]).map (fun c => c [])
  | formatted k f => (findItem [k]).map (fun c => c f)

def Segment.entry : Segment → Str × Str × Nat
  | literal s => (s, [], 0)
  | bare k => ([k], [], 1)
  | formatted k f => ([k], f, 1)

/-! ### The inner loop, on what is left of the pattern -/

variable {p : Str} {i : Nat}

theorem drop_cons {n : Nat} {c : Char} {rest : Str} (h : p.drop n = c :: rest) :
    ∃ hn : n < p.length, p[n] = c ∧ p.drop (n + 1) = rest := by
  have hn : n < p.length := by
    by_contra hle
    rw [List.drop_eq_nil_of_le (by omega)] at h
    exact List.cons_ne_nil _ _ h.symm
  rw [List.drop_eq_getElem_cons hn, List.cons.injEq] at h
  exact ⟨hn, h.1, h.2⟩

theorem length_of_drop {n : Nat} {q : Str} (hn : n ≤ p.length) (h : p.drop n = q) :
    p.length = n + q.length := by
  rw [← h, List.length_drop]
  omega

theorem scan_nil {s : Scan} (h : p.drop s.n = []) : scan p i s = s := by
  rw [scan, dif_neg (by have := List.drop_eq_nil_iff.mp h; omega)]

def isName (c : Char) : Bool := c.isAlpha || c == '}'

theorem isName_ne {c : Char} (hc : isName c) : c ≠ '{' := by
  rintro rfl
  exact absurd hc (by decide)

theorem scan_name {n b : Nat} {str fmt rest : Str} {c : Char} (hc : isName c)
    (h : p.drop n = c :: rest) :
    scan p i ⟨n, 0, b, str, fmt⟩ =
      scan p i ⟨n + 1, 0, b, if rest = [] ∧ str = [] then p.drop (i + 1) else str, fmt⟩ := by
  obtain ⟨hn, hpc, hrest⟩ := drop_cons h
  have hl : n + 1 = p.length ↔ rest = [] := by
    rw [← hrest, List.drop_eq_nil_iff]
    omega
  have hb : c = '}' ∨ c.isAlpha = true := by simpa [isName, or_comm] using hc
  rw [scan, dif_pos hn]
  simp only [hpc, hl, isName_ne hc]
  rcases hb with rfl | ha <;> simp [*]

theorem scan_names (r : Str) {n b : Nat} {str fmt rest : Str} (hr : ∀ c ∈ r, isName c)
    (hne : rest ≠ []) (h : p.drop n = r ++ rest) :
    scan p i ⟨n, 0, b, str, fmt⟩ = scan p i ⟨n + r.length, 0, b, str, fmt⟩ := by
  induction r generalizing n with
  | nil => rfl
  | cons c r ih =>
    obtain ⟨_, _, hrest⟩ := drop_cons h
    rw [scan_name (hr c (by simp)) h, if_neg (by simp [hne]),
      ih (fun d hd => hr d (by simp [hd])) hrest, List.length_cons]
    congr 2
    omega

/-- A bare directive takes the whole run of letters and closing braces, whether
the pattern goes on after it or not. -/
theorem scan_bare {r rest : Str} (hr : ∀ c ∈ r, isName c)
    (hrest : ∀ c ∈ rest.head?, ¬ continues c) (h : p.drop i = '%' :: (r ++ rest)) :
    scan p i (.start i) = ⟨i + 1 + r.length, 0, 0, r, []⟩ := by
  obtain ⟨hi, _, hd⟩ := drop_cons h
  cases rest with
  | nil =>
    rw [List.append_nil] at hd
    obtain rfl | ⟨r', c, rfl⟩ := List.eq_nil_or_concat r
    · exact scan_nil hd
    · rw [List.concat_eq_append] at hd hr ⊢
      have hlast : p.drop (i + 1 + r'.length) = [c] := by
        rw [← List.drop_drop, hd, List.drop_left]
      obtain ⟨_, _, hnil⟩ := drop_cons hlast
      rw [Scan.start, scan_names r' (fun d hm => hr d (by simp [hm])) (by simp) hd,
        scan_name (hr c (by simp)) hlast, if_pos ⟨rfl, rfl⟩, scan_nil hnil, hd]
      simp [Nat.add_assoc]
  | cons c rest =>
    have hc : ¬ continues c := hrest c rfl
    have hnext : p.drop (i + 1 + r.length) = c :: rest := by
      rw [← List.drop_drop, hd, List.drop_left]
    obtain ⟨hn, hpc, _⟩ := drop_cons hnext
    simp only [continues, not_or, Bool.not_eq_true] at hc
    rw [Scan.start, scan_names r hr (by simp) hd, scan, dif_pos hn]
    have hs : substr p (i + 1) (i + 1 + r.length - i - 1) = r := by
      rw [substr, hd, show i + 1 + r.length - i - 1 = r.length by omega, List.take_left]
    simp [hpc, hc, hs]

theorem scan_brace {r rest : Str} (hr : ∀ c ∈ r, isName c)
    (h : p.drop i = '%' :: (r ++ '{' :: rest)) :
    scan p i (.start i) = scan p i ⟨i + 1 + r.length + 1, 1, i + 1 + r.length, r, []⟩ := by
  obtain ⟨hi, _, hd⟩ := drop_cons h
  have hnext : p.drop (i + 1 + r.length) = '{' :: rest := by
    rw [← List.drop_drop, hd, List.drop_left]
  obtain ⟨hn, hpc, _⟩ := drop_cons hnext
  have hs : substr p (i + 1) (i + 1 + r.length - i - 1) = r := by
    rw [substr, hd, show i + 1 + r.length - i - 1 = r.length by omega, List.take_left]
  rw [Scan.start, scan_names r hr (by simp) hd, scan, dif_pos hn]
  simp [hpc, hs]

theorem scan_inside {n : Nat} (b : Nat) (str fmt : Str) {rest : Str} {c : Char} (hc : c ≠ '}')
    (h : p.drop n = c :: rest) :
    ∃ str', (rest ≠ [] → str' = str) ∧
      scan p i ⟨n, 1, b, str, fmt⟩ = scan p i ⟨n + 1, 1, b, str', fmt⟩ := by
  obtain ⟨hn, hpc, hrest⟩ := drop_cons h
  refine ⟨if n + 1 = p.length ∧ str = [] then p.drop (i + 1) else str, ?_, ?_⟩
  · intro hne
    rw [if_neg]
    rintro ⟨hl, _⟩
    exact hne (by rw [← hrest, hl, List.drop_length])
  · rw [scan, dif_pos hn]
    simp [hpc, hc]

theorem scan_closed (f : Str) {n b : Nat} {str fmt rest : Str} (hf : '}' ∉ f)
    (h : p.drop n = f ++ '}' :: rest) :
    scan p i ⟨n, 1, b, str, fmt⟩ =
      ⟨n + f.length + 1, 0, b, str, substr p (b + 1) (n + f.length - b - 1)⟩ := by
  induction f generalizing n with
  | nil =>
    obtain ⟨hn, hpc, _⟩ := drop_cons h
    rw [scan, dif_pos hn]
    simp [hpc]
  | cons c f ih =>
    obtain ⟨_, _, hrest⟩ := drop_cons h
    have hc : c ≠ '}' := fun he => hf (by simp [he])
    obtain ⟨str', hstr, hstep⟩ := scan_inside (i := i) b str fmt hc h
    have hlen : n + 1 + f.length = n + (f.length + 1) := by omega
    rw [hstep, hstr (by simp), ih (fun hm => hf (by simp [hm])) hrest, hlen, List.length_cons]

theorem scan_unclosed (q : Str) {n b : Nat} {str fmt : Str} (hq : '}' ∉ q) (h : p.drop n = q) :
    (scan p i ⟨n, 1, b, str, fmt⟩).fmtStatus = 1 ∧ (scan p i ⟨n, 1, b, str, fmt⟩).fmt = fmt := by
  induction q generalizing n str with
  | nil =>
    rw [scan_nil h]
    exact ⟨rfl, rfl⟩
  | cons c q ih =>
    obtain ⟨_, _, hrest⟩ := drop_cons h
    have hc : c ≠ '}' := fun he => hq (by simp [he])
    obtain ⟨str', _, hstep⟩ := scan_inside (i := i) b str fmt hc h
    rw [hstep]
    exact ih (fun hm => hq (by simp [hm])) hrest

theorem scan_formatted {r f rest : Str} (hr : ∀ c ∈ r, isName c) (hf : '}' ∉ f)
    (h : p.drop i = '%' :: (r ++ '{' :: (f ++ '}' :: rest))) :
    scan p i (.start i) = ⟨i + 1 + r.length + 1 + f.length + 1, 0, i + 1 + r.length, r, f⟩ := by
  obtain ⟨hi, _, hd⟩ := drop_cons h
  have hnext : p.drop (i + 1 + r.length + 1) = f ++ '}' :: rest := by
    rw [← List.drop_drop, ← List.drop_drop, hd, List.drop_left, List.drop_one, List.tail_cons]
  rw [scan_brace hr h, scan_closed f hf hnext, substr, hnext,
    show i + 1 + r.length + 1 + f.length - (i + 1 + r.length) - 1 = f.length by omega,
    List.take_left]

/-! ### The outer loop -/

theorem initLoop_nil {st : Init} (h : p.drop i = []) : initLoop p i st = st := by
  rw [initLoop, dif_neg (by have := List.drop_eq_nil_iff.mp h; omega)]

theorem initLoop_literal (s : Str) {st : Init} {rest : Str} (hs : '%' ∉ s)
    (h : p.drop i = s ++ rest) :
    initLoop p i st = initLoop p (i + s.length) { st with nstr := st.nstr ++ s } := by
  induction s generalizing i st with
  | nil => simp
  | cons c s ih =>
    obtain ⟨hi, hpc, hrest⟩ := drop_cons h
    have hc : p[i] ≠ '%' := by
      rw [hpc]
      exact fun he => hs (by simp [he])
    rw [initLoop, dif_pos hi, if_pos hc, ih (fun hm => hs (by simp [hm])) hrest]
    simp [hpc, Nat.add_comm, Nat.add_left_comm]

theorem initLoop_directive (st : Init) {q : Str} (hq : q.head? ≠ some '%')
    (h : p.drop i = '%' :: q) :
    initLoop p i st =
      if (scan p i (.start i)).fmtStatus = 0 then
        initLoop p (scan p i (.start i)).n
          { st with
            nstr := []
            vec := st.flush ++ [((scan p i (.start i)).str, (scan p i (.start i)).fmt, 1)] }
      else
        initLoop p (i + 1)
          { st with
            vec := st.vec ++ [("<<pattern_error>>".toList, (scan p i (.start i)).fmt, 0)]
            error := true } := by
  obtain ⟨hi, hpc, hrest⟩ := drop_cons h
  have hnext : p[i + 1]? ≠ some '%' := by
    rwa [← hrest, List.head?_drop] at hq
  have hn := lt_scan_start p i
  rw [initLoop, dif_pos hi, if_neg (by simp [hpc]), if_neg hnext]
  dsimp only
  rw [show (scan p i (.start i)).n - 1 + 1 = (scan p i (.start i)).n by omega]

theorem vec_prefix_flush (st : Init) : st.vec <+: st.flush := by
  rw [Init.flush]
  split
  · exact List.prefix_rfl
  · exact List.prefix_append _ _

/-- The scanner only adds entries, and never clears the error flag. -/
theorem initLoop_grows (p : Str) (i : Nat) (st : Init) :
    st.vec <+: (initLoop p i st).vec ∧ (st.error → (initLoop p i st).error) := by
  fun_induction initLoop p i st with
  | case1 i st hi hc ih => exact ih
  | case2 i st hi hc hd ih => exact ih
  | case3 i st hi hc hd hn s hs ih =>
    exact ⟨(vec_prefix_flush st).trans ((List.prefix_append _ _).trans ih.1), ih.2⟩
  | case4 i st hi hc hd hn s hs ih =>
    exact ⟨(List.prefix_append _ _).trans ih.1, fun _ => ih.2 rfl⟩
  | case5 i st hi => exact ⟨List.prefix_rfl, id⟩

theorem head_of_splits {q : Str} {segs : List Segment} (h : Splits q segs)
    (hq : ∀ c ∈ q.head?, c = '%') (s : Str) : segs.head? ≠ some (.literal s) := by
  cases h with
  | nil => simp
  | @literal s' rest segs hs hp hm h =>
    cases s' with
    | nil => exact absurd rfl hs
    | cons c s' =>
      have hc : c = '%' := hq c rfl
      exact absurd (by simp [hc]) hp
  | bare | formatted => simp

theorem keys_spec {k : Char} (hk : k ∈ keys) : k.isAlpha = true ∧ k ≠ '%' := by
  have h : (keys.all fun k => k.isAlpha && k != '%') = true := by decide
  simpa using List.all_eq_true.mp h k hk

/-- On a well-formed rest the scanner adds one entry for each segment. The
pending literal text is closed by the first directive, so a rest that begins
with a literal run must find none pending. -/
theorem initLoop_splits {q : Str} {segs : List Segment} (h : Splits q segs) (st : Init)
    (hd : p.drop i = q) (hi : i ≤ p.length)
    (hst : st.nstr = [] ∨ ∀ s, segs.head? ≠ some (.literal s)) :
    (initLoop p i st).flush = st.flush ++ segs.map Segment.entry ∧
      (initLoop p i st).error = st.error := by
  induction h generalizing i st with
  | nil => simp [initLoop_nil hd]
  | @literal s rest segs hs hp hm h ih =>
    have hn : st.nstr = [] := by
      obtain hn | hn := hst
      · exact hn
      · exact absurd rfl (hn s)
    have hrest : p.drop (i + s.length) = rest := by rw [← List.drop_drop, hd, List.drop_left]
    have hlen := length_of_drop hi hd
    rw [List.length_append] at hlen
    obtain ⟨hflush, herr⟩ := ih { st with nstr := st.nstr ++ s } hrest (by omega)
      (.inr (head_of_splits h hm))
    rw [initLoop_literal s hp hd]
    refine ⟨hflush.trans ?_, herr⟩
    simp [Init.flush, Segment.entry, hn, hs]
  | @bare k rest segs hk hf h ih =>
    have hscan := scan_bare (by simp [isName, (keys_spec hk).1]) hf
      (show p.drop i = '%' :: ([k] ++ rest) by rw [hd]; rfl)
    have hrest : p.drop (i + 1 + 1) = rest := by rw [← List.drop_drop, ← List.drop_drop, hd]; rfl
    have hlen := length_of_drop hi hd
    simp only [List.length_cons] at hlen
    rw [initLoop_directive st (by simp [(keys_spec hk).2]) hd, hscan, if_pos rfl]
    obtain ⟨hflush, herr⟩ := ih { st with nstr := [], vec := st.flush ++ [([k], [], 1)] }
      hrest (by omega) (.inl rfl)
    refine ⟨hflush.trans ?_, herr⟩
    simp [Init.flush, Segment.entry]
  | @formatted k f rest segs hk hf h ih =>
    have hscan := scan_formatted (by simp [isName, (keys_spec hk).1]) hf
      (show p.drop i = '%' :: ([k] ++ '{' :: (f ++ '}' :: rest)) by rw [hd]; rfl)
    have hrest : p.drop (i + 1 + 1 + 1 + f.length + 1) = rest := by
      rw [← List.drop_drop, ← List.drop_drop (i := f.length), ← List.drop_drop,
        ← List.drop_drop, ← List.drop_drop, hd]
      simp
    have hlen := length_of_drop hi hd
    simp only [List.length_cons, List.length_append] at hlen
    rw [initLoop_directive st (by simp [(keys_spec hk).2]) hd, hscan, if_pos rfl]
    obtain ⟨hflush, herr⟩ := ih { st with nstr := [], vec := st.flush ++ [([k], f, 1)] }
      hrest (by omega) (.inl rfl)
    refine ⟨hflush.trans ?_, herr⟩
    simp [Init.flush, Segment.entry]

/-- What the last loop of the parser demands of an entry. -/
def Known (e : Str × Str × Nat) : Prop := e.2.2 ≠ 0 → ∃ k ∈ keys, e.1 = [k]

theorem vec_subset_flush (p : Str) (i : Nat) (st : Init) :
    ∀ e ∈ st.vec, e ∈ (initLoop p i st).flush := fun _ he =>
  ((initLoop_grows p i st).1.trans (vec_prefix_flush _)).subset he

theorem exists_span (f : Char → Bool) (q : Str) :
    ∃ r t, q = r ++ t ∧ (∀ c ∈ r, f c) ∧ ∀ c ∈ t.head?, f c = false := by
  induction q with
  | nil => exact ⟨[], [], rfl, by simp, by simp⟩
  | cons c q ih =>
    cases hc : f c with
    | true =>
      obtain ⟨r, t, rfl, hr, ht⟩ := ih
      exact ⟨c :: r, t, rfl, by simpa [hc] using hr, ht⟩
    | false => exact ⟨[], c :: q, rfl, by simp, by simpa using hc⟩

theorem directive_known {q r f : Str} {st : Init} {j : Nat} (hq : q.head? ≠ some '%')
    (hd : p.drop i = '%' :: q) {b : Nat} (hscan : scan p i (.start i) = ⟨j, 0, b, r, f⟩)
    (hvec : ∀ e ∈ (initLoop p i st).flush, Known e) :
    (∃ k ∈ keys, r = [k]) ∧
      initLoop p i st = initLoop p j { st with nstr := [], vec := st.flush ++ [(r, f, 1)] } := by
  have hstep := initLoop_directive st hq hd
  rw [hscan, if_pos rfl] at hstep
  rw [hstep] at hvec
  exact ⟨hvec (r, f, 1) (vec_subset_flush p j _ _ (by simp)) (by simp), hstep⟩

/-- A rest that the scanner and the table both accept is well formed. -/
theorem splits_of_initLoop (q : Str) (st : Init) (hd : p.drop i = q) (hi : i ≤ p.length)
    (hq : ¬ ['%', '%'] <:+: q) (herr : (initLoop p i st).error = false)
    (hvec : ∀ e ∈ (initLoop p i st).flush, Known e) : ∃ segs, Splits q segs := by
  induction hl : q.length using Nat.strong_induction_on generalizing q i st with
  | _ l ih =>
    have hlen := length_of_drop hi hd
    -- one step of the scanner leads to a shorter rest of the same kind
    have next : ∀ (u rest : Str) (st' : Init), q = u ++ rest → u ≠ [] →
        initLoop p i st = initLoop p (i + u.length) st' → ∃ segs, Splits rest segs := by
      intro u rest st' hu hne hstep
      have hpos := List.length_pos_of_ne_nil hne
      have hsum : q.length = u.length + rest.length := by rw [hu, List.length_append]
      refine ih rest.length (by omega) (i := i + u.length) rest st' ?_ (by omega) ?_ ?_ ?_ rfl
      · rw [← List.drop_drop, hd, hu, List.drop_left]
      · exact fun hinf => hq (hinf.trans (hu ▸ (List.suffix_append u rest).isInfix))
      · rwa [← hstep]
      · rwa [← hstep]
    cases q with
    | nil => exact ⟨[], .nil⟩
    | cons c q =>
      by_cases hc : c = '%'
      · subst hc
        have hhead : q.head? ≠ some '%' := by
          intro hh
          obtain ⟨q', rfl⟩ := List.head?_eq_some_iff.mp hh
          exact hq ⟨[], q', rfl⟩
        obtain ⟨r, t, hqt, hr, ht⟩ := exists_span isName q
        by_cases hb : ∃ g, t = '{' :: g
        · obtain ⟨g, rfl⟩ := hb
          by_cases hg : '}' ∈ g
          · obtain ⟨f, rest, rfl, hf⟩ := List.eq_append_cons_of_mem hg
            have hscan := scan_formatted hr hf (by rw [hd, hqt])
            obtain ⟨⟨k, hk, rfl⟩, hstep⟩ := directive_known hhead hd hscan hvec
            obtain ⟨segs, hs⟩ := next ('%' :: k :: '{' :: (f ++ ['}'])) rest _ (by simp [hqt])
              (by simp) (by rw [hstep]; congr 1; simp; omega)
            exact ⟨.formatted k f :: segs, by rw [hqt]; exact .formatted hk hf hs⟩
          · have hstep := initLoop_directive st hhead hd
            have hscan : (scan p i (.start i)).fmtStatus = 1 := by
              rw [scan_brace hr (by rw [hd, hqt])]
              refine (scan_unclosed g hg ?_).1
              rw [← List.drop_drop, ← List.drop_drop, ← List.drop_drop, hd, hqt]
              simp
            rw [hscan, if_neg (by decide)] at hstep
            rw [hstep, (initLoop_grows p (i + 1) _).2 rfl] at herr
            exact absurd herr (by decide)
        · have hf : ∀ c ∈ t.head?, ¬ continues c := by
            intro c hm hcont
            have hn := ht c hm
            simp only [isName, Bool.or_eq_false_iff, beq_eq_false_iff_ne] at hn
            obtain ha | rfl | rfl := hcont
            · exact absurd ha (by simp [hn.1])
            · obtain ⟨g, rfl⟩ := List.head?_eq_some_iff.mp hm
              exact hb ⟨g, rfl⟩
            · exact hn.2 rfl
          have hscan := scan_bare hr hf (by rw [hd, hqt])
          obtain ⟨⟨k, hk, rfl⟩, hstep⟩ := directive_known hhead hd hscan hvec
          obtain ⟨segs, hs⟩ := next ['%', k] t _ (by simp [hqt]) (by simp)
            (by rw [hstep]; rfl)
          exact ⟨.bare k :: segs, by rw [hqt]; exact .bare hk hf hs⟩
      · obtain ⟨s, rest, hqs, hs, hm⟩ := exists_span (fun d => d != '%') (c :: q)
        have hne : s ≠ [] := by
          rintro rfl
          exact hc (by simpa using hm c (by rw [← List.nil_append rest, ← hqs]; rfl))
        have hp : '%' ∉ s := fun hmem => absurd (hs '%' hmem) (by decide)
        obtain ⟨segs, hsegs⟩ := next s rest _ hqs hne (initLoop_literal s hp (by rw [hd, hqs]))
        exact ⟨.literal s :: segs, by rw [hqs]; exact .literal hne hp (by simpa using hm) hsegs⟩

/-! ### The whole parser -/

theorem foldl_addItem_error (vec : List (Str × Str × Nat)) (acc : List FormatItem × Bool) :
    (vec.foldl addItem acc).2 = false ↔ acc.2 = false ∧ ∀ e ∈ vec, Known e := by
  induction vec generalizing acc with
  | nil => simp
  | cons e vec ih =>
    have he : (addItem acc e).2 = false ↔ acc.2 = false ∧ Known e := by
      unfold addItem Known
      split
      · rename_i h0
        simp [h0]
      · rename_i h0
        have hk := findItem_isSome e.1
        split <;> rename_i hf <;> rw [hf] at hk <;> simp_all
    rw [List.foldl_cons, ih, he, List.forall_mem_cons, and_assoc]

def Segment.Keyed : Segment → Prop
  | literal _ => True
  | bare k => k ∈ keys
  | formatted k _ => k ∈ keys

theorem splits_keyed {q : Str} {segs : List Segment} (h : Splits q segs) :
    ∀ s ∈ segs, s.Keyed := by
  induction h with
  | nil => simp
  | literal hs hp hm h ih => exact List.forall_mem_cons.mpr ⟨trivial, ih⟩
  | bare hk hf h ih => exact List.forall_mem_cons.mpr ⟨hk, ih⟩
  | formatted hk hf h ih => exact List.forall_mem_cons.mpr ⟨hk, ih⟩

/-- A segment stands for the item that its entry is given, and the table has it. -/
theorem item_segment {s : Segment} (hs : s.Keyed) :
    s.item = some (itemOf s.entry) ∧ Known s.entry := by
  have directive : ∀ (k : Char) (f : Str), k ∈ keys →
      (findItem [k]).map (fun c => c f) = some (itemOf ([k], f, 1)) ∧ Known ([k], f, 1) := by
    intro k f hk
    obtain ⟨c, hc⟩ := Option.isSome_iff_exists.mp ((findItem_isSome [k]).mpr ⟨k, hk, rfl⟩)
    exact ⟨by simp [itemOf, hc], fun _ => ⟨k, hk, rfl⟩⟩
  cases s with
  | literal s => exact ⟨rfl, fun h => absurd rfl h⟩
  | bare k => exact directive k [] hs
  | formatted k f => exact directive k f hs

theorem entries_splits {q : Str} {segs : List Segment} (h : Splits q segs) :
    entries q = segs.map Segment.entry ∧ (initLoop q 0 ⟨[], [], false⟩).error = false :=
  initLoop_splits h ⟨[], [], false⟩ List.drop_zero (Nat.zero_le _) (.inl rfl)

theorem init_splits {q : Str} {segs : List Segment} (h : Splits q segs) :
    segs.map Segment.item = (LogFormatter.new q).items.map some ∧
      (LogFormatter.new q).isError = false := by
  obtain ⟨hentries, herr⟩ := entries_splits h
  have hkeyed := splits_keyed h
  constructor
  · rw [LogFormatter.new_items, hentries, List.map_map, List.map_map]
    exact List.map_congr_left fun s hs => (item_segment (hkeyed s hs)).1
  · rw [LogFormatter.new_isError]
    refine (foldl_addItem_error (entries q) _).mpr ⟨herr, ?_⟩
    rw [hentries, List.forall_mem_map]
    exact fun s hs => (item_segment (hkeyed s hs)).2

/-- The parser accepts exactly the pattern language, and its items are those of
the segments in order. Adjacent percent signs are left out: the scanner's
treatment of them is not the grammar's. -/
theorem new_isError_iff (pattern : Str) (hp : ¬ ['%', '%'] <:+: pattern) :
    ((LogFormatter.new pattern).isError = false ↔ ∃ segs, Splits pattern segs) ∧
      ∀ segs, Splits pattern segs →
        segs.map Segment.item = (LogFormatter.new pattern).items.map some := by
  refine ⟨⟨fun herr => ?_, fun ⟨segs, h⟩ => (init_splits h).2⟩, fun segs h => (init_splits h).1⟩
  obtain ⟨hloop, hvec⟩ := (foldl_addItem_error _ _).mp herr
  exact splits_of_initLoop pattern ⟨[], [], false⟩ List.drop_zero (Nat.zero_le _) hp hloop hvec

theorem new_isError_iff_dated :
    ((LogFormatter.new "%d{%Y}%T[%p] x%n".toList).isError = false ↔
        ∃ segs, Splits "%d{%Y}%T[%p] x%n".toList segs) ∧
      ∀ segs, Splits "%d{%Y}%T[%p] x%n".toList segs →
        segs.map Segment.item = (LogFormatter.new "%d{%Y}%T[%p] x%n".toList).items.map some :=
  new_isError_iff _ (by decide)

end Mumu.PatternGrammar
