import Mumu.EventRouting
import Mumu.LoggerViews

namespace Mumu.ConfigReload

open Mumu.LogLevels Mumu.LogItems Mumu.PatternScanner Mumu.LogAppenders Mumu.Loggers
open Mumu.PointerHeap Mumu.KeyedSets Mumu.LogDelivery Mumu.LogIniter Mumu.LoggerFrames
open Mumu.EventRouting Mumu.LoggerViews

/-! ### A logger at work -/

/-- The logger of a name, in a world where no two loggers share an appender. -/
structure Holds (w : World) (n : Str) (p : Ptr) (l : Logger) : Prop where
  wellFormed : WellFormed w
  separate : Separate w
  bound : KeyedMap.get? w.managed n = some p
  logger : w.loggers.get? p = some l

section

variable {w : World} {n : Str} {p : Ptr} {l : Logger} (env : Env)

theorem getLogger_holds (hw : WellFormed w) (hs : Separate w) (n : Str) :
    ∃ l, Holds (w.getLogger n).1 n (w.getLogger n).2 l ∧
      loggerConf (w.getLogger n).1 l = view w n ∧
      Spares (fun m => m = n) w (w.getLogger n).1 := by
  have hwf := getLogger_wellFormed hw n
  have hb := getLogger_bound (w := w) n
  unfold World.getLogger at hwf hb ⊢
  split
  · rename_i q hq
    obtain ⟨l, hl, _⟩ := hw.bound n q hq
    exact ⟨l, ⟨hw, hs, hq, hl⟩, (view_eq hq hl).symm, .of_sameConf (.refl w)⟩
  · rename_i hnew
    simp only [hnew] at hwf hb
    have hold : ∀ q l, (w.loggers.alloc { Logger.new n with root := some w.root }).get? q = some l →
        l.appenders = [] ∨ w.loggers.get? q = some l := by
      intro q l hl
      obtain rfl | hl := Heap.get?_alloc_cases hl
      · exact .inl rfl
      · exact .inr hl
    refine ⟨_, ⟨hwf, ⟨fun q l hl => ?_, fun q r l m a hl hm hal ham => ?_⟩, hb,
      Heap.get?_alloc_fresh _ _⟩, (view_unmanaged hnew).symm, ⟨fun m hm => ?_, fun m q l _ _ hl =>
        ⟨Heap.get?_alloc_of_some hl, fun _ _ => rfl⟩⟩⟩
    · obtain hnil | hl := hold q l hl
      · rw [hnil]
        exact List.nodup_nil
      · exact hs.nodup q l hl
    · obtain hnil | hl := hold q l hl
      · simp [hnil] at hal
      · obtain hnil | hm := hold r m hm
        · simp [hnil] at ham
        · exact hs.disjoint q r l m a hl hm hal ham
    · exact (KeyedMap.get?_insert_of_new hnew m).trans (if_neg (Ne.symm hm))

theorem setLevel_holds (h : Holds w n p l) (level : Level) :
    Holds (w.setLevel p level) n p { l with level := level } ∧
      Spares (fun m => m = n) w (w.setLevel p level) := by
  refine ⟨⟨setLevel_wellFormed h.wellFormed p level, ?_, h.bound, ?_⟩, ?_⟩
  · exact h.separate.update p _ _ _ (fun l hl => h.separate.nodup p l hl) fun _ _ _ ha => .inl ha
  · exact (Heap.get?_modify_self _ _ _).trans (by rw [h.logger]; rfl)
  · exact spares_update h.wellFormed h.bound _ _ _ fun _ _ _ _ _ _ => rfl

theorem clearAppender_holds (h : Holds w n p l) :
    Holds (w.clearAppender p) n p { l with appenders := [] } ∧
      Spares (fun m => m = n) w (w.clearAppender p) := by
  refine ⟨⟨clearAppender_wellFormed h.wellFormed p, ?_, h.bound, ?_⟩, ?_⟩
  · exact h.separate.update p _ _ _ (fun _ _ => List.nodup_nil) fun _ _ _ ha =>
      absurd ha List.not_mem_nil
  · exact (Heap.get?_modify_self _ _ _).trans (by rw [h.logger]; rfl)
  · exact spares_update h.wellFormed h.bound _ _ _ fun _ _ _ _ _ _ => rfl

theorem setFormatter_holds (h : Holds w n p l) (val : LogFormatter) :
    Holds (w.setFormatter p (some val)) n p { l with formatter := some val } ∧
      Spares (fun m => m = n) w (w.setFormatter p (some val)) := by
  have hwf := setFormatter_wellFormed h.wellFormed p val
  unfold World.setFormatter at hwf ⊢
  simp only [h.logger] at hwf ⊢
  refine ⟨⟨hwf, ?_, h.bound, ?_⟩, ?_⟩
  · exact h.separate.update p _ _ _ (fun l hl => h.separate.nodup p l hl) fun _ _ _ ha => .inl ha
  · exact (Heap.get?_modify_self _ _ _).trans (by rw [h.logger]; rfl)
  · apply spares_update h.wellFormed h.bound _ _ _
    intro q m a hq hm ha
    have hfree : a ∉ l.appenders := fun hal => hq (h.separate.disjoint q p m l a hm h.logger ha hal)
    rw [Heap.get?_modifyAll _ _ _ (World.inherit_idem (some val)), if_neg hfree]
    rfl

/-- The part of a definition that comes before the appenders. -/
theorem setPattern_holds (h : Holds w n p l) (d : LogDefine) :
    Holds (if d.formatter ≠ [] then w.setFormatterPattern p d.formatter else w) n p
        { l with formatter := formatterAfter d l.formatter } ∧
      Spares (fun m => m = n) w
        (if d.formatter ≠ [] then w.setFormatterPattern p d.formatter else w) := by
  by_cases hacc : Accepted d.formatter
  · rw [formatterAfter, if_pos hacc, if_pos hacc.1, World.setFormatterPattern, hacc.2]
    exact setFormatter_holds h (.new d.formatter)
  · have hsame : (if d.formatter ≠ [] then w.setFormatterPattern p d.formatter else w) = w := by
      split
      · rename_i hne
        have herr : (LogFormatter.new d.formatter).isError = true := by
          by_contra herr
          exact hacc ⟨hne, by simpa using herr⟩
        rw [World.setFormatterPattern, herr, if_pos rfl]
      · rfl
    rw [hsame, formatterAfter, if_neg hacc]
    exact ⟨h, .of_sameConf (.refl w)⟩

/-! ### The appenders of a definition -/

def configured (a : LogAppenderDefine) (f : Option LogFormatter) (ap : LogAppender) :
    LogAppender :=
  let ap := ap.setLevel a.level
  let ap := if Accepted a.formatter then ap.setFormatter (some (.new a.formatter)) else ap
  if ap.formatter = none then { ap with formatter := f } else ap

theorem conf_configured (a : LogAppenderDefine) (f : Option LogFormatter) {ap : LogAppender}
    (hnone : ap.formatter = none) (hfalse : ap.hasFormatter = false) :
    conf (configured a f ap) =
      if Accepted a.formatter then ⟨destination ap.kind, a.level, some (.new a.formatter), true⟩
      else ⟨destination ap.kind, a.level, f, false⟩ := by
  rw [configured]
  split
  · simp [LogAppender.setLevel, LogAppender.setFormatter, conf]
  · simp [LogAppender.setLevel, conf, hnone, hfalse]

theorem attach_newAppender (hl : w.loggers.get? p = some l) (a : LogAppenderDefine)
    (ap : LogAppender) :
    attach p a (w.newAppender ap).1 w.appenders.fresh =
      { w with
        loggers := w.loggers.modify p
          (fun l => { l with appenders := l.appenders ++ [w.appenders.fresh] })
        appenders := w.appenders.alloc (configured a l.formatter ap) } := by
  unfold attach configured World.newAppender World.setAppenderLevel World.setAppenderFormatter
  simp only [Heap.modify_alloc_fresh]
  by_cases hacc : Accepted a.formatter
  · simp [if_pos hacc, if_pos (show a.formatter ≠ [] ∧ _ from hacc), World.addAppender, hl,
      Heap.modify_alloc_fresh, LogAppender.setLevel, LogAppender.setFormatter]
  · simp [if_neg hacc, if_neg (show ¬ (a.formatter ≠ [] ∧ _) from hacc), World.addAppender, hl,
      Heap.modify_alloc_fresh, LogAppender.setLevel]

/-- What an entry of a definition does: nothing, or one new appender at the end. -/
theorem addDefined_cases (hl : w.loggers.get? p = some l) (a : LogAppenderDefine) :
    (entryConf l.formatter a = none ∧ addDefined env p w a = w) ∨
      ∃ ap ticks, entryConf l.formatter a = some (conf ap) ∧ addDefined env p w a =
        { w with
          loggers := w.loggers.modify p
            (fun l => { l with appenders := l.appenders ++ [w.appenders.fresh] })
          appenders := w.appenders.alloc ap
          ticks := ticks } := by
  rw [addDefined]
  by_cases hfile : a.type = 1
  · refine .inr ⟨configured a l.formatter (.newFile a.file (env.opens w.ticks)), w.ticks + 1, ?_, ?_⟩
    · rw [conf_configured a _ rfl rfl, entryConf, destinationOf, if_pos hfile]
      rfl
    · rw [if_pos hfile]
      exact attach_newAppender (w := { w with ticks := w.ticks + 1 }) hl a _
  · by_cases hout : a.type = 2
    · refine .inr ⟨configured a l.formatter .newStdout, w.ticks, ?_, ?_⟩
      · rw [conf_configured a _ rfl rfl, entryConf, destinationOf, if_neg hfile, if_pos hout]
        rfl
      · rw [if_neg hfile, if_pos hout]
        exact attach_newAppender hl a _
    · refine .inl ⟨?_, ?_⟩
      · rw [entryConf, destinationOf, if_neg hfile, if_neg hout]
        rfl
      · rw [if_neg hfile, if_neg hout]

theorem addDefined_holds (h : Holds w n p l) (a : LogAppenderDefine) :
    ∃ l', Holds (addDefined env p w a) n p l' ∧ Spares (fun m => m = n) w (addDefined env p w a) ∧
      loggerConf (addDefined env p w a) l' = ⟨l.level, l.formatter,
        l.appenders.map (confOf w) ++ (entryConf l.formatter a).toList.map some⟩ := by
  have hwf := wellFormed_closed.addDefined env p a h.wellFormed
  obtain ⟨hnone, heq⟩ | ⟨ap, ticks, hsome, heq⟩ := addDefined_cases env h.logger a
  · rw [heq, hnone]
    exact ⟨l, h, .of_sameConf (.refl w), by simp [loggerConf]⟩
  · rw [heq] at hwf ⊢
    rw [hsome]
    have hold : ∀ q m b, w.loggers.get? q = some m → b ∈ m.appenders →
        ((w.appenders.alloc ap).get? b).map conf = confOf w b := by
      intro q m b hm hb
      rw [Heap.get?_alloc, if_neg (Nat.ne_of_lt (attached_lt h.wellFormed hm hb))]
      rfl
    have hfree : ∀ q m, w.loggers.get? q = some m → w.appenders.fresh ∉ m.appenders :=
      fun q m hm hmem => Nat.lt_irrefl _ (attached_lt h.wellFormed hm hmem)
    refine ⟨{ l with appenders := l.appenders ++ [w.appenders.fresh] }, ⟨hwf, ?_, h.bound, ?_⟩, ?_, ?_⟩
    · refine h.separate.update p _ _ _ (fun m hm => ?_) fun m hm b hb => ?_
      · refine List.nodup_append.mpr ⟨h.separate.nodup p m hm, by simp, fun b hb c hc hbc => ?_⟩
        obtain rfl := List.mem_singleton.mp hc
        exact hfree p m hm (hbc ▸ hb)
      · obtain hb | hb := List.mem_append.mp hb
        · exact .inl hb
        · obtain rfl := List.mem_singleton.mp hb
          exact .inr hfree
    · exact (Heap.get?_modify_self _ _ _).trans (by rw [h.logger]; rfl)
    · exact spares_update h.wellFormed h.bound _ _ _ fun q m b _ hm hb => hold q m b hm hb
    · have hkept : l.appenders.map (fun b => ((w.appenders.alloc ap).get? b).map conf) =
          l.appenders.map (confOf w) :=
        List.map_congr_left fun b hb => hold p l b h.logger hb
      have hnew : ((w.appenders.alloc ap).get? w.appenders.fresh).map conf = some (conf ap) := by
        rw [Heap.get?_alloc_fresh, Option.map_some]
      change LoggerConf.mk _ _ ((l.appenders ++ [w.appenders.fresh]).map
        (fun b => ((w.appenders.alloc ap).get? b).map conf)) = _
      rw [List.map_append, hkept, List.map_singleton, hnew]
      rfl

theorem addAllDefined_holds (as : List LogAppenderDefine) (h : Holds w n p l) :
    ∃ l', Holds (as.foldl (addDefined env p) w) n p l' ∧
      Spares (fun m => m = n) w (as.foldl (addDefined env p) w) ∧
      loggerConf (as.foldl (addDefined env p) w) l' = ⟨l.level, l.formatter,
        l.appenders.map (confOf w) ++ (entryConfs l.formatter as).map some⟩ := by
  induction as generalizing w l with
  | nil => exact ⟨l, h, .of_sameConf (.refl w), by simp [loggerConf, entryConfs]⟩
  | cons a as ih =>
    obtain ⟨m, hm, hspares, hconf⟩ := addDefined_holds env h a
    obtain ⟨l', hl', hspares', hconf'⟩ := ih hm
    obtain ⟨hlevel, hformatter, happenders⟩ := LoggerConf.mk.inj hconf
    refine ⟨l', hl', hspares.trans hspares', ?_⟩
    rw [List.foldl_cons, hconf', happenders, hlevel, hformatter]
    cases he : entryConf l.formatter a <;> simp [entryConfs, he]

end

/-! ### One definition -/

/-- A world in which the loggers of the old definitions exist. -/
structure Tidy (oldValue : LogDefines) (w : World) : Prop where
  wellFormed : WellFormed w
  separate : Separate w
  bound : ∀ d ∈ oldValue, ∃ p, KeyedMap.get? w.managed d.name = some p

/-- A step of a reload that is about one name. -/
structure Settles (oldValue : LogDefines) (n : Str) (c : LoggerConf) (w w' : World) : Prop where
  tidy : Tidy oldValue w'
  spares : Spares (fun m => m = n) w w'
  bound : ∃ p, KeyedMap.get? w'.managed n = some p
  view_eq : view w' n = c

theorem Tidy.spared {oldValue : LogDefines} {n : Str} {w w' : World} (h : Tidy oldValue w)
    (hs : Spares (fun m => m = n) w w') (hn : ∃ p, KeyedMap.get? w'.managed n = some p) :
    ∀ d ∈ oldValue, ∃ p, KeyedMap.get? w'.managed d.name = some p := by
  intro d hd
  by_cases hdn : d.name = n
  · exact hdn ▸ hn
  · obtain ⟨p, hp⟩ := h.bound d hd
    exact ⟨p, (hs.managed d.name hdn).trans hp⟩

theorem Holds.settles {oldValue : LogDefines} {w w' : World} {n : Str} {p : Ptr} {l : Logger}
    (h : Holds w' n p l) (hw : Tidy oldValue w) (hs : Spares (fun m => m = n) w w') :
    Settles oldValue n (loggerConf w' l) w w' :=
  ⟨⟨h.wellFormed, h.separate, hw.spared hs ⟨p, h.bound⟩⟩, hs, ⟨p, h.bound⟩,
    LoggerViews.view_eq h.bound h.logger⟩

section

variable {oldValue : LogDefines} {w : World}

theorem applyDefine_settles (env : Env) (hw : Tidy oldValue w) (i : LogDefine) :
    Settles oldValue i.name (defined i (formatterAfter i (view w i.name).formatter)) w
      (applyDefine env w i) := by
  obtain ⟨l, h₀, hview, hs₀⟩ := getLogger_holds hw.wellFormed hw.separate i.name
  obtain ⟨h₁, hs₁⟩ := setLevel_holds h₀ i.level
  obtain ⟨h₂, hs₂⟩ := setPattern_holds h₁ i
  obtain ⟨h₃, hs₃⟩ := clearAppender_holds h₂
  obtain ⟨l', h₄, hs₄, hconf⟩ := addAllDefined_holds env i.appenders h₃
  have hsettles := h₄.settles hw ((((hs₀.trans hs₁).trans hs₂).trans hs₃).trans hs₄)
  rw [hconf] at hsettles
  rw [← hview]
  exact hsettles

theorem removeDefine_settles (hw : Tidy oldValue w) (i : LogDefine) :
    Settles oldValue i.name (removed (view w i.name).formatter) w (removeDefine w i) := by
  obtain ⟨l, h₀, hview, hs₀⟩ := getLogger_holds hw.wellFormed hw.separate i.name
  obtain ⟨h₁, hs₁⟩ := setLevel_holds h₀ .unkonw
  obtain ⟨h₂, hs₂⟩ := clearAppender_holds h₁
  have hsettles := h₂.settles hw ((hs₀.trans hs₁).trans hs₂)
  rw [← hview]
  exact hsettles

theorem settles_self (hw : Tidy oldValue w) {d : LogDefine} (hd : d ∈ oldValue) :
    Settles oldValue d.name (view w d.name) w w :=
  ⟨hw, .of_sameConf (.refl w), hw.bound d hd, rfl⟩

theorem applyNew_settles (env : Env) (hw : Tidy oldValue w) (i : LogDefine) :
    Settles oldValue i.name (reloaded (oldValue.find? i.name) (some i) (view w i.name)) w
      (applyNew env oldValue w i) := by
  unfold applyNew reloaded
  cases hf : oldValue.find? i.name with
  | none => exact applyDefine_settles env hw i
  | some d =>
    by_cases hi : i = d
    · simp only [hi, if_true]
      exact settles_self hw (KeyedSet.find?_eq_some.mp hf).1
    · simp only [if_neg hi, if_neg (show some d ≠ some i by simpa [eq_comm] using hi)]
      exact applyDefine_settles env hw i

theorem removeOld_settles (newValue : LogDefines) (hw : Tidy oldValue w) {d : LogDefine}
    (hd : d ∈ oldValue) :
    Settles oldValue d.name
      (if newValue.find? d.name = none then removed (view w d.name).formatter else view w d.name) w
      (removeOld newValue w d) := by
  rw [removeOld]
  cases newValue.find? d.name with
  | none => exact removeDefine_settles hw d
  | some e => exact settles_self hw hd

/-! ### A whole reload -/

def namedIn (ds : List LogDefine) (n : Str) : Prop := ∃ d ∈ ds, d.name = n

instance (ds : List LogDefine) (n : Str) : Decidable (namedIn ds n) :=
  inferInstanceAs (Decidable (∃ d ∈ ds, d.name = n))

/-- Steps about different names do not meet. -/
theorem foldl_settles {step : World → LogDefine → World} {g : LogDefine → LoggerConf → LoggerConf}
    (ds : List LogDefine) (hds : ds.Pairwise (fun d e => d.name < e.name))
    (hstep : ∀ w, Tidy oldValue w → ∀ d ∈ ds,
      Settles oldValue d.name (g d (view w d.name)) w (step w d)) (hw : Tidy oldValue w) :
    Tidy oldValue (ds.foldl step w) ∧ Spares (namedIn ds) w (ds.foldl step w) ∧
      ∀ d ∈ ds, (∃ p, KeyedMap.get? (ds.foldl step w).managed d.name = some p) ∧
        view (ds.foldl step w) d.name = g d (view w d.name) := by
  induction ds generalizing w with
  | nil => exact ⟨hw, .of_sameConf (.refl w), fun d hd => absurd hd List.not_mem_nil⟩
  | cons d ds ih =>
    obtain ⟨hlt, hds'⟩ := List.pairwise_cons.mp hds
    have hd := hstep w hw d (by simp)
    obtain ⟨htidy, hspares, hview⟩ := ih hds' (fun w hw e he => hstep w hw e (by simp [he])) hd.tidy
    rw [List.foldl_cons]
    refine ⟨htidy, (hd.spares.mono fun m hm => ⟨d, by simp, hm.symm⟩).trans
      (hspares.mono fun m ⟨e, he, hem⟩ => ⟨e, by simp [he], hem⟩), fun e he => ?_⟩
    obtain rfl | he := List.mem_cons.mp he
    · have hfree : ¬ namedIn ds e.name := fun ⟨f, hf, hfe⟩ => (hlt f hf).ne hfe.symm
      obtain ⟨p, hp⟩ := hd.bound
      exact ⟨⟨p, (hspares.managed _ hfree).trans hp⟩,
        (hspares.view_eq hd.tidy.wellFormed hfree).trans hd.view_eq⟩
    · obtain ⟨hbound, heq⟩ := hview e he
      exact ⟨hbound, by rw [heq, hd.spares.view_eq hw.wellFormed (hlt e he).ne']⟩

theorem find?_of_namedIn {v : LogDefines} {n : Str} (h : namedIn v.toList n) :
    ∃ d ∈ v, d.name = n ∧ v.find? n = some d := by
  obtain ⟨d, hd, hn⟩ := h
  exact ⟨d, hd, hn, KeyedSet.find?_eq_some.mpr ⟨hd, hn⟩⟩

theorem find?_of_not_namedIn {v : LogDefines} {n : Str} (h : ¬ namedIn v.toList n) :
    v.find? n = none :=
  KeyedSet.find?_eq_none.mpr fun d hd hn => h ⟨d, hd, hn⟩

/-- What the two loops of the listener do to every name. -/
theorem reload_spec (env : Env) (newValue : LogDefines) (hw : Tidy oldValue w) :
    Tidy oldValue (reload env oldValue newValue w) ∧ Tidy newValue (reload env oldValue newValue w) ∧
      Spares (fun n => namedIn oldValue.toList n ∨ namedIn newValue.toList n) w
        (reload env oldValue newValue w) ∧
      ∀ n, view (reload env oldValue newValue w) n =
        reloaded (oldValue.find? n) (newValue.find? n) (view w n) := by
  rw [reload]
  obtain ⟨ht, hs, hv⟩ := foldl_settles (g := fun d => reloaded (oldValue.find? d.name) (some d))
    newValue.toList newValue.sorted (fun w hw d _ => applyNew_settles env hw d) hw
  generalize newValue.toList.foldl (applyNew env oldValue) w = u at ht hs hv
  obtain ⟨ht', hs', hv'⟩ := foldl_settles
    (g := fun d c => if newValue.find? d.name = none then removed c.formatter else c)
    oldValue.toList oldValue.sorted (fun w hw d hd => removeOld_settles newValue hw hd) ht
  generalize oldValue.toList.foldl (removeOld newValue) u = x at ht' hs' hv'
  refine ⟨ht', ⟨ht'.wellFormed, ht'.separate, fun d hd => ?_⟩,
    (hs.mono fun n => .inr).trans (hs'.mono fun n => .inl), fun n => ?_⟩
  · by_cases hold : namedIn oldValue.toList d.name
    · obtain ⟨e, he, hen⟩ := hold
      exact hen ▸ (hv' e he).1
    · obtain ⟨p, hp⟩ := (hv d hd).1
      exact ⟨p, (hs'.managed _ hold).trans hp⟩
  · have hnew : view u n = if namedIn newValue.toList n then
        reloaded (oldValue.find? n) (newValue.find? n) (view w n) else view w n := by
      split
      · rename_i hn
        obtain ⟨d, hd, rfl, hfind⟩ := find?_of_namedIn hn
        rw [hfind]
        exact (hv d hd).2
      · rename_i hn
        exact hs.view_eq hw.wellFormed hn
    by_cases hold : namedIn oldValue.toList n
    · obtain ⟨e, he, rfl, hfind⟩ := find?_of_namedIn hold
      rw [(hv' e he).2, hnew]
      by_cases hn : namedIn newValue.toList e.name
      · obtain ⟨d, _, _, hfind'⟩ := find?_of_namedIn hn
        rw [if_pos hn, if_neg (by simp [hfind'])]
      · rw [if_neg hn, find?_of_not_namedIn hn, if_pos rfl, hfind]
        rfl
    · rw [hs'.view_eq ht.wellFormed hold, hnew, find?_of_not_namedIn hold]
      split
      · rfl
      · rename_i hn
        rw [find?_of_not_namedIn hn]
        rfl

end

end Mumu.ConfigReload
