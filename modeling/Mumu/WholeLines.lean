import Mathlib.Data.Set.Function
import Mumu.LockSections
import Mumu.LogAppenders
import Mumu.PointerHeap

namespace Mumu.WholeLines

open Mumu.LogLevels Mumu.LogItems Mumu.PatternScanner Mumu.PointerHeap
open Mumu.Executions Mumu.Mutexes Mumu.LockSections

/-- An event that an appender writes to its stream. -/
structure Line where
  appender : Ptr
  formatter : LogFormatter
  lvl : Level
  event : LogEvent

variable (libc : Libc) {S : Type} (streamOf : Ptr → S)

def Line.text (l : Line) : Str := l.formatter.format libc l.lvl l.event

/-- The loop over the items of the formatter, each of which writes to the stream. -/
def writeItems (l : Line) : List FormatItem → Body Str Line
  | [] => .ret l
  | i :: items => .act (fun ofs => ofs ++ i.format libc l.lvl l.event) fun _ => writeItems l items

/-- The part of `log` in the scope of the appender's lock. Each file appender has
a stream of its own, but all appenders to the standard output have one. The streams
stay open here, and the section before this one that reopens a file is left out. -/
def Line.write (l : Line) : Section exclusive Ptr S Str Line :=
  ⟨l.appender, (), streamOf l.appender, writeItems libc l l.formatter.items, nofun⟩

theorem writeItems_run (l : Line) (items : List FormatItem) (ofs : Str) :
    (writeItems libc l items).run ofs =
      (ofs ++ items.flatMap (FormatItem.format libc l.lvl l.event), l) := by
  induction items generalizing ofs with
  | nil => simp [writeItems, Body.run]
  | cons i items ih =>
    rw [writeItems, Body.run, ih, List.flatMap_cons, List.append_assoc]

theorem write_run (l : Line) (ofs : Str) :
    (l.write libc streamOf).body.run ofs = (ofs ++ l.text libc, l) :=
  writeItems_run libc l l.formatter.items ofs

/-- A section says which line it writes. -/
theorem write_injective : Function.Injective (Line.write libc streamOf) := by
  intro l l' h
  have hrun := congrArg (fun sec => (sec.body.run []).2) h
  simpa only [write_run] using hrun

def client (ls : List Line) : Client exclusive Ptr S Str Line :=
  .ofList (ls.map (Line.write libc streamOf))

variable {libc streamOf}

theorem client_all {P : Section exclusive Ptr S Str Line → Prop} {ls : List Line}
    (hP : ∀ l ∈ ls, P (l.write libc streamOf)) : (client libc streamOf ls).All P := by
  induction ls with
  | nil => trivial
  | cons l ls ih =>
    exact ⟨hP l List.mem_cons_self, fun _ => ih fun l' hl' => hP l' (List.mem_cons_of_mem _ hl')⟩

section

variable [DecidableEq S] {h : List (Entry exclusive Ptr S Str Line)}

theorem serial_result {d : S → Str} (hs : Serial d h)
    (hlines : ∀ e ∈ h, ∃ l : Line, e.call = l.write libc streamOf) :
    ∀ e ∈ h, e.call = e.result.write libc streamOf := by
  induction h generalizing d with
  | nil => exact fun e he => absurd he List.not_mem_nil
  | cons e h ih =>
    intro e' he'
    obtain rfl | he' := List.mem_cons.mp he'
    · obtain ⟨l, hl⟩ := hlines e' List.mem_cons_self
      have hresult := hs.1
      rw [hl, write_run] at hresult
      rw [hresult, hl]
    · exact ih hs.2 (fun e he => hlines e (List.mem_cons_of_mem _ he)) e' he'

/-- What the sections in turn leave in a stream. -/
theorem replay_lines {d : S → Str} (hlines : ∀ e ∈ h, e.call = e.result.write libc streamOf)
    (p : S) :
    replay d h p = d p ++
      ((h.map Entry.result).filter (fun l => streamOf l.appender = p)).flatMap
        (Line.text libc) := by
  induction h generalizing d with
  | nil => exact (List.append_nil _).symm
  | cons e h ih =>
    have hafter : e.after d = Function.update d (streamOf e.result.appender)
        (d (streamOf e.result.appender) ++ e.result.text libc) := by
      rw [Entry.after, hlines e List.mem_cons_self, write_run]
      rfl
    rw [replay, List.foldl_cons, hafter, ← replay,
      ih (fun e' he' => hlines e' (List.mem_cons_of_mem _ he'))]
    by_cases hp : streamOf e.result.appender = p
    · subst hp
      simp
    · simp [hp, Function.update_of_ne (Ne.symm hp)]

/-- Each stream that nobody is writing to is made of whole lines, and each thread's
lines are there once, in their order, all of them when it has come to its end. -/
def LinesWhole (libc : Libc) (streamOf : Ptr → S) (threads : List (List Line)) (streams : S → Str)
    (s : LockSections.State exclusive Ptr S Str Line) : Prop :=
  ∃ order : List (Nat × Line),
    (∀ p, (∀ t ∈ s.threads, ¬ t.Writes p) → s.data p = streams p ++
      ((order.map Prod.snd).filter (fun l => streamOf l.appender = p)).flatMap (Line.text libc)) ∧
    (∀ e ∈ order, e.1 < threads.length) ∧
    ∀ (i : Nat) ls, threads[i]? = some ls →
      ∃ left, ls = (order.filter (fun e => e.1 = i)).map Prod.snd ++ left ∧
        (s.threads[i]? = some (.idle .done) → left = [])

/-- Appenders that write to streams of their own. -/
theorem linesWhole_of_injOn {as : Set Ptr} (has : Set.InjOn streamOf as)
    {threads : List (List Line)} (hthreads : ∀ ls ∈ threads, ∀ l ∈ ls, l.appender ∈ as)
    {streams : S → Str} {acts : List Nat} {s : LockSections.State exclusive Ptr S Str Line}
    (h : exec LockSections.step (initial exclusive (threads.map (client libc streamOf)) streams)
      acts = .ok s) : LinesWhole libc streamOf threads streams s := by
  have hguarded : ∀ c ∈ threads.map (client libc streamOf),
      c.All (Guarded (Function.invFunOn streamOf as)) := by
    intro c hc
    obtain ⟨ls, hls, rfl⟩ := List.mem_map.mp hc
    exact client_all fun l hl => (has.leftInvOn_invFunOn (hthreads ls hls l hl)).symm
  have hs := run_serial exclusive_lawful hguarded h
  have hlines : ∀ e ∈ s.history, ∃ l : Line, e.call = l.write libc streamOf :=
    hs.all (P := fun sec => ∃ l : Line, sec = l.write libc streamOf) fun c hc => by
      obtain ⟨ls, _, rfl⟩ := List.mem_map.mp hc
      exact client_all fun l _ => ⟨l, rfl⟩
  have hresult := serial_result hs.serial hlines
  refine ⟨s.history.map (fun e => (e.thread, e.result)), fun p hp => ?_, fun e he => ?_,
    fun i ls hls => ?_⟩
  · rw [hs.data p hp, replay_lines hresult, List.map_map]
    rfl
  · obtain ⟨e, hmem, rfl⟩ := List.mem_map.mp he
    have hlt := hs.bound e hmem
    rwa [hs.length, List.length_map] at hlt
  · have hclient : (threads.map (client libc streamOf))[i]? = some (client libc streamOf ls) := by
      rw [List.getElem?_map, hls, Option.map_some]
    obtain ⟨t, ht, hpath⟩ := hs.path hclient
    obtain ⟨left, hsplit, hpending⟩ := hpath.ofList
    have hcalls : (s.history.filter (fun e => e.thread = i)).map Entry.call =
        ((s.history.filter (fun e => e.thread = i)).map Entry.result).map
          (Line.write libc streamOf) := by
      rw [List.map_map]
      exact List.map_congr_left fun e he => hresult e (List.mem_filter.mp he).1
    have horder : ((s.history.map (fun e => (e.thread, e.result))).filter (fun e => e.1 = i)).map
        Prod.snd = (s.history.filter (fun e => e.thread = i)).map Entry.result := by
      rw [List.filter_map, List.map_map]
      rfl
    obtain ⟨written, rest, rfl, hwritten, hrest⟩ := List.map_eq_append_iff.mp hsplit
    rw [hcalls] at hwritten
    rw [horder, ← List.map_injective_iff.mpr (write_injective libc streamOf) hwritten]
    refine ⟨rest, rfl, fun hdone => ?_⟩
    obtain rfl := Option.some.inj (hdone.symm.trans ht)
    cases left with
    | nil => exact List.map_eq_nil_iff.mp hrest
    | cons sec left => cases hpending

/-! ### Two appenders to one stream -/

/-- A line of a message and a line break. -/
def message (a : Ptr) (content : Str) : Line :=
  ⟨a, ⟨"%m%n".toList, [.message, .newLine], false, by decide +kernel⟩, .info,
    { (default : LogEvent) with content := content }⟩

theorem message_text (a : Ptr) (content : Str) :
    (message a content).text libc = content ++ ['\n'] := by
  simp [Line.text, message, LogFormatter.format, FormatItem.format]

/-- Two threads that write to one stream through two appenders, whose locks do not
keep their items apart. -/
theorem messages_mixed (libc : Libc) {a b : Ptr} (hab : a ≠ b) (hstream : streamOf b = streamOf a) :
    ∃ s, exec LockSections.step (initial exclusive
        ([[message a ['x']], [message b ['y']]].map (client libc streamOf)) fun _ => [])
        [0, 1, 0, 1, 0, 1, 0, 1, 0, 1] = .ok s ∧
      s.threads = [.idle .done, .idle .done] ∧ s.data (streamOf a) = "xy\n\n".toList := by
  let x : Section exclusive Ptr S Str Line := (message a ['x']).write libc streamOf
  let y : Section exclusive Ptr S Str Line := (message b ['y']).write libc streamOf
  let both : LockSections.State exclusive Ptr S Str Line :=
    ⟨Function.update (Function.update (fun _ => false) a true) b true, fun _ => [],
      [.inside x x.body fun _ => .done, .inside y y.body fun _ => .done], []⟩
  have hfree : Function.update (fun _ => false) a true b = false :=
    Function.update_of_ne hab.symm ..
  have hboth : exec LockSections.step (initial exclusive
      ([[message a ['x']], [message b ['y']]].map (client libc streamOf)) fun _ => []) [0, 1] =
        .ok both := by
    refine exec_cons_ok rfl (exec_cons_ok (step_enter (m := true) rfl ?_) rfl)
    change (if Function.update (fun _ => false) a true b then none else some true) = some true
    rw [hfree]
    rfl
  refine ⟨_, exec_append_ok hboth rfl, rfl, ?_⟩
  have ha : streamOf (message a ['x']).appender = streamOf a := rfl
  have hb : streamOf (message b ['y']).appender = streamOf a := hstream
  simp only [both, x, y, Line.write, ha, hb, Function.update_self]
  rfl

/-- Lines come out whole in every run exactly if no two appenders have one stream. -/
theorem linesWhole_iff (libc : Libc) (streamOf : Ptr → S) (as : Set Ptr) :
    (∀ (threads : List (List Line)) (streams : S → Str) (acts : List Nat)
        (s : LockSections.State exclusive Ptr S Str Line),
        (∀ ls ∈ threads, ∀ l ∈ ls, l.appender ∈ as) →
        exec LockSections.step (initial exclusive (threads.map (client libc streamOf)) streams)
          acts = .ok s →
        LinesWhole libc streamOf threads streams s) ↔
      Set.InjOn streamOf as := by
  constructor
  · intro hwhole a ha b hb hstream
    by_contra hab
    obtain ⟨s, hrun, hthreads, hdata⟩ := messages_mixed libc hab hstream.symm
    obtain ⟨order, hstreams, hbound, hpaths⟩ := hwhole [[message a ['x']], [message b ['y']]]
      (fun _ => []) _ s (by simp [message, ha, hb]) hrun
    have hidle : ∀ t ∈ s.threads, ¬ t.Writes (streamOf a) := by
      rw [hthreads]
      intro t ht
      have hdone : t = .idle .done := List.eq_of_mem_replicate (n := 2) ht
      rw [hdone]
      exact id
    have hline : ∀ l ∈ order.map Prod.snd, ∃ c, l.text libc = [c, '\n'] := by
      intro l hl
      obtain ⟨e, he, rfl⟩ := List.mem_map.mp hl
      have hmem : e.2 ∈ (order.filter (fun e' => e'.1 = e.1)).map Prod.snd :=
        List.mem_map.mpr ⟨e, List.mem_filter.mpr ⟨he, by simp⟩, rfl⟩
      obtain ⟨ls, hls⟩ : ∃ ls, [[message a ['x']], [message b ['y']]][e.1]? = some ls :=
        ⟨_, List.getElem?_eq_getElem (hbound e he)⟩
      obtain ⟨left, hsplit, _⟩ := hpaths e.1 ls hls
      have hown : e.2 ∈ ls := hsplit ▸ List.mem_append_left left hmem
      obtain rfl | rfl : ls = [message a ['x']] ∨ ls = [message b ['y']] := by
        simpa using List.mem_of_getElem? hls
      · exact ⟨'x', by rw [List.mem_singleton.mp hown, message_text]; rfl⟩
      · exact ⟨'y', by rw [List.mem_singleton.mp hown, message_text]; rfl⟩
    have htext := hdata.symm.trans (hstreams (streamOf a) hidle)
    rw [List.nil_append] at htext
    -- the second character of the stream would be a line break
    cases hls : (order.map Prod.snd).filter (fun l => streamOf l.appender = streamOf a) with
    | nil =>
      rw [hls] at htext
      cases htext
    | cons l ls =>
      obtain ⟨c, hc⟩ := hline l (List.mem_filter.mp (hls ▸ List.mem_cons_self)).1
      rw [hls, List.flatMap_cons, hc] at htext
      cases htext
  · intro has threads streams acts s hthreads h
    exact linesWhole_of_injOn has hthreads h

end

end Mumu.WholeLines
