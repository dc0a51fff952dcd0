import Mathlib.Algebra.Group.Nat.Defs
import Mumu.FileRecovery
import Mumu.KeyedSets
import Mumu.PointerHeap
import Mathlib.Data.Char
import Mathlib.Data.List.Lex

namespace Mumu.FileRotation

open Mumu.LogLevels Mumu.LogItems Mumu.PatternScanner Mumu.LogAppenders Mumu.Executions
open Mumu.PointerHeap Mumu.KeyedSets Mumu.FileRecovery

/-! ### The file system -/

/-- What the files hold, and which file bears a name. -/
structure Disk where
  files : Heap Str
  names : KeyedMap Str Ptr
  bound : ∀ n p, KeyedMap.get? names n = some p → p < files.fresh

namespace Disk

def content (d : Disk) (p : Ptr) : Str := (d.files.get? p).getD []

/-- Open a file for appending, which makes it if the name has none. -/
def openFile (d : Disk) (n : Str) : Disk × Ptr :=
  match hn : KeyedMap.get? d.names n with
  | some p => (d, p)
  | none =>
    (⟨d.files.alloc [], d.names.insert (n, d.files.fresh), by
      intro m p hm
      have hfresh : (d.files.alloc []).fresh = d.files.fresh + 1 := by simp [Heap.fresh, Heap.alloc]
      rw [KeyedMap.get?_insert_of_new hn] at hm
      split at hm
      · obtain rfl := Option.some.inj hm
        exact Nat.lt_of_lt_of_eq (Nat.lt_succ_self _) hfresh.symm
      · exact Nat.lt_of_lt_of_eq (Nat.lt_succ_of_lt (d.bound m p hm)) hfresh.symm⟩, d.files.fresh)

def append (d : Disk) (p : Ptr) (text : Str) : Disk :=
  ⟨d.files.modify p (fun t => t ++ text), d.names, by
    intro m q hm
    have hfresh : (d.files.modify p (fun t => t ++ text)).fresh = d.files.fresh := by
      simp [Heap.fresh, Heap.modify]
    exact hfresh ▸ d.bound m q hm⟩

def unlink (d : Disk) (n : Str) : Disk :=
  ⟨d.files, d.names.erase n, fun m p hm =>
    d.bound m p (KeyedMap.get?_eq_some.mpr (KeyedSet.mem_erase.mp (KeyedMap.get?_eq_some.mp hm)).1)⟩

/-- A file that bore the new name before is no longer found under it. -/
def rename (d : Disk) (n m : Str) : Disk :=
  match hn : KeyedMap.get? d.names n with
  | none => d
  | some p =>
    ⟨d.files, KeyedMap.set (d.names.erase n) m p, by
      intro k q hk
      obtain hk | ⟨hk, _⟩ := KeyedMap.mem_set.mp (KeyedMap.get?_eq_some.mp hk)
      · cases hk
        exact d.bound n p hn
      · exact d.bound k q (KeyedMap.get?_eq_some.mpr (KeyedSet.mem_erase.mp hk).1)⟩

theorem openFile_spec (d : Disk) (n : Str) :
    KeyedMap.get? (d.openFile n).1.names n = some (d.openFile n).2 ∧
      ∀ p, (d.openFile n).1.content p = d.content p := by
  unfold openFile
  split
  · rename_i p hp
    exact ⟨hp, fun _ => rfl⟩
  · rename_i hnew
    refine ⟨(KeyedMap.get?_insert_of_new hnew n).trans (if_pos rfl), fun p => ?_⟩
    rw [content, content, Heap.get?_alloc]
    split
    · rename_i hp
      rw [hp, Option.getD_some]
      cases hf : d.files.get? d.files.fresh with
      | none => rfl
      | some t => exact absurd rfl (Heap.ne_fresh hf)
    · rfl

theorem content_append (d : Disk) {p : Ptr} (hp : p < d.files.fresh) (text : Str) (q : Ptr) :
    (d.append p text).content q = if p = q then d.content q ++ text else d.content q := by
  have hsome : ∃ t, d.files.get? p = some t := ⟨_, List.getElem?_eq_getElem hp⟩
  obtain ⟨t, ht⟩ := hsome
  rw [content, content, append, Heap.get?_modify]
  split
  · rename_i hpq
    rw [← hpq, ht]
    rfl
  · rfl

end Disk

/-! ### The appender -/

/-- A file appender, with the file that its stream is open on and the text that the
stream has not handed to the system yet. -/
structure FileLogAppender where
  filename : Str
  level : Level
  formatter : Option LogFormatter
  hasFormatter : Bool
  filestream : FileStream
  lastTime : Nat
  file : Option Ptr
  buffer : Str

/-- What the model of a single appender sees. -/
def FileLogAppender.toLogAppender (a : FileLogAppender) : LogAppender :=
  ⟨.file a.filename a.filestream a.lastTime, a.level, a.formatter, a.hasFormatter⟩

/-- What became of an event: its text, and the file whose stream got it. -/
structure Delivery where
  file : Option Ptr
  text : Str

/-- The deliveries are a record of the past. -/
structure State where
  appender : FileLogAppender
  disk : Disk
  delivered : List Delivery

/-- The file is open after the test that comes before it is opened again. -/
def staysOpen (s : FileStream) : Bool := (if s.good then s.close else s).isOpen

namespace State

variable (s : State)

/-- The stream hands the first characters of its buffer to the system. -/
def spill (n : Nat) : State :=
  match s.appender.file with
  | none => s
  | some p =>
    { s with
      appender := { s.appender with buffer := s.appender.buffer.drop n }
      disk := s.disk.append p (s.appender.buffer.take n) }

def flush : State := s.spill s.appender.buffer.length

/-- The system opens the file that bears the name at this moment, after the stream
has written out what was meant for the file before. A stream that is not closed
stays on its file. -/
def reopen (opens : Bool) : State :=
  let filestream := (LogAppender.reopen opens s.appender.filestream).1
  if staysOpen s.appender.filestream then
    { s with appender := { s.appender with filestream := filestream } }
  else
    let s := s.flush
    let a := { s.appender with filestream := filestream, buffer := [] }
    if opens then
      { s with
        appender := { a with file := some (s.disk.openFile a.filename).2 }
        disk := (s.disk.openFile a.filename).1 }
    else { s with appender := { a with file := none } }

def refresh (opens : Bool) (now : Nat) : State :=
  if (s.appender.lastTime + 3) % 2 ^ 64 ≤ now then
    let s := s.reopen opens
    { s with appender := { s.appender with lastTime := now } }
  else s

/-- The file that a write gets to: one to an open file without an error bit succeeds. -/
def target : Option Ptr := if s.appender.filestream.good then s.appender.file else none

/-- A text comes to the buffer, of which the stream then writes out as much as it sees fit. -/
def put (text : Str) (n : Nat) : State :=
  if s.target.isSome then
    spill { s with appender := { s.appender with buffer := s.appender.buffer ++ text } } n
  else s

/-- The line break is one that flushes the stream. -/
def writeItem (libc : Libc) (lvl : Level) (event : LogEvent) (n : Nat) (i : FormatItem) : State :=
  if i = .newLine then (s.put (i.format libc lvl event) n).flush
  else s.put (i.format libc lvl event) n

/-- The loop over the items of the formatter. -/
def writeItems (libc : Libc) (lvl : Level) (event : LogEvent) :
    (Nat → Nat) → List FormatItem → State → State
  | _, [], s => s
  | spills, i :: items, s =>
    writeItems libc lvl event (fun k => spills (k + 1)) items
      (s.writeItem libc lvl event (spills 0) i)

def write (libc : Libc) (spills : Nat → Nat) (f : LogFormatter) (lvl : Level) (event : LogEvent) :
    State :=
  let t := s.writeItems libc lvl event spills f.items
  { t with
    appender := { t.appender with filestream := t.appender.filestream.write true }
    delivered := s.delivered ++ [⟨s.target, f.format libc lvl event⟩] }

def log (libc : Libc) (opens : Bool) (spills : Nat → Nat) (lvl : Level) (event : LogEvent) :
    Except Fault State :=
  if s.appender.level ≤ lvl then
    match s.appender.formatter with
    | none => .error .nullFormatter
    | some f => .ok ((s.refresh opens event.time).write libc spills f lvl event)
  else .ok s

/-- The constructor opens the file. -/
def new (disk : Disk) (filename : Str) (opens : Bool) : State :=
  reopen ⟨⟨filename, .debug, none, false, .closed, 0, none, []⟩, disk, []⟩ opens

/-- What the stream has still to write to a file. -/
def pending (p : Ptr) : Str := if s.appender.file = some p then s.appender.buffer else []

/-- What a file holds once the stream has written it all out. -/
def held (p : Ptr) : Str := s.disk.content p ++ s.pending p

end State

/-- What the program does with the appender, and others with the directory. With each
call of `log` it is given how much of its buffer the stream writes out at each item. -/
inductive Act where
  | log (opens : Bool) (spills : Nat → Nat) (lvl : Level) (event : LogEvent)
  | reopen (opens : Bool)
  | rename (n m : Str)
  | unlink (n : Str)

def step (libc : Libc) (s : State) : Act → Except Fault State
  | .log opens spills lvl event => s.log libc opens spills lvl event
  | .reopen opens => .ok (s.reopen opens)
  | .rename n m => .ok { s with disk := s.disk.rename n m }
  | .unlink n => .ok { s with disk := s.disk.unlink n }

/-! ### The stream -/

/-- A text has gone to the stream, part of it perhaps on to the file, and nothing else
has changed. -/
structure Writes (s t : State) (text : Str) : Prop where
  appender : ∃ buffer, t.appender = { s.appender with buffer := buffer }
  names : t.disk.names = s.disk.names
  fresh : t.disk.files.fresh = s.disk.files.fresh
  delivered : t.delivered = s.delivered
  held : (∀ p, s.appender.file = some p → p < s.disk.files.fresh) →
    ∀ p, t.held p = if s.target = some p then s.held p ++ text else s.held p

namespace Writes

variable {s t u : State} {text : Str}

theorem refl (s : State) : Writes s s [] :=
  ⟨⟨_, rfl⟩, rfl, rfl, rfl, fun _ p => by rw [List.append_nil, ite_self]⟩

theorem file (h : Writes s t text) : t.appender.file = s.appender.file := by
  obtain ⟨buffer, happender⟩ := h.appender
  rw [happender]

theorem target (h : Writes s t text) : t.target = s.target := by
  obtain ⟨buffer, happender⟩ := h.appender
  rw [State.target, State.target, happender]

theorem trans {text' : Str} (h : Writes s t text) (h' : Writes t u text') :
    Writes s u (text ++ text') := by
  obtain ⟨buffer, happender⟩ := h.appender
  obtain ⟨buffer', happender'⟩ := h'.appender
  refine ⟨⟨buffer', by rw [happender', happender]⟩, h'.names.trans h.names, h'.fresh.trans h.fresh,
    h'.delivered.trans h.delivered, fun hbound p => ?_⟩
  have hbound' : ∀ p, t.appender.file = some p → p < t.disk.files.fresh := fun p hp =>
    h.fresh ▸ hbound p (h.file ▸ hp)
  rw [h'.held hbound' p, h.held hbound p, h.target]
  split
  · exact List.append_assoc ..
  · rfl

theorem silent (h : Writes s t text) (h' : Writes t u []) : Writes s u text :=
  List.append_nil text ▸ h.trans h'

end Writes

theorem spill_writes (s : State) (n : Nat) : Writes s (s.spill n) [] := by
  rw [State.spill]
  cases hfile : s.appender.file with
  | none => exact .refl s
  | some q =>
    have hfresh : (s.disk.append q (s.appender.buffer.take n)).files.fresh =
        s.disk.files.fresh := by
      simp [Disk.append, Heap.fresh, Heap.modify]
    refine ⟨⟨_, rfl⟩, rfl, hfresh, rfl, fun hbound p => ?_⟩
    rw [List.append_nil, ite_self, State.held, State.held, State.pending, State.pending]
    dsimp only
    rw [hfile, Disk.content_append s.disk (hbound q hfile)]
    by_cases hp : q = p
    · subst hp
      rw [if_pos rfl, if_pos rfl, if_pos rfl, List.append_assoc, List.take_append_drop]
    · have hne : ¬ some q = some p := fun h => hp (Option.some.inj h)
      rw [if_neg hp, if_neg hne, if_neg hne]

theorem flush_writes (s : State) : Writes s s.flush [] := spill_writes s _

theorem flush_pending (s : State) (p : Ptr) : s.flush.pending p = [] := by
  rw [State.pending, (flush_writes s).file]
  split
  · rename_i hfile
    rw [State.flush, State.spill, hfile]
    exact List.drop_length
  · rfl

theorem put_writes (s : State) (text : Str) (n : Nat) : Writes s (s.put text n) text := by
  rw [State.put]
  cases htarget : s.target with
  | none =>
    exact ⟨⟨_, rfl⟩, rfl, rfl, rfl, fun _ p => by rw [htarget]; rfl⟩
  | some q =>
    have hfile : s.appender.file = some q := by
      rw [State.target] at htarget
      split at htarget
      · exact htarget
      · cases htarget
    have hadd : Writes s
        { s with appender := { s.appender with buffer := s.appender.buffer ++ text } } text := by
      refine ⟨⟨_, rfl⟩, rfl, rfl, rfl, fun _ p => ?_⟩
      rw [State.held, State.held, State.pending, State.pending, htarget]
      dsimp only
      rw [hfile]
      split
      · exact (List.append_assoc ..).symm
      · rfl
    exact hadd.silent (spill_writes _ n)

section

variable (libc : Libc) (lvl : Level) (event : LogEvent)

theorem writeItem_writes (s : State) (n : Nat) (i : FormatItem) :
    Writes s (s.writeItem libc lvl event n i) (i.format libc lvl event) := by
  have hput := put_writes s (i.format libc lvl event) n
  rw [State.writeItem]
  split
  · exact hput.silent (flush_writes _)
  · exact hput

theorem writeItems_writes (s : State) (spills : Nat → Nat) (items : List FormatItem) :
    Writes s (s.writeItems libc lvl event spills items)
      (items.flatMap (FormatItem.format libc lvl event)) := by
  induction items generalizing s spills with
  | nil => exact .refl s
  | cons i items ih => exact (writeItem_writes libc lvl event s (spills 0) i).trans (ih _ _)

/-- A line break at the end leaves nothing in the buffer. -/
theorem writeItems_pending (s : State) (spills : Nat → Nat) {items : List FormatItem}
    (hends : items.getLast? = some .newLine) (p : Ptr) :
    (s.writeItems libc lvl event spills items).pending p = [] := by
  induction items generalizing s spills with
  | nil => cases hends
  | cons i items ih =>
    cases items with
    | nil =>
      obtain rfl : i = .newLine := Option.some.inj hends
      exact flush_pending _ p
    | cons j items =>
      rw [State.writeItems]
      exact ih _ _ (List.getLast?_cons_cons.symm.trans hends)

end

/-! ### Without the files -/

theorem reopen_appender (s : State) (opens : Bool) :
    ∃ file buffer, (s.reopen opens).appender = { s.appender with
      filestream := (LogAppender.reopen opens s.appender.filestream).1
      file := file
      buffer := buffer } := by
  obtain ⟨buffer, h⟩ := (flush_writes s).appender
  rw [State.reopen]
  cases staysOpen s.appender.filestream <;> cases opens <;>
    exact ⟨_, _, by simp only [h]; rfl⟩

theorem refresh_appender (s : State) (opens : Bool) (now : Nat) :
    ∃ stream lastTime file buffer, (s.refresh opens now).appender =
      { s.appender with
        filestream := stream, lastTime := lastTime, file := file, buffer := buffer } := by
  obtain ⟨file, buffer, h⟩ := reopen_appender s opens
  rw [State.refresh]
  split
  · exact ⟨(LogAppender.reopen opens s.appender.filestream).1, now, file, buffer, by simp only [h]⟩
  · exact ⟨_, _, _, _, rfl⟩

theorem refresh_toLogAppender (s : State) (opens : Bool) (now : Nat) :
    (s.refresh opens now).appender.toLogAppender =
      { s.appender.toLogAppender with
        kind := LogAppender.refresh opens now s.appender.toLogAppender.kind } := by
  unfold State.refresh FileLogAppender.toLogAppender LogAppender.refresh
  by_cases hnow : (s.appender.lastTime + 3) % 2 ^ 64 ≤ now
  · obtain ⟨file, buffer, h⟩ := reopen_appender s opens
    simp only [if_pos hnow, h]
  · simp only [if_neg hnow]

theorem write_appender (libc : Libc) (s : State) (spills : Nat → Nat) (f : LogFormatter)
    (lvl : Level) (event : LogEvent) :
    ∃ buffer, (s.write libc spills f lvl event).appender =
      { s.appender with filestream := s.appender.filestream.write true, buffer := buffer } := by
  obtain ⟨buffer, h⟩ := (writeItems_writes libc lvl event s spills f.items).appender
  exact ⟨buffer, by rw [State.write]; simp only [h]⟩

/-- A step of the appender is one of the appender without its file, where writes
succeed. -/
theorem log_toLogAppender (env : Env) (tick : Nat) (hwrites : env.writes tick = true) (s : State)
    (spills : Nat → Nat) (lvl : Level) (event : LogEvent) :
    (s.log env.libc (env.opens tick) spills lvl event).map (fun s => s.appender.toLogAppender) =
      (s.appender.toLogAppender.log env tick lvl event).map Prod.fst := by
  rw [State.log, LogAppender.log, hwrites]
  change _ = (if s.appender.level ≤ lvl then _ else _ : Except Fault _).map Prod.fst
  split
  · change _ =
      (match s.appender.formatter with | none => _ | some f => _ : Except Fault _).map Prod.fst
    cases s.appender.formatter with
    | none => rfl
    | some f =>
      have h := refresh_toLogAppender s (env.opens tick) event.time
      generalize s.refresh (env.opens tick) event.time = t at h
      obtain ⟨buffer, hbuffer⟩ := write_appender env.libc t spills f lvl event
      have hemit : (t.write env.libc spills f lvl event).appender.toLogAppender =
          { t.appender.toLogAppender with
            kind := LogAppender.emit true t.appender.toLogAppender.kind } := by
        rw [hbuffer]
        rfl
      change Except.ok (t.write env.libc spills f lvl event).appender.toLogAppender = _
      rw [hemit, h]
      rfl
  · rfl

/-! ### One step -/

/-- The stream and the file that it is open on. -/
structure Ready (s : State) : Prop where
  sound : Sound s.appender.filestream
  opened : s.appender.filestream.isOpen = s.appender.file.isSome
  bound : ∀ p, s.appender.file = some p → p < s.disk.files.fresh

theorem reopen_eq {s : State} (h : Sound s.appender.filestream) (opens : Bool) :
    s.reopen opens =
      { s with
        appender := { s.appender with
          filestream := (LogAppender.reopen opens s.appender.filestream).1
          file := if opens then some (s.flush.disk.openFile s.appender.filename).2 else none
          buffer := [] }
        disk :=
          if opens then (s.flush.disk.openFile s.appender.filename).1 else s.flush.disk } := by
  have hclosed : staysOpen s.appender.filestream = false := by
    generalize s.appender.filestream = stream at h ⊢
    obtain ⟨isOpen, failbit, badbit⟩ := stream
    rw [Sound] at h
    revert isOpen failbit badbit
    decide
  obtain ⟨buffer, happender⟩ := (flush_writes s).appender
  rw [State.reopen, hclosed]
  cases opens <;> simp [happender, (flush_writes s).delivered]

theorem reopen_ready {s : State} (h : Ready s) (opens : Bool) :
    Ready (s.reopen opens) ∧ (∀ p, (s.reopen opens).held p = s.held p) ∧
      (∀ p, (s.reopen opens).pending p = []) ∧
      (s.reopen opens).delivered = s.delivered ∧
      (opens = true → ∃ p, (s.reopen opens).appender.file = some p ∧
        KeyedMap.get? (s.reopen opens).disk.names s.appender.filename = some p) := by
  obtain ⟨hisOpen, hsound⟩ := reopen_sound h.sound opens
  obtain ⟨hname, hcontent⟩ := s.flush.disk.openFile_spec s.appender.filename
  -- the file that was open gets what the stream had for it
  have hflushed : ∀ p, s.flush.disk.content p = s.held p := by
    intro p
    have hheld := (flush_writes s).held h.bound p
    rw [State.held, flush_pending, List.append_nil, List.append_nil, ite_self] at hheld
    exact hheld
  have hpending : ∀ p, (s.reopen opens).pending p = [] := by
    intro p
    rw [reopen_eq h.sound, State.pending]
    exact ite_self []
  have hheld : ∀ p, (s.reopen opens).disk.content p = s.held p := by
    intro p
    rw [reopen_eq h.sound]
    cases opens with
    | true => exact (hcontent p).trans (hflushed p)
    | false => exact hflushed p
  refine ⟨?_, fun p => by rw [State.held, hpending, List.append_nil, hheld], hpending, ?_⟩
  · rw [reopen_eq h.sound]
    cases opens with
    | true =>
      refine ⟨hsound, hisOpen, fun p hp => ?_⟩
      obtain rfl := Option.some.inj hp
      exact (s.flush.disk.openFile s.appender.filename).1.bound _ _ hname
    | false => exact ⟨hsound, hisOpen, fun p hp => absurd hp (by simp)⟩
  · rw [reopen_eq h.sound]
    refine ⟨rfl, ?_⟩
    rintro rfl
    exact ⟨_, rfl, hname⟩

theorem refresh_ready {s : State} (h : Ready s) (opens : Bool) (now : Nat) :
    Ready (s.refresh opens now) ∧
      (∀ p, (s.refresh opens now).held p = s.held p) ∧
      (s.refresh opens now).delivered = s.delivered ∧
      if (s.appender.lastTime + 3) % 2 ^ 64 ≤ now then
        (s.refresh opens now).appender.lastTime = now ∧
          (opens = true → ∃ p, (s.refresh opens now).appender.file = some p ∧
            KeyedMap.get? (s.refresh opens now).disk.names s.appender.filename = some p)
      else s.refresh opens now = s := by
  rw [State.refresh]
  split
  · obtain ⟨hready, hheld, _, hdelivered, hopened⟩ := reopen_ready h opens
    exact ⟨⟨hready.sound, hready.opened, hready.bound⟩, hheld, hdelivered, rfl, hopened⟩
  · exact ⟨h, fun _ => rfl, rfl, rfl⟩

theorem write_isOpen (ok : Bool) (s : FileStream) : (s.write ok).isOpen = s.isOpen := by
  obtain ⟨isOpen, failbit, badbit⟩ := s
  revert ok isOpen failbit badbit
  decide

theorem Ready.target {s : State} (h : Ready s) : s.target = s.appender.file := by
  rw [State.target]
  split
  · rfl
  · rename_i hgood
    cases hfile : s.appender.file with
    | none => rfl
    | some p => exact absurd (h.sound (h.opened.trans (by rw [hfile]; rfl))) hgood

/-- The text goes to the file that the stream is open on. -/
theorem write_ready {s : State} (h : Ready s) (libc : Libc) (spills : Nat → Nat) (f : LogFormatter)
    (lvl : Level) (event : LogEvent) :
    Ready (s.write libc spills f lvl event) ∧
      (s.write libc spills f lvl event).delivered =
        s.delivered ++ [⟨s.appender.file, f.format libc lvl event⟩] ∧
      (s.write libc spills f lvl event).disk.names = s.disk.names ∧
      (∀ p, (s.write libc spills f lvl event).held p =
        if s.appender.file = some p then s.held p ++ f.format libc lvl event else s.held p) ∧
      (f.items.getLast? = some .newLine →
        ∀ p, (s.write libc spills f lvl event).pending p = []) := by
  have hwrites := writeItems_writes libc lvl event s spills f.items
  obtain ⟨buffer, happender⟩ := write_appender libc s spills f lvl event
  have hsound : Sound (s.appender.filestream.write true) :=
    (write_sound_iff h.sound true).mpr fun hfails => absurd hfails.2 (by simp)
  refine ⟨⟨?_, ?_, fun p hp => ?_⟩, ?_, hwrites.names, fun p => ?_, fun hends p => ?_⟩
  · rw [happender]
    exact hsound
  · rw [happender]
    exact (write_isOpen true s.appender.filestream).trans h.opened
  · rw [happender] at hp
    exact hwrites.fresh ▸ h.bound p hp
  · rw [State.write, h.target]
  · have hheld := hwrites.held h.bound p
    rw [h.target] at hheld
    exact hheld
  · exact writeItems_pending libc lvl event s spills hends p

/-! ### Runs -/

section

variable (libc : Libc) (level : Level) (f : LogFormatter)

/-- The events that pass the appender's level. -/
def accepted (acts : List Act) : List (Level × LogEvent) :=
  acts.filterMap fun
    | .log _ _ lvl event => if level ≤ lvl then some (lvl, event) else none
    | _ => none

def Act.opens : Act → Bool
  | .log opens _ _ _ => opens
  | .reopen opens => opens
  | _ => true

/-- An appender with its level and its formatter. -/
def State.start (disk : Disk) (filename : Str) (opens : Bool) : State :=
  let s := State.new disk filename opens
  { s with appender := { s.appender with level := level, formatter := some f } }

variable (disk : Disk) (filename : Str)

structure Inv (opens : Bool) (done : List Act) (s : State) : Prop where
  ready : Ready s
  named : s.appender.filename = filename
  leveled : s.appender.level = level
  formats : s.appender.formatter = some f
  texts : s.delivered.map Delivery.text =
    (accepted level done).map (fun e => f.format libc e.1 e.2)
  held : ∀ p, s.held p = disk.content p ++
    (s.delivered.filter (fun e => e.file = some p)).flatMap Delivery.text
  flushed : f.items.getLast? = some .newLine → ∀ p, s.pending p = []
  lastTime : s.appender.lastTime = 0 ∨
    ∃ e ∈ accepted level done, e.2.time = s.appender.lastTime
  opened : (opens = true ∧ ∀ a ∈ done, a.opens = true) →
    s.appender.file.isSome ∧ ∀ e ∈ s.delivered, e.file.isSome

variable {libc level f disk filename} {opens : Bool}

theorem start_inv :
    Inv libc level f disk filename opens [] (State.start level f disk filename opens) := by
  let closed : State := ⟨⟨filename, .debug, none, false, .closed, 0, none, []⟩, disk, []⟩
  have hready : Ready closed :=
    ⟨by simp [closed, Sound, FileStream.closed], rfl, fun p hp => absurd hp (by simp [closed])⟩
  obtain ⟨hr, hheld, hpending, hdelivered, hopened⟩ := reopen_ready hready opens
  obtain ⟨file, buffer, happender⟩ := reopen_appender closed opens
  have hnone : (State.start level f disk filename opens).delivered = [] := hdelivered
  refine ⟨⟨hr.sound, hr.opened, hr.bound⟩, ?_, rfl, rfl, ?_, fun p => ?_, fun _ => hpending,
    .inl ?_, fun h => ⟨?_, ?_⟩⟩
  · exact congrArg FileLogAppender.filename happender
  · exact congrArg (List.map Delivery.text) hdelivered
  · rw [hnone]
    exact hheld p
  · exact congrArg FileLogAppender.lastTime happender
  · obtain ⟨p, hp, _⟩ := hopened h.1
    exact Option.isSome_iff_exists.mpr ⟨p, hp⟩
  · rw [hnone]
    exact fun e he => absurd he List.not_mem_nil

/-- What a call of `log` does when the level lets the event pass. -/
theorem log_accepted {done : List Act} {s : State} (h : Inv libc level f disk filename opens done s)
    (now : Bool) (spills : Nat → Nat) {lvl : Level} (event : LogEvent) (hlvl : level ≤ lvl) :
    ∃ t, step libc s (.log now spills lvl event) = .ok t ∧
      Inv libc level f disk filename opens (done ++ [.log now spills lvl event]) t ∧
      ((s.appender.lastTime + 3) % 2 ^ 64 ≤ event.time → now = true →
        ∃ p, KeyedMap.get? t.disk.names filename = some p ∧
          t.delivered.getLast? = some ⟨some p, f.format libc lvl event⟩) := by
  obtain ⟨hready, hheld, hdelivered, hdue⟩ := refresh_ready h.ready now event.time
  obtain ⟨stream, lastTime, file, buffer, happender⟩ := refresh_appender s now event.time
  obtain ⟨hready', hdelivered', hnames, hheld', hflushed⟩ :=
    write_ready hready libc spills f lvl event
  obtain ⟨buffer', happender'⟩ :=
    write_appender libc (s.refresh now event.time) spills f lvl event
  have hstep : step libc s (.log now spills lvl event) =
      .ok ((s.refresh now event.time).write libc spills f lvl event) := by
    rw [step, State.log, h.leveled, if_pos hlvl, h.formats]
  have haccepted : accepted level (done ++ [.log now spills lvl event]) =
      accepted level done ++ [(lvl, event)] := by
    simp [accepted, hlvl]
  have hwritten : ((s.refresh now event.time).write libc spills f lvl event).appender =
      { s.appender with
        filestream := stream.write true, lastTime := lastTime, file := file
        buffer := buffer' } := by
    rw [happender', happender]
  rw [hdelivered] at hdelivered'
  refine ⟨_, hstep, ⟨hready', ?_, ?_, ?_, ?_, fun p => ?_, hflushed, ?_, fun hall => ?_⟩,
    fun hnow hopens => ?_⟩
  · exact (congrArg FileLogAppender.filename hwritten).trans h.named
  · exact (congrArg FileLogAppender.level hwritten).trans h.leveled
  · exact (congrArg FileLogAppender.formatter hwritten).trans h.formats
  · rw [hdelivered', haccepted, List.map_append, List.map_append, h.texts]
    rfl
  · rw [hheld', hdelivered', List.filter_append, List.flatMap_append, hheld, h.held]
    by_cases hp : (s.refresh now event.time).appender.file = some p <;> simp [hp]
  · have htime : ((s.refresh now event.time).write libc spills f lvl event).appender.lastTime =
        (s.refresh now event.time).appender.lastTime := by
      rw [happender']
    rw [haccepted, htime]
    split at hdue
    · exact .inr ⟨(lvl, event), by simp, hdue.1.symm⟩
    · rw [hdue]
      exact h.lastTime.imp_right fun ⟨e, he, htime⟩ => ⟨e, List.mem_append_left _ he, htime⟩
  · obtain ⟨hfile, hkept⟩ := h.opened ⟨hall.1, fun a ha => hall.2 a (List.mem_append_left _ ha)⟩
    have hopen : (s.refresh now event.time).appender.file.isSome := by
      split at hdue
      · obtain ⟨p, hp, _⟩ := hdue.2 (hall.2 (.log now spills lvl event) (by simp))
        exact Option.isSome_iff_exists.mpr ⟨p, hp⟩
      · rw [hdue]
        exact hfile
    refine ⟨?_, fun e he => ?_⟩
    · rw [happender']
      exact hopen
    · rw [hdelivered'] at he
      obtain he | he := List.mem_append.mp he
      · exact hkept e he
      · rw [List.mem_singleton.mp he]
        exact hopen
  · rw [if_pos hnow] at hdue
    obtain ⟨p, hp, hname⟩ := hdue.2 hopens
    refine ⟨p, ?_, ?_⟩
    · rw [hnames, ← h.named]
      exact hname
    · rw [hdelivered', hp, List.getLast?_concat]

theorem accepted_silent {a : Act} (ha : accepted level [a] = []) (done : List Act) :
    accepted level (done ++ [a]) = accepted level done := by
  rw [accepted, List.filterMap_append]
  exact (congrArg _ ha).trans (List.append_nil _)

/-- Another process has changed the directory. -/
theorem Inv.relink {done : List Act} {s : State} (h : Inv libc level f disk filename opens done s)
    {a : Act} (ha : accepted level [a] = []) {d : Disk} (hd : d.files = s.disk.files) :
    Inv libc level f disk filename opens (done ++ [a]) { s with disk := d } := by
  have hsame := accepted_silent ha done
  refine ⟨⟨h.ready.sound, h.ready.opened, fun p hp => ?_⟩, h.named, h.leveled, h.formats, ?_,
    fun p => ?_, h.flushed, ?_, fun hall => ?_⟩
  · rw [hd]
    exact h.ready.bound p hp
  · rw [hsame]
    exact h.texts
  · have hcontent : d.content p = s.disk.content p := by rw [Disk.content, Disk.content, hd]
    rw [← h.held p, State.held, State.held, hcontent]
    rfl
  · rw [hsame]
    exact h.lastTime
  · exact h.opened ⟨hall.1, fun a ha => hall.2 a (List.mem_append_left _ ha)⟩

theorem step_inv {done : List Act} {s : State} (h : Inv libc level f disk filename opens done s)
    (a : Act) :
    ∃ t, step libc s a = .ok t ∧ Inv libc level f disk filename opens (done ++ [a]) t := by
  cases a with
  | log now spills lvl event =>
    by_cases hlvl : level ≤ lvl
    · obtain ⟨t, ht, hinv, _⟩ := log_accepted h now spills event hlvl
      exact ⟨t, ht, hinv⟩
    · refine ⟨s, ?_, h.relink (by simp [accepted, hlvl]) rfl⟩
      rw [step, State.log, h.leveled, if_neg hlvl]
  | reopen now =>
    have hsame : accepted level (done ++ [.reopen now]) = accepted level done :=
      accepted_silent rfl done
    obtain ⟨hready, hheld, hpending, hdelivered, hopened⟩ := reopen_ready h.ready now
    obtain ⟨file, buffer, happender⟩ := reopen_appender s now
    refine ⟨_, rfl, ⟨hready, ?_, ?_, ?_, ?_, fun p => ?_, fun _ => hpending, ?_, fun hall => ?_⟩⟩
    · exact (congrArg FileLogAppender.filename happender).trans h.named
    · exact (congrArg FileLogAppender.level happender).trans h.leveled
    · exact (congrArg FileLogAppender.formatter happender).trans h.formats
    · rw [hsame, hdelivered, h.texts]
    · rw [hheld, hdelivered, h.held]
    · rw [hsame, congrArg FileLogAppender.lastTime happender]
      exact h.lastTime
    · obtain ⟨p, hp, _⟩ := hopened (hall.2 (.reopen now) (by simp))
      rw [hdelivered]
      exact ⟨Option.isSome_iff_exists.mpr ⟨p, hp⟩,
        (h.opened ⟨hall.1, fun a ha => hall.2 a (List.mem_append_left _ ha)⟩).2⟩
  | rename n m =>
    refine ⟨_, rfl, h.relink rfl ?_⟩
    unfold Disk.rename
    split <;> rfl
  | unlink n => exact ⟨_, rfl, h.relink rfl rfl⟩

/-- After a line break at its end, all that the stream was given is in the file. -/
theorem Inv.content_eq {done : List Act} {s : State}
    (h : Inv libc level f disk filename opens done s) (hends : f.items.getLast? = some .newLine)
    (p : Ptr) : s.disk.content p = s.held p := by
  rw [State.held, h.flushed hends, List.append_nil]

/-- Every event that passes is written once, in order, and as a whole to one file,
unless the last attempt to open the file has failed. A file has got all that was
written to it, up to what the stream on it has still to write out, which is nothing
for a pattern that ends its lines. An event that comes three seconds after all before
it goes to the file that bears the name at that moment. -/
theorem run_writesOnce (libc : Libc) (level : Level) (f : LogFormatter) (disk : Disk)
    (filename : Str) (opens : Bool) (acts : List Act) :
    ∃ s, exec (step libc) (State.start level f disk filename opens) acts = .ok s ∧
      s.delivered.map Delivery.text =
        (accepted level acts).map (fun e => f.format libc e.1 e.2) ∧
      (∀ p, s.disk.content p ++ s.pending p = disk.content p ++
        (s.delivered.filter (fun e => e.file = some p)).flatMap Delivery.text) ∧
      (f.items.getLast? = some .newLine → ∀ p, s.disk.content p = disk.content p ++
        (s.delivered.filter (fun e => e.file = some p)).flatMap Delivery.text) ∧
      ((opens = true ∧ ∀ a ∈ acts, a.opens = true) → ∀ e ∈ s.delivered, e.file.isSome) ∧
      ∀ done spills lvl event rest, acts = done ++ .log true spills lvl event :: rest →
        level ≤ lvl → 3 ≤ event.time →
        (∀ e ∈ accepted level done, e.2.time + 3 ≤ event.time) →
        ∃ t p, exec (step libc) (State.start level f disk filename opens)
            (done ++ [.log true spills lvl event]) = .ok t ∧
          KeyedMap.get? t.disk.names filename = some p ∧
          t.delivered.getLast? = some ⟨some p, f.format libc lvl event⟩ := by
  have hrun : ∀ acts, ∃ s, exec (step libc) (State.start level f disk filename opens) acts = .ok s ∧
      Inv libc level f disk filename opens acts s := fun acts =>
    exec_total (I := Inv libc level f disk filename opens) (fun _ _ a h => step_inv h a) acts
      start_inv
  obtain ⟨s, hs, hinv⟩ := hrun acts
  refine ⟨s, hs, hinv.texts, hinv.held, fun hends p => ?_, fun hall => (hinv.opened hall).2, ?_⟩
  · rw [hinv.content_eq hends, hinv.held]
  rintro done spills lvl event rest rfl hlvl hpos hlate
  obtain ⟨u, hu, hu'⟩ := hrun done
  obtain ⟨t, ht, _, hfresh⟩ := log_accepted hu' true spills event hlvl
  have hdue : (u.appender.lastTime + 3) % 2 ^ 64 ≤ event.time := by
    refine (Nat.mod_le _ _).trans ?_
    obtain hzero | ⟨e, he, htime⟩ := hu'.lastTime
    · omega
    · exact htime ▸ hlate e he
  obtain ⟨p, hp, hlast⟩ := hfresh hdue rfl
  exact ⟨t, p, exec_append_ok hu (exec_cons_ok ht rfl), hp, hlast⟩

end

end Mumu.FileRotation
