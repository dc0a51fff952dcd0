import Mumu.Executions
import Mumu.LogAppenders

namespace Mumu.FileRecovery

open Mumu.LogLevels Mumu.LogItems Mumu.PatternScanner Mumu.LogAppenders Mumu.Executions

/-! ### Streams -/

/-- Opened again while the system can open its file, a stream is open and has no
error bit set. -/
def Recovers (s : FileStream) : Prop := LogAppender.reopen true s = (⟨true, false, false⟩, true)

instance (s : FileStream) : Decidable (Recovers s) :=
  decidable_of_iff (LogAppender.reopen true s = (⟨true, false, false⟩, true)) Iff.rfl

/-- No error bit is set while the file is open. -/
def Sound (s : FileStream) : Prop := s.isOpen → s.good

theorem recovers_iff (s : FileStream) : Recovers s ↔ Sound s := by
  obtain ⟨isOpen, failbit, badbit⟩ := s
  rw [Recovers, Sound]
  revert isOpen failbit badbit
  decide

theorem reopen_sound {s : FileStream} (h : Sound s) (ok : Bool) :
    (LogAppender.reopen ok s).1.isOpen = ok ∧ Sound (LogAppender.reopen ok s).1 := by
  obtain ⟨isOpen, failbit, badbit⟩ := s
  rw [Sound] at h ⊢
  revert isOpen failbit badbit ok
  decide

/-- A write breaks a sound stream exactly if it fails while the file is open. -/
theorem write_sound_iff {s : FileStream} (h : Sound s) (ok : Bool) :
    Sound (s.write ok) ↔ ¬ (s.isOpen ∧ ok = false) := by
  obtain ⟨isOpen, failbit, badbit⟩ := s
  rw [Sound] at h ⊢
  revert isOpen failbit badbit ok
  decide

/-! ### Runs of a file appender -/

inductive Act where
  | log (tick : Nat) (lvl : Level) (event : LogEvent)
  | reopen (tick : Nat)
  | setLevel (val : Level)
  | setFormatter (val : Option LogFormatter)

variable (env : Env)

def reopen (tick : Nat) (a : LogAppender) : LogAppender :=
  match a.kind with
  | .stdout => a
  | .file filename s lastTime =>
    { a with kind := .file filename (LogAppender.reopen (env.opens tick) s).1 lastTime }

def step (a : LogAppender) : Act → Except Fault LogAppender
  | .log tick lvl event => (a.log env tick lvl event).map Prod.fst
  | .reopen tick => .ok (reopen env tick a)
  | .setLevel val => .ok (a.setLevel val)
  | .setFormatter val => .ok (a.setFormatter val)

def AppenderRecovers (a : LogAppender) : Prop :=
  ∀ filename s lastTime, a.kind = .file filename s lastTime → Recovers s

/-- The file is open when a call of `log` comes to its write. -/
def OpenAtWrite (tick : Nat) (event : LogEvent) : Kind → Bool
  | .stdout => false
  | .file _ s lastTime =>
    if (lastTime + 3) % 2 ^ 64 ≤ event.time then env.opens tick else s.isOpen

/-- No write fails while the file is open. -/
def WritesSucceed (a : LogAppender) : Act → Prop
  | .log tick lvl event =>
    a.level ≤ lvl → a.formatter.isSome → OpenAtWrite env tick event a.kind = true →
      env.writes tick = true
  | _ => True

def SoundAppender (a : LogAppender) : Prop :=
  ∃ filename s lastTime, a.kind = .file filename s lastTime ∧ Sound s

theorem SoundAppender.recovers {a : LogAppender} (h : SoundAppender a) : AppenderRecovers a := by
  obtain ⟨filename, s, lastTime, hkind, hs⟩ := h
  intro filename' s' lastTime' hkind'
  rw [hkind] at hkind'
  cases hkind'
  exact (recovers_iff s).mpr hs

theorem newFile_sound (filename : Str) (ok : Bool) :
    SoundAppender (LogAppender.newFile filename ok) :=
  ⟨filename, _, 0, rfl, (reopen_sound (fun h => absurd h (by decide)) ok).2⟩

/-- What a call of `log` writes to. -/
theorem refresh_sound (filename : Str) {s : FileStream} (h : Sound s) (lastTime tick : Nat)
    (event : LogEvent) :
    ∃ s' lastTime', LogAppender.refresh (env.opens tick) event.time (.file filename s lastTime) =
        .file filename s' lastTime' ∧ Sound s' ∧
      s'.isOpen = OpenAtWrite env tick event (.file filename s lastTime) := by
  rw [LogAppender.refresh, OpenAtWrite]
  split
  · obtain ⟨hopen, hsound⟩ := reopen_sound h (env.opens tick)
    exact ⟨_, _, rfl, hsound, hopen⟩
  · exact ⟨_, _, rfl, h, rfl⟩

/-- A call of `log` that gets to its write. -/
theorem log_writes {a : LogAppender} (h : SoundAppender a) {tick : Nat} {lvl : Level}
    {event : LogEvent} (hlvl : a.level ≤ lvl) (hformatter : a.formatter.isSome) :
    ∃ t filename s lastTime, step env a (.log tick lvl event) = .ok t ∧
      t.kind = .file filename s lastTime ∧
      (Sound s ↔ ¬ (OpenAtWrite env tick event a.kind = true ∧ env.writes tick = false)) := by
  obtain ⟨filename, s, lastTime, hkind, hs⟩ := h
  obtain ⟨f, hf⟩ := Option.isSome_iff_exists.mp hformatter
  obtain ⟨s', lastTime', hrefresh, hs', hopen⟩ := refresh_sound env filename hs lastTime tick event
  refine ⟨{ a with kind := .file filename (s'.write (env.writes tick)) lastTime' }, filename, _,
    lastTime', ?_, rfl, ?_⟩
  · rw [step, LogAppender.log, if_pos hlvl, hf]
    dsimp only
    rw [hkind, hrefresh]
    rfl
  · rw [write_sound_iff hs', hopen, hkind]

theorem step_sound {a t : LogAppender} {act : Act} (h : SoundAppender a)
    (hact : WritesSucceed env a act) (ht : step env a act = .ok t) : SoundAppender t := by
  cases act with
  | log tick lvl event =>
    by_cases hlvl : a.level ≤ lvl
    · cases hf : a.formatter with
      | none =>
        rw [step, LogAppender.log, if_pos hlvl, hf] at ht
        cases ht
      | some f =>
        have hsome : a.formatter.isSome := by rw [hf]; rfl
        obtain ⟨u, filename, s, lastTime, hu, hkind, hs⟩ := log_writes env h hlvl hsome
        rw [hu, Except.ok.injEq] at ht
        subst ht
        refine ⟨filename, s, lastTime, hkind, hs.mpr ?_⟩
        rintro ⟨hopen, hfails⟩
        rw [hact hlvl hsome hopen] at hfails
        cases hfails
    · rw [step, LogAppender.log, if_neg hlvl] at ht
      cases ht
      exact h
  | reopen tick =>
    cases ht
    obtain ⟨filename, s, lastTime, hkind, hs⟩ := h
    refine ⟨filename, _, lastTime, ?_, (reopen_sound hs (env.opens tick)).2⟩
    rw [reopen, hkind]
  | setLevel val | setFormatter val =>
    cases ht
    exact h

/-- A write that fails while the file is open leaves a stream that the next call of
`reopen` does not recover. -/
theorem step_breaks {a : LogAppender} {act : Act} (h : SoundAppender a)
    (hact : ¬ WritesSucceed env a act) :
    ∃ t, step env a act = .ok t ∧ ¬ AppenderRecovers t := by
  cases act with
  | log tick lvl event =>
    simp only [WritesSucceed, not_forall, Bool.not_eq_true] at hact
    obtain ⟨hlvl, hsome, hopen, hfails⟩ := hact
    obtain ⟨t, filename, s, lastTime, ht, hkind, hs⟩ := log_writes env h hlvl hsome
    refine ⟨t, ht, fun hrecovers => ?_⟩
    exact hs.mp ((recovers_iff s).mp (hrecovers filename s lastTime hkind)) ⟨hopen, hfails⟩
  | reopen tick | setLevel val | setFormatter val => exact absurd trivial hact

/-- In the constructor a file can be opened again, and in every state of a run
exactly if no write of the run fails while the file is open. -/
theorem fileAppender_recovers_iff (filename : Str) (ok : Bool) (acts : List Act) :
    Recovers .closed ∧
      ((∀ pre t, pre <+: acts →
          exec (step env) (LogAppender.newFile filename ok) pre = .ok t → AppenderRecovers t) ↔
        Meets (step env) (WritesSucceed env) (LogAppender.newFile filename ok) acts) := by
  refine ⟨rfl, ?_⟩
  apply exec_always_iff (I := SoundAppender) (P := fun _ => True)
  · exact fun _ => SoundAppender.recovers
  · exact fun _ _ _ _ => step_sound env
  · exact fun _ _ _ => step_breaks env
  · exact fun _ _ => trivial
  · exact newFile_sound filename ok

/-- One write that fails when its line break flushes the stream, and the file is not
opened again. -/
theorem fileAppender_broken :
    let env : Env := { (default : Env) with opens := fun _ => true }
    ∃ t, exec (step env) (LogAppender.newFile "log.txt".toList true)
        [.setFormatter (some (LogFormatter.new "%m%n".toList)), .log 0 .debug default] = .ok t ∧
      ¬ AppenderRecovers t := by
  refine ⟨_, rfl, fun h => ?_⟩
  exact absurd (h _ _ _ rfl) (by decide)

end Mumu.FileRecovery
