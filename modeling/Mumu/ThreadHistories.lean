import Mumu.LegibleLogs
import Mumu.WholeLines

namespace Mumu.ThreadHistories

open Mumu.LogLevels Mumu.LogItems Mumu.PatternScanner Mumu.PointerHeap Mumu.Executions
open Mumu.Mutexes Mumu.LockSections Mumu.WholeLines Mumu.DelimitedTexts Mumu.LegibleLogs

/-- A list of events whose lines make up a text, each of them legible. -/
structure Reading (libc : Libc) (f : LogFormatter) (text : Str)
    (es : List (Level × LogEvent)) : Prop where
  legible : ∀ e ∈ es, Legible (shown libc e) (template f)
  text : es.flatMap (fun e => f.format libc e.1 e.2) = text

def entry (l : Line) : Level × LogEvent := (l.lvl, l.event)

variable {libc : Libc} {f : LogFormatter}

theorem Reading.agree (hf : Marked (template f)) {text : Str} {es es' : List (Level × LogEvent)}
    (h : Reading libc f text es) (h' : Reading libc f text es') :
    List.Forall₂ (fun e e' => ∀ i ∈ f.items, Agree libc e e' i) es es' :=
  (texts_eq_iff hf h.legible h'.legible).mp (h.text.trans h'.text.symm)

/-- If the pattern shows the thread, the events of one thread agree with each other. -/
theorem Reading.agree_thread (hf : Marked (template f)) (hshows : .threadId ∈ f.items) {text : Str}
    {es es' : List (Level × LogEvent)} (h : Reading libc f text es) (h' : Reading libc f text es')
    (id : Int) :
    List.Forall₂ (fun e e' => ∀ i ∈ f.items, Agree libc e e' i)
      (es.filter (fun e => e.2.threadId = id)) (es'.filter (fun e => e.2.threadId = id)) := by
  refine List.rel_filter (fun e e' hagree => ?_) (h.agree hf h')
  have hid : e.2.threadId = e'.2.threadId := hagree .threadId hshows
  simp [hid]

section

variable {S : Type} [DecidableEq S] {streamOf : Ptr → S}

/-- The lines of one thread, told apart by the identifier that they show. -/
theorem filter_thread {order : List (Nat × Line)} {p : S} {tid : Nat → Int} {n i : Nat}
    (htid : Set.InjOn tid {i | i < n}) (hi : i < n)
    (horder : ∀ e ∈ order, e.1 < n ∧
      (streamOf e.2.appender = p → e.2.event.threadId = tid e.1)) :
    ((order.map Prod.snd).filter (fun l => streamOf l.appender = p)).filter
        (fun l => l.event.threadId = tid i) =
      ((order.filter (fun e => e.1 = i)).map Prod.snd).filter
        (fun l => streamOf l.appender = p) := by
  simp only [List.filter_map, List.filter_filter]
  refine congrArg _ (List.filter_congr fun e he => ?_)
  obtain ⟨hlt, hthread⟩ := horder e he
  by_cases hp : streamOf e.2.appender = p
  · have hiff : tid e.1 = tid i ↔ e.1 = i := htid.eq_iff hlt hi
    simp [hp, hthread hp, hiff]
  · simp [hp]

/-- A file that threads write to can be read, and whichever way it is read, the events
with the identifier of a thread are, in the order of the file, what this thread has
written to it, as far as the pattern shows them. -/
theorem thread_history {as : Set Ptr} (has : Set.InjOn streamOf as) (hf : Marked (template f))
    (hshows : .threadId ∈ f.items) {threads : List (List Line)}
    (hthreads : ∀ ls ∈ threads, ∀ l ∈ ls, l.appender ∈ as) {tid : Nat → Int}
    (htid : Set.InjOn tid {i | i < threads.length}) {p : S}
    (hlines : ∀ i ls, threads[i]? = some ls → ∀ l ∈ ls, streamOf l.appender = p →
      l.formatter = f ∧ l.event.threadId = tid i ∧ Legible (shown libc (entry l)) (template f))
    {streams : S → Str} {acts : List Nat} {s : LockSections.State exclusive Ptr S Str Line}
    (h : exec LockSections.step (initial exclusive (threads.map (client libc streamOf)) streams)
      acts = .ok s) (hfree : ∀ t ∈ s.threads, ¬ t.Writes p) :
    ∃ text, s.data p = streams p ++ text ∧ (∃ es, Reading libc f text es) ∧
      ∀ es, Reading libc f text es → ∀ i ls, threads[i]? = some ls →
        ∃ done left, ls = done ++ left ∧ (s.threads[i]? = some (.idle .done) → left = []) ∧
          List.Forall₂ (fun e l => ∀ item ∈ f.items, Agree libc e (entry l) item)
            (es.filter (fun e => e.2.threadId = tid i))
            (done.filter (fun l => streamOf l.appender = p)) := by
  obtain ⟨order, hdata, hbound, hpaths⟩ := linesWhole_of_injOn has hthreads h
  -- each line of the file is one that its thread has to write
  have horder : ∀ e ∈ order, streamOf e.2.appender = p → e.2.formatter = f ∧
      e.2.event.threadId = tid e.1 ∧ Legible (shown libc (entry e.2)) (template f) := by
    intro e he
    obtain ⟨ls, hls⟩ : ∃ ls, threads[e.1]? = some ls :=
      ⟨_, List.getElem?_eq_getElem (hbound e he)⟩
    obtain ⟨left, hsplit, _⟩ := hpaths e.1 ls hls
    refine hlines e.1 ls hls e.2 ?_
    rw [hsplit]
    exact List.mem_append_left left
      (List.mem_map_of_mem (List.mem_filter.mpr ⟨he, decide_eq_true rfl⟩))
  have hwritten : ∀ l ∈ (order.map Prod.snd).filter (fun l => streamOf l.appender = p),
      l.formatter = f ∧ Legible (shown libc (entry l)) (template f) := by
    intro l hl
    obtain ⟨hl, hp⟩ := List.mem_filter.mp hl
    obtain ⟨e, he, rfl⟩ := List.mem_map.mp hl
    obtain ⟨hformatter, _, hlegible⟩ := horder e he (of_decide_eq_true hp)
    exact ⟨hformatter, hlegible⟩
  have hreading : Reading libc f
      (((order.map Prod.snd).filter (fun l => streamOf l.appender = p)).flatMap (Line.text libc))
      (((order.map Prod.snd).filter (fun l => streamOf l.appender = p)).map entry) := by
    refine ⟨List.forall_mem_map.mpr fun l hl => (hwritten l hl).2, ?_⟩
    rw [List.flatMap_map]
    exact List.flatMap_congr fun l hl => by rw [Line.text, (hwritten l hl).1]; rfl
  refine ⟨_, hdata p hfree, ⟨_, hreading⟩, fun es hes i ls hls => ?_⟩
  obtain ⟨left, hsplit, hdone⟩ := hpaths i ls hls
  refine ⟨_, left, hsplit, hdone, ?_⟩
  have hagree := hes.agree_thread hf hshows hreading (tid i)
  rw [List.filter_map, List.forall₂_map_right_iff] at hagree
  rw [← filter_thread htid (List.getElem?_eq_some_iff.mp hls).1
    fun e he => ⟨hbound e he, fun hp => (horder e he hp).2.1⟩]
  exact hagree

def threadPattern : LogFormatter :=
  ⟨"%t %m%n".toList, [.threadId, .string [' '], .message, .newLine], false, by decide +kernel⟩

def threadLine (id : Int) (content : Str) : Line :=
  ⟨0, threadPattern, .info, { (default : LogEvent) with threadId := id, content := content }⟩

theorem threadLine_legible (libc : Libc) (id : Int) {content : Str} (h : '\n' ∉ content) :
    Legible (shown libc (entry (threadLine id content))) (template threadPattern) := by
  have hid : ' ' ∉ Decimal.print id := not_mem_print (by decide) (by decide) id
  exact ⟨⟨' ', rfl, hid⟩, ⟨'\n', rfl, h⟩, trivial⟩

def twoThreads : List (List Line) :=
  [[threadLine 1 ['x'], threadLine 1 ['z']], [threadLine 2 ['y']]]

/-- The line of the second thread has come between those of the first. -/
theorem thread_history_two :
    ∃ s, exec LockSections.step
        (initial exclusive (twoThreads.map (client fixedLibc (fun a : Ptr => a))) fun _ => [])
        (List.replicate 7 0 ++ List.replicate 7 1 ++ List.replicate 7 0) = .ok s ∧
      ∀ es, Reading fixedLibc threadPattern (s.data 0) es →
        (es.filter (fun e => e.2.threadId = 1)).map (fun e => e.2.content) = [['x'], ['z']] := by
  obtain ⟨s, hs, hthreads⟩ : ∃ s, exec LockSections.step
      (initial exclusive (twoThreads.map (client fixedLibc (fun a : Ptr => a))) fun _ => [])
      (List.replicate 7 0 ++ List.replicate 7 1 ++ List.replicate 7 0) = .ok s ∧
      s.threads = [.idle .done, .idle .done] := ⟨_, rfl, rfl⟩
  refine ⟨s, hs, fun es hes => ?_⟩
  have hmarked : Marked (template threadPattern) := ⟨'\n', [], by decide⟩
  have hfree : ∀ t ∈ s.threads, ¬ t.Writes 0 := by
    rw [hthreads]
    intro t ht
    have hdone : t = .idle .done := List.eq_of_mem_replicate (n := 2) ht
    rw [hdone]
    exact id
  have hlines : ∀ (i : Nat) ls, twoThreads[i]? = some ls → ∀ l ∈ ls, l.appender = 0 →
      l.formatter = threadPattern ∧ l.event.threadId = (i : Int) + 1 ∧
        Legible (shown fixedLibc (entry l)) (template threadPattern) := by
    intro i ls hls l hl _
    match i, hls with
    | 0, rfl =>
      obtain rfl | hl := List.mem_cons.mp hl
      · exact ⟨rfl, rfl, threadLine_legible _ _ (by decide)⟩
      · obtain rfl := List.mem_singleton.mp hl
        exact ⟨rfl, rfl, threadLine_legible _ _ (by decide)⟩
    | 1, rfl =>
      obtain rfl := List.mem_singleton.mp hl
      exact ⟨rfl, rfl, threadLine_legible _ _ (by decide)⟩
  have hstreams : Set.InjOn (fun a : Ptr => a) Set.univ := Set.injOn_id Set.univ
  have htid : Set.InjOn (fun i : Nat => (i : Int) + 1) {i | i < twoThreads.length} :=
    fun i _ j _ hij => by simpa using hij
  obtain ⟨text, htext, _, hall⟩ := thread_history hstreams hmarked (by decide)
    (fun _ _ _ _ => trivial) htid hlines hs hfree
  obtain ⟨done, left, hsplit, hleft, hagree⟩ := hall es (by rwa [htext] at hes) 0 _ rfl
  obtain rfl := hleft (by rw [hthreads]; rfl)
  rw [List.append_nil] at hsplit
  subst hsplit
  have hcontents : List.Forall₂ Eq
      ((es.filter (fun e => e.2.threadId = 1)).map (fun e => e.2.content)) [['x'], ['z']] := by
    rw [List.forall₂_map_left_iff]
    exact (List.forall₂_map_right_iff (f := fun l : Line => l.event.content)).mpr
      (hagree.imp fun e l h => h .message (by decide))
  rwa [List.forall₂_eq_eq_eq] at hcontents

end

end Mumu.ThreadHistories
