import Mumu.DelimitedTexts
import Mumu.FileRotation
import Mumu.Loggers

namespace Mumu.LegibleLogs

open Mumu.LogLevels Mumu.LogItems Mumu.PatternScanner Mumu.LogAppenders Mumu.Executions
open Mumu.PointerHeap Mumu.KeyedSets Mumu.Loggers Mumu.FileRotation Mumu.DelimitedTexts

/-- The items that write the same for all events are the texts of the template. -/
def part : FormatItem → Part Char FormatItem
  | .newLine => .text ['\n']
  | .tab _ => .text ['\t']
  | .string str => .text str
  | i => .field i

def template (f : LogFormatter) : List (Part Char FormatItem) := f.items.map part

variable (libc : Libc)

/-- What an item writes for an event. -/
def shown (e : Level × LogEvent) (i : FormatItem) : Str := i.format libc e.1 e.2

/-- What an item shows is the same for two events. -/
def Agree (e e' : Level × LogEvent) : FormatItem → Prop
  | .message => e.2.content = e'.2.content
  | .level => e.1 = e'.1
  | .name => e.2.loggerName = e'.2.loggerName
  | .elapse => e.2.elapse = e'.2.elapse
  | .threadId => e.2.threadId = e'.2.threadId
  | .fiberId => e.2.fiberId = e'.2.fiberId
  | .dateTime format => cStr (libc.strftime 64 (cStr format) e.2.time) =
      cStr (libc.strftime 64 (cStr format) e'.2.time)
  | .filename => e.2.filename = e'.2.filename
  | .line => e.2.line = e'.2.line
  | .newLine => True
  | .string _ => True
  | .tab _ => True

variable {libc}

theorem toString_injective : Function.Injective Level.toString :=
  Function.LeftInverse.injective Level.fromString_toString

theorem print_injective : Function.Injective Decimal.print := fun i j h =>
  Option.some.inj ((Decimal.read_print i).symm.trans ((congrArg Decimal.read h).trans
    (Decimal.read_print j)))

theorem agree_iff (e e' : Level × LogEvent) (i : FormatItem) :
    Agree libc e e' i ↔ shown libc e i = shown libc e' i := by
  cases i with
  | level => exact toString_injective.eq_iff.symm
  | elapse => exact print_injective.eq_iff.symm
  | threadId => exact print_injective.eq_iff.symm
  | fiberId => exact print_injective.eq_iff.symm
  | line => exact print_injective.eq_iff.symm
  | message => rfl
  | name => rfl
  | dateTime format => rfl
  | filename => rfl
  | newLine => exact iff_of_true trivial rfl
  | string str => exact iff_of_true trivial rfl
  | tab str => exact iff_of_true trivial rfl

theorem write_template (f : LogFormatter) (e : Level × LogEvent) :
    write (shown libc e) (template f) = f.format libc e.1 e.2 := by
  rw [template, LogFormatter.format]
  induction f.items with
  | nil => rfl
  | cons i items ih =>
    rw [List.map_cons, List.flatMap_cons, ← ih]
    cases i <;> rfl

/-- An item that is no field writes the same for all events. -/
theorem agree_items_iff (f : LogFormatter) (e e' : Level × LogEvent) :
    (∀ i ∈ f.items, Agree libc e e' i) ↔
      ∀ i, Part.field i ∈ template f → shown libc e i = shown libc e' i := by
  constructor
  · intro h i hi
    obtain ⟨j, hj, hpart⟩ := List.mem_map.mp hi
    obtain rfl : j = i := by
      cases j <;> simp_all [part]
    exact (agree_iff e e' j).mp (h j hj)
  · intro h i hi
    have hpart := List.mem_map_of_mem (f := part) hi
    refine (agree_iff e e' i).mpr ?_
    cases i with
    | newLine => rfl
    | string str => rfl
    | tab str => rfl
    | _ => exact h _ hpart

/-- Texts of the same events as far as the pattern shows them. -/
theorem texts_eq_iff {f : LogFormatter} (hf : Marked (template f))
    {es es' : List (Level × LogEvent)}
    (h : ∀ e ∈ es, Legible (shown libc e) (template f))
    (h' : ∀ e ∈ es', Legible (shown libc e) (template f)) :
    es.flatMap (fun e => f.format libc e.1 e.2) = es'.flatMap (fun e => f.format libc e.1 e.2) ↔
      List.Forall₂ (fun e e' => ∀ i ∈ f.items, Agree libc e e' i) es es' := by
  have hus : ∀ u ∈ es.map (shown libc), Legible u (template f) := List.forall_mem_map.mpr h
  have hvs : ∀ v ∈ es'.map (shown libc), Legible v (template f) := List.forall_mem_map.mpr h'
  have hfields := flatMap_write_eq_iff hf hus hvs
  rw [List.flatMap_map, List.flatMap_map, List.forall₂_map_left_iff,
    List.forall₂_map_right_iff] at hfields
  simp only [agree_items_iff, ← write_template]
  exact hfields

/-! ### The default pattern -/

theorem not_mem_print {c : Char} (hdigit : c.isDigit = false) (hsign : c ≠ '-') (i : Int) :
    c ∉ Decimal.print i := by
  have hdigits : ∀ n, c ∉ Nat.toDigits 10 n := fun n hc => by
    have := Decimal.isDigit_toDigits n c hc
    simp_all
  cases i with
  | ofNat n => exact hdigits n
  | negSucc n => exact List.not_mem_cons_of_ne_of_not_mem hsign (hdigits (n + 1))

theorem not_mem_toString (lvl : Level) : ']' ∉ lvl.toString := by
  cases lvl <;> decide

def dateFormat : Str := "%Y-%m-%d %H:%M:%S".toList

/-- The formatter of a new logger, with its items written out. -/
def defaultFormatter : LogFormatter :=
  ⟨defaultPattern,
    [.dateTime dateFormat, .tab [], .threadId, .tab [], .fiberId, .tab [], .string ['['], .level,
      .string [']'], .tab [], .string ['['], .name, .string [']'], .tab [], .filename,
      .string [':'], .line, .tab [], .message, .newLine],
    false, by decide +kernel⟩

theorem defaultFormatter_eq : defaultFormatter = .new defaultPattern := defaultFormatter.eq_new

/-- Numbers and levels never hold the character that follows them. -/
theorem legible_default_iff (e : Level × LogEvent) :
    Legible (shown libc e) (template defaultFormatter) ↔
      '\t' ∉ shown libc e (.dateTime dateFormat) ∧ ']' ∉ e.2.loggerName ∧ ':' ∉ e.2.filename ∧
        '\n' ∉ e.2.content := by
  have hnumber : ∀ i, '\t' ∉ Decimal.print i := not_mem_print (by decide) (by decide)
  simp [template, defaultFormatter, part, Legible, stop, shown, FormatItem.format, hnumber,
    not_mem_toString]

/-- Where a line ends with the message, one message can look like two events. -/
theorem format_forged {f : LogFormatter} {items : List FormatItem}
    (hitems : f.items = items ++ [.message, .newLine]) (hmessage : .message ∉ items)
    (e e' : Level × LogEvent) :
    ∃ content, f.format libc e.1 { e.2 with content := content } =
      f.format libc e.1 e.2 ++ f.format libc e'.1 e'.2 := by
  refine ⟨e.2.content ++ '\n' :: (items.flatMap (FormatItem.format libc e'.1 e'.2) ++
    e'.2.content), ?_⟩
  have hsame : ∀ content, items.flatMap (FormatItem.format libc e.1 { e.2 with content := content })
      = items.flatMap (FormatItem.format libc e.1 e.2) := fun content =>
    List.flatMap_congr fun i hi => by
      cases i with
      | message => exact absurd hi hmessage
      | _ => rfl
  simp [LogFormatter.format, hitems, hsame, FormatItem.format]

/-! ### Runs of an appender -/

/-- What became of the events of a list, in the order of the list. -/
theorem flatMap_filter_eq_zip {β γ : Type} {g : γ → Str} {h : β → Str} (q : γ → Bool)
    {xs : List β} {ys : List γ} (hxy : ys.map g = xs.map h) :
    (ys.filter q).flatMap g = (((xs.zip ys).filter (fun e => q e.2)).map Prod.fst).flatMap h := by
  induction ys generalizing xs with
  | nil => rw [List.zip_nil_right]; rfl
  | cons y ys ih =>
    cases xs with
    | nil => cases hxy
    | cons x xs =>
      obtain ⟨hhead, htail⟩ := List.cons.inj hxy
      rw [List.zip_cons_cons, List.filter_cons, List.filter_cons]
      cases q y with
      | true =>
        change g y ++ (ys.filter q).flatMap g = h x ++ _
        rw [hhead, ih htail]
        rfl
      | false => exact ih htail

/-- A run of a file appender whose formatter is set once and for all. -/
structure Run (libc : Libc) (f : LogFormatter) where
  level : Level
  disk : Disk
  filename : Str
  opens : Bool
  acts : List Act
  last : State
  ran : exec (step libc) (State.start level f disk filename opens) acts = .ok last

namespace Run

variable {f : LogFormatter}

def ofActs (libc : Libc) (f : LogFormatter) (level : Level) (disk : Disk) (filename : Str)
    (opens : Bool) (acts : List Act) : Run libc f :=
  match h : exec (step libc) (State.start level f disk filename opens) acts with
  | .ok last => ⟨level, disk, filename, opens, acts, last, h⟩
  | .error _ => absurd (exec_total (I := Inv libc level f disk filename opens)
      (fun _ _ a h => step_inv h a) acts start_inv) fun ⟨_, hs, _⟩ => nomatch hs.symm.trans h

variable (r : Run libc f) (p : Ptr)

/-- The events whose texts went to a file, in the order of the calls. -/
def placed : List (Level × LogEvent) :=
  (((accepted r.level r.acts).zip r.last.delivered).filter
    (fun e => e.2.file = some p)).map Prod.fst

/-- What a file holds beyond what it held before the run, once the stream has written
out what it still has for the file. -/
def gained : Str := (r.last.held p).drop (r.disk.content p).length

theorem inv : Inv libc r.level f r.disk r.filename r.opens r.acts r.last := by
  obtain ⟨s, hs, hinv⟩ :=
    exec_total (I := Inv libc r.level f r.disk r.filename r.opens)
      (fun _ _ a h => step_inv h a) r.acts start_inv
  obtain rfl := Except.ok.inj (hs.symm.trans r.ran)
  exact hinv

theorem held_last :
    r.last.held p = r.disk.content p ++
      (r.placed p).flatMap (fun e => f.format libc e.1 e.2) := by
  rw [r.inv.held p, flatMap_filter_eq_zip _ r.inv.texts]
  rfl

theorem gained_eq : r.gained p = (r.placed p).flatMap (fun e => f.format libc e.1 e.2) := by
  rw [gained, held_last, List.drop_left]

theorem held_gained : r.last.held p = r.disk.content p ++ r.gained p := by
  rw [gained_eq, held_last]

/-- A pattern that ends its lines leaves nothing in the stream. -/
theorem content_gained (hends : f.items.getLast? = some .newLine) :
    r.last.disk.content p = r.disk.content p ++ r.gained p :=
  (r.inv.content_eq hends p).trans (r.held_gained p)

theorem placed_sublist : (r.placed p).Sublist (accepted r.level r.acts) := by
  have hlength : (accepted r.level r.acts).length = r.last.delivered.length := by
    simpa using (congrArg List.length r.inv.texts).symm
  have hevents := List.map_fst_zip hlength.le
  exact (List.filter_sublist.map Prod.fst).trans (by rw [hevents])

end Run

/-- What a file gains in a run tells how many events were written to it, in which
order, and for each what the items of the pattern show. It stands in the file, up to
what the stream on it has still to write out, which is nothing for a pattern that
ends its lines. -/
theorem gained_eq_iff {f : LogFormatter} (hf : Marked (template f)) (r r' : Run libc f)
    (p p' : Ptr) (h : ∀ e ∈ r.placed p, Legible (shown libc e) (template f))
    (h' : ∀ e ∈ r'.placed p', Legible (shown libc e) (template f)) :
    r.last.disk.content p ++ r.last.pending p = r.disk.content p ++ r.gained p ∧
      (f.items.getLast? = some .newLine →
        r.last.disk.content p = r.disk.content p ++ r.gained p) ∧
      (r.placed p).Sublist (accepted r.level r.acts) ∧
      (r.gained p = r'.gained p' ↔
        List.Forall₂ (fun e e' => ∀ i ∈ f.items, Agree libc e e' i)
          (r.placed p) (r'.placed p')) := by
  refine ⟨r.held_gained p, r.content_gained p, r.placed_sublist p, ?_⟩
  rw [Run.gained_eq, Run.gained_eq]
  exact texts_eq_iff hf h h'

def fixedLibc : Libc := ⟨fun _ _ => ['x'], fun _ _ => ['x']⟩

def message (time : Nat) (content : Str) : LogEvent :=
  { (default : LogEvent) with time := time, content := content }

/-- Two events, and what others do to the directory between them. The stream writes out
a character of its buffer at each item. -/
def twoEvents (between : List Act) : Run fixedLibc defaultFormatter :=
  .ofActs fixedLibc _ .debug ⟨⟨[]⟩, KeyedSet.empty, fun _ _ h => nomatch h⟩ ['a'] true
    (.log true (fun _ => 1) .info (message 0 ['b']) :: between ++
      [.log true (fun _ => 1) .info (message 3 ['c'])])

set_option maxRecDepth 4000 in
/-- The file got the second event unless it had been renamed. -/
theorem gained_eq_iff_renamed :
    (twoEvents []).last.disk.content 0 ≠
      (twoEvents [.rename ['a'] ['d']]).last.disk.content 0 := by
  have hkept : (twoEvents []).placed 0 =
      [(.info, message 0 ['b']), (.info, message 3 ['c'])] := rfl
  have hrenamed : (twoEvents [.rename ['a'] ['d']]).placed 0 = [(.info, message 0 ['b'])] := rfl
  have hmarked : Marked (template defaultFormatter) := ⟨'\t', [], by decide⟩
  have hends : defaultFormatter.items.getLast? = some .newLine := rfl
  have hlegible : ∀ e ∈ [((.info, message 0 ['b']) : Level × LogEvent), (.info, message 3 ['c'])],
      Legible (shown fixedLibc e) (template defaultFormatter) := by
    simp only [legible_default_iff]
    decide
  have hfirst : ∀ e ∈ (twoEvents [.rename ['a'] ['d']]).placed 0,
      Legible (shown fixedLibc e) (template defaultFormatter) :=
    hrenamed ▸ fun e he => hlegible e (List.mem_append_left [_] he)
  obtain ⟨_, hdisk, _, hiff⟩ := gained_eq_iff hmarked (twoEvents [])
    (twoEvents [.rename ['a'] ['d']]) 0 0 (hkept ▸ hlegible) hfirst
  intro h
  rw [hdisk hends, Run.content_gained _ 0 hends] at h
  have hsame := hiff.mp (List.append_cancel_left h)
  rw [hkept, hrenamed] at hsame
  cases hsame with
  | cons _ hrest => cases hrest

end Mumu.LegibleLogs
