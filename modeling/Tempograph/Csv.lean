import Mathlib.Data.List.Basic
import Mathlib.Tactic

/-!
Tables as text: fields between commas, one record a line.

The reader is the one of Python's `csv` in its default dialect, a scan with five modes. A field
that begins with a quote runs to the next single quote, over commas and line ends. Records that
are written without quotes are read back as they were, as long as no field needs them.
-/

namespace Tempograph.Csv

inductive Mode
  | startRecord
  | startField
  | inField
  | quoted
  /-- Behind a quote in a quoted field. -/
  | quote
  deriving DecidableEq

structure Reader where
  mode : Mode
  field : List Char
  fields : List (List Char)
  records : List (List (List Char))

def start : Reader := ⟨.startRecord, [], [], []⟩

def Reader.enter (s : Reader) (mode : Mode) : Reader := { s with mode := mode }

def Reader.add (s : Reader) (c : Char) : Reader := { s with field := s.field ++ [c] }

def Reader.save (s : Reader) : Reader := { s with field := [], fields := s.fields ++ [s.field] }

/-- The record is complete. -/
def Reader.close (s : Reader) : Reader :=
  { s with mode := .startRecord, fields := [], records := s.records ++ [s.fields] }

def Reader.first (s : Reader) (c : Char) : Reader :=
  if c = '\n' then s.save.close
  else if c = '"' then s.enter .quoted
  else if c = ',' then s.save.enter .startField
  else (s.add c).enter .inField

def step (s : Reader) (c : Char) : Reader :=
  match s.mode with
  | .startRecord => if c = '\n' then s.close else s.first c
  | .startField => s.first c
  | .inField =>
    if c = '\n' then s.save.close
    else if c = ',' then s.save.enter .startField
    else s.add c
  | .quoted => if c = '"' then s.enter .quote else s.add c
  | .quote =>
    if c = '"' then (s.add c).enter .quoted
    else if c = ',' then s.save.enter .startField
    else if c = '\n' then s.save.close
    else (s.add c).enter .inField

/-- What the end of the text completes. -/
def Reader.finish (s : Reader) : List (List (List Char)) :=
  match s.mode with
  | .startRecord => s.records
  | _ => s.save.close.records

def read (text : List Char) : List (List (List Char)) := (text.foldl step start).finish

/-- A record by the names of its fields; empty records are skipped. -/
def dictReader : List (List (List Char)) → List (List (List Char × List Char))
  | [] => []
  | names :: rows => (rows.filter (· ≠ [])).map names.zip

/-- The field of that name, the last one of several. -/
def field (row : List (List Char × List Char)) (name : List Char) : Option (List Char) :=
  (row.reverse.find? (·.1 = name)).map Prod.snd

/-! ### Without quotes -/

/-- A field that is written as it is. -/
structure Plain (f : List Char) : Prop where
  comma : ',' ∉ f
  newline : '\n' ∉ f
  quote : f.head? ≠ some '"'

/-- The text of a record. -/
def join (row : List (List Char)) : List Char := [','].intercalate row

/-- The text of a table, without a last line end. -/
def text (rows : List (List (List Char))) : List Char := ['\n'].intercalate (rows.map join)

/-- A record that is written as it is. -/
structure Simple (row : List (List Char)) : Prop where
  plain : ∀ f ∈ row, Plain f
  ne_nil : row ≠ []
  ne_blank : row ≠ [[]]

variable {s : Reader} {f g : List Char} {row fs : List (List Char)}
  {rows rs : List (List (List Char))}

lemma join_cons_cons (f g : List Char) (row : List (List Char)) :
    join (f :: g :: row) = f ++ ',' :: join (g :: row) := by
  simp [join, List.intercalate, List.intersperse]

@[simp] lemma join_singleton (f : List Char) : join [f] = f := by
  simp [join, List.intercalate, List.intersperse]

lemma text_cons_cons (r r' : List (List Char)) (rows : List (List (List Char))) :
    text (r :: r' :: rows) = join r ++ '\n' :: text (r' :: rows) := by
  simp [text, List.intercalate]

@[simp] lemma text_singleton (r : List (List Char)) : text [r] = join r := by
  simp [text, List.intercalate]

lemma mem_join {x : Char} (h : x ∈ join row) : x = ',' ∨ ∃ f ∈ row, x ∈ f := by
  induction row with
  | nil => simp [join] at h
  | cons f row ih =>
    cases row with
    | nil => exact Or.inr ⟨f, List.mem_cons_self, by rwa [join_singleton] at h⟩
    | cons g row =>
      rw [join_cons_cons, List.mem_append, List.mem_cons] at h
      rcases h with h | h | h
      · exact Or.inr ⟨f, List.mem_cons_self, h⟩
      · exact Or.inl h
      · exact (ih h).imp_right fun ⟨f', hf, hx⟩ => ⟨f', List.mem_cons_of_mem _ hf, hx⟩

lemma mem_text {x : Char} (h : x ∈ text rows) : x = '\n' ∨ ∃ r ∈ rows, x ∈ join r := by
  induction rows with
  | nil => simp [text] at h
  | cons r rows ih =>
    cases rows with
    | nil => exact Or.inr ⟨r, List.mem_cons_self, by rwa [text_singleton] at h⟩
    | cons r' rows =>
      rw [text_cons_cons, List.mem_append, List.mem_cons] at h
      rcases h with h | h | h
      · exact Or.inr ⟨r, List.mem_cons_self, h⟩
      · exact Or.inl h
      · exact (ih h).imp_right fun ⟨r', hr, hx⟩ => ⟨r', List.mem_cons_of_mem _ hr, hx⟩

/-- Inside a field its characters are collected. -/
lemma foldl_inField (hcomma : ',' ∉ f) (hnewline : '\n' ∉ f) :
    f.foldl step ⟨.inField, g, fs, rs⟩ = ⟨.inField, g ++ f, fs, rs⟩ := by
  induction f generalizing g with
  | nil => simp
  | cons c f ih =>
    rw [List.mem_cons, not_or] at hcomma hnewline
    have hstep : step ⟨.inField, g, fs, rs⟩ c = ⟨.inField, g ++ [c], fs, rs⟩ := by
      simp only [step, if_neg (Ne.symm hcomma.1), if_neg (Ne.symm hnewline.1), Reader.add]
    rw [List.foldl_cons, hstep, ih hcomma.2 hnewline.2]
    simp

/-- A field that is not empty, from where it starts. -/
lemma foldl_field {mode : Mode} (hmode : mode = .startRecord ∨ mode = .startField) (hf : Plain f)
    (hne : f ≠ []) : f.foldl step ⟨mode, [], fs, rs⟩ = ⟨.inField, f, fs, rs⟩ := by
  obtain ⟨c, f, rfl⟩ := List.exists_cons_of_ne_nil hne
  obtain ⟨hcomma, hnewline, hquote⟩ := hf
  rw [List.mem_cons, not_or] at hcomma hnewline
  have hq : c ≠ '"' := fun e => hquote (by rw [e]; rfl)
  have hstep : step ⟨mode, [], fs, rs⟩ c = ⟨.inField, [c], fs, rs⟩ := by
    rcases hmode with rfl | rfl <;>
      simp [step, Reader.first, Reader.add, Reader.enter, Ne.symm hcomma.1, Ne.symm hnewline.1, hq]
  rw [List.foldl_cons, hstep, foldl_inField hcomma.2 hnewline.2, List.singleton_append]

/-- A field and the comma behind it. -/
lemma foldl_comma {mode : Mode} (hmode : mode = .startRecord ∨ mode = .startField) (hf : Plain f) :
    (f ++ [',']).foldl step ⟨mode, [], fs, rs⟩ = ⟨.startField, [], fs ++ [f], rs⟩ := by
  rw [List.foldl_append]
  by_cases hne : f = []
  · subst hne
    rcases hmode with rfl | rfl <;> simp [step, Reader.first, Reader.save, Reader.enter]
  · rw [foldl_field hmode hf hne]
    simp [step, Reader.save, Reader.enter]

/-- All of a record but its end. -/
lemma foldl_row {mode : Mode} (hmode : mode = .startRecord ∨ mode = .startField)
    (hplain : ∀ f ∈ row, Plain f) (hne : row ≠ []) (hblank : mode = .startField ∨ row ≠ [[]]) :
    ∃ t, (join row).foldl step ⟨mode, [], fs, rs⟩ = t ∧ t.mode ≠ .startRecord ∧
      t.save.close = ⟨.startRecord, [], [], rs ++ [fs ++ row]⟩ ∧
      step t '\n' = ⟨.startRecord, [], [], rs ++ [fs ++ row]⟩ := by
  induction row generalizing mode fs with
  | nil => exact absurd rfl hne
  | cons f row ih =>
    have hf := hplain f List.mem_cons_self
    cases row with
    | nil =>
      rw [join_singleton]
      by_cases hempty : f = []
      · subst hempty
        obtain rfl : mode = .startField := hblank.resolve_right fun h => h rfl
        refine ⟨_, rfl, by simp, by simp [Reader.save, Reader.close], ?_⟩
        simp [step, Reader.first, Reader.save, Reader.close]
      · rw [foldl_field hmode hf hempty]
        refine ⟨_, rfl, by simp, by simp [Reader.save, Reader.close], ?_⟩
        simp [step, Reader.save, Reader.close]
    | cons g row =>
      obtain ⟨t, ht, hmode', hclose, hstep⟩ := @ih (fs ++ [f]) .startField (Or.inr rfl)
        (fun x hx => hplain x (List.mem_cons_of_mem _ hx)) (by simp) (Or.inl rfl)
      refine ⟨t, ?_, hmode', by simpa using hclose, by simpa using hstep⟩
      rw [join_cons_cons, List.append_cons, List.foldl_append, foldl_comma hmode hf, ht]

lemma foldl_text (hrows : ∀ r ∈ rows, Simple r) (hne : rows ≠ []) :
    ((text rows).foldl step ⟨.startRecord, [], [], rs⟩).finish = rs ++ rows := by
  induction rows generalizing rs with
  | nil => exact absurd rfl hne
  | cons r rows ih =>
    have hr := hrows r List.mem_cons_self
    obtain ⟨t, ht, hmode, hclose, hstep⟩ :=
      @foldl_row r [] rs .startRecord (Or.inl rfl) hr.plain hr.ne_nil (Or.inr hr.ne_blank)
    cases rows with
    | nil =>
      rw [text_singleton, ht]
      unfold Reader.finish
      split
      · rename_i h
        exact absurd h hmode
      · rw [hclose]
        simp
    | cons r' rows =>
      rw [text_cons_cons, List.foldl_append, ht, List.foldl_cons, hstep,
        ih (fun x hx => hrows x (List.mem_cons_of_mem _ hx)) (by simp)]
      simp

/-- **Records without quotes are read back.** -/
theorem read_text (hrows : ∀ r ∈ rows, Simple r) (hne : rows ≠ []) : read (text rows) = rows := by
  rw [read, start, foldl_text hrows hne, List.nil_append]

end Tempograph.Csv
