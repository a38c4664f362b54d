import Tempograph.LoadTrace

/-!
The trace format that `main.c` documents, and when `load_trace` reads it.

The format is made of lines: one page number a line, with empty lines and comment lines
skipped. The reader takes pieces of at most 255 bytes for lines. So it reads the file as
documented exactly when no piece of a longer line is mistaken for a line of its own.
-/

namespace Tempograph.TraceFormat

open Common LoadTrace

/-- The lines of a file, each with its newline; the last one may have none. -/
def lines : List UInt8 → List (List UInt8)
  | [] => []
  | b :: file =>
    if b = newline then [b] :: lines file
    else match lines file with
      | [] => [[b]]
      | l :: ls => (b :: l) :: ls

/-- Neither empty nor a comment. -/
def isText (l : List UInt8) : Bool := ¬(l.head? = some hash ∨ l.head? = some newline)

/-- What `fgets` makes of a line. -/
def pieces (l : List UInt8) : List (List UInt8) :=
  if l.length < lineSize then [l] else l.take (lineSize - 1) :: pieces (l.drop (lineSize - 1))
termination_by l.length
decreasing_by simp [lineSize] at *; omega

variable (overflow : List UInt8 → Page)

/-- The accesses that lines stand for. -/
def meant (ls : List (List UInt8)) : List Page := (ls.filter isText).map (atoi overflow)

/-- The accesses that their pieces are taken for. -/
def taken (ls : List (List UInt8)) : List Page := meant overflow (ls.flatMap pieces)

/-- The trace that a file stands for. -/
def documented (file : List UInt8) : List Page := (meant overflow (lines file)).take maxTrace

/-- The first `k` lines of a file. -/
def firstLines (k : ℕ) (file : List UInt8) : List UInt8 := ((lines file).take k).flatten

/-- Line by line, the trace read is the trace that the lines so far stand for. -/
def ReadsFormat (file : List UInt8) : Prop :=
  ∀ k ≤ (lines file).length,
    loadTrace overflow (some (firstLines k file)) = documented overflow (firstLines k file)

/-- With room for `room` accesses more, the line is read as one: its number is in its first
255 bytes, and, unless it fills the trace, each piece of it behind them is skipped. -/
def ReadWhole (room : ℕ) (l : List UInt8) : Prop :=
  room = 0 ∨
    (isText l = true → atoi overflow (l.take (lineSize - 1)) = atoi overflow l) ∧
      (room = 1 ∧ isText l = true ∨ ∀ p ∈ (pieces l).tail, isText p = false)

/-- The accesses that still fit after the first `k` lines. -/
def room (file : List UInt8) (k : ℕ) : ℕ := maxTrace - ((lines file).take k).countP isText

variable {overflow} {file rest t l : List UInt8} {k : ℕ}

lemma isText_eq_true : isText l = true ↔ ¬(l.head? = some hash ∨ l.head? = some newline) :=
  decide_eq_true_iff

lemma isText_eq_false : isText l = false ↔ l.head? = some hash ∨ l.head? = some newline :=
  decide_eq_false_iff_not.trans not_not

/-! ### Lines -/

lemma lines_line (ht : newline ∉ t) (rest : List UInt8) :
    lines (t ++ newline :: rest) = (t ++ [newline]) :: lines rest := by
  induction t with
  | nil => simp [lines]
  | cons b t ih =>
    rw [List.mem_cons, not_or] at ht
    have hb : b ≠ newline := fun e => ht.1 e.symm
    rw [List.cons_append, lines, if_neg hb, ih ht.2]
    rfl

lemma lines_last (ht : newline ∉ t) (hne : t ≠ []) : lines t = [t] := by
  induction t with
  | nil => exact absurd rfl hne
  | cons b t ih =>
    rw [List.mem_cons, not_or] at ht
    have hb : b ≠ newline := fun e => ht.1 e.symm
    rw [lines, if_neg hb]
    cases t with
    | nil => rfl
    | cons c t => rw [ih ht.2 (by simp)]

/-- Induction over the lines of a file. -/
@[elab_as_elim]
theorem line_induction {P : List UInt8 → Prop} (nil : P [])
    (last : ∀ t, newline ∉ t → t ≠ [] → P t)
    (line : ∀ t rest, newline ∉ t → P rest → P (t ++ newline :: rest)) (file : List UInt8) :
    P file := by
  obtain ⟨n, hn⟩ : ∃ n, file.length ≤ n := ⟨_, le_rfl⟩
  induction n generalizing file with
  | zero =>
    obtain rfl : file = [] := List.length_eq_zero_iff.mp (Nat.le_zero.mp hn)
    exact nil
  | succ n ih =>
    by_cases h : newline ∈ file
    · obtain ⟨t, rest, rfl, ht⟩ := List.eq_append_cons_of_mem h
      rw [List.length_append, List.length_cons] at hn
      exact line t rest ht (ih rest (by omega))
    · by_cases hne : file = []
      · rw [hne]
        exact nil
      · exact last file h hne

lemma lines_firstLines (k : ℕ) (file : List UInt8) :
    lines (firstLines k file) = (lines file).take k := by
  unfold firstLines
  induction file using line_induction generalizing k with
  | nil => simp [lines]
  | last t ht hne =>
    rw [lines_last ht hne]
    cases k with
    | zero => rfl
    | succ k => simpa using lines_last ht hne
  | line t rest ht ih =>
    rw [lines_line ht]
    cases k with
    | zero => rfl
    | succ k =>
      rw [List.take_succ_cons, List.flatten_cons, List.append_assoc, List.singleton_append,
        lines_line ht, ih k]

lemma firstLines_all (file : List UInt8) : firstLines (lines file).length file = file := by
  unfold firstLines
  rw [List.take_length]
  induction file using line_induction with
  | nil => rfl
  | last t ht hne => simp [lines_last ht hne]
  | line t rest ht ih => simp [lines_line ht, ih]

/-! ### Pieces -/

lemma piece_long (ht : newline ∉ t) (hk : k ≤ t.length) (rest : List UInt8) :
    piece k (t ++ rest) = (t.take k, t.drop k ++ rest) := by
  induction k generalizing t with
  | zero => rfl
  | succ k ih =>
    cases t with
    | nil => simp at hk
    | cons b t =>
      rw [List.mem_cons, not_or] at ht
      have hb : b ≠ newline := fun e => ht.1 e.symm
      rw [List.cons_append, piece, if_neg hb, ih ht.2 (by simpa using hk)]
      rfl

lemma piece_last (ht : newline ∉ t) (hk : t.length ≤ k) : piece k t = (t, []) := by
  induction k generalizing t with
  | zero =>
    obtain rfl : t = [] := List.length_eq_zero_iff.mp (Nat.le_zero.mp hk)
    rfl
  | succ k ih =>
    cases t with
    | nil => rfl
    | cons b t =>
      rw [List.mem_cons, not_or] at ht
      have hb : b ≠ newline := fun e => ht.1 e.symm
      rw [piece, if_neg hb, ih ht.2 (by simpa using hk)]

lemma piece_shrinks (hne : file ≠ []) (k : ℕ) : (piece (k + 1) file).2.length < file.length := by
  have hle : ∀ (k : ℕ) (file : List UInt8), (piece k file).2.length ≤ file.length := by
    intro k
    induction k with
    | zero => exact fun _ => le_rfl
    | succ k ih =>
      intro file
      cases file with
      | nil => exact le_rfl
      | cons b file =>
        rw [piece]
        split_ifs
        · exact Nat.le_succ _
        · exact (ih file).trans (Nat.le_succ _)
  cases file with
  | nil => exact absurd rfl hne
  | cons b file =>
    rw [piece]
    split_ifs
    · exact Nat.lt_succ_self _
    · exact Nat.lt_succ_of_le (hle k file)

lemma pieces_short (h : l.length < lineSize) : pieces l = [l] := by rw [pieces, if_pos h]

lemma pieces_long (h : ¬l.length < lineSize) :
    pieces l = l.take (lineSize - 1) :: pieces (l.drop (lineSize - 1)) := by
  rw [pieces, if_neg h]

/-- The first piece of a file is the first piece of its first line. -/
lemma pieces_file (hne : file ≠ []) : (lines file).flatMap pieces =
    (piece (lineSize - 1) file).1 :: (lines (piece (lineSize - 1) file).2).flatMap pieces := by
  by_cases h : newline ∈ file
  · obtain ⟨t, rest, rfl, ht⟩ := List.eq_append_cons_of_mem h
    have hlen : (t ++ [newline]).length = t.length + 1 := by simp
    rw [lines_line ht, List.flatMap_cons]
    by_cases hs : t.length < lineSize - 1
    · rw [piece_line rest ht hs, pieces_short (by omega)]
      rfl
    · have hle : lineSize - 1 ≤ t.length := by omega
      rw [piece_long ht hle, pieces_long (by omega), List.take_append_of_le_length hle,
        List.drop_append_of_le_length hle,
        lines_line fun hm => ht (List.mem_of_mem_drop hm)]
      rfl
  · rw [lines_last h hne, List.flatMap_singleton]
    by_cases hs : file.length < lineSize
    · rw [piece_last h (by omega), pieces_short hs]
      rfl
    · have hle : lineSize - 1 ≤ file.length := by omega
      have hpiece := piece_long h hle []
      rw [List.append_nil, List.append_nil] at hpiece
      have hdrop : file.drop (lineSize - 1) ≠ [] := by
        rw [← List.length_pos_iff, List.length_drop]
        simp only [lineSize] at *
        omega
      rw [hpiece, pieces_long hs, lines_last (fun hm => h (List.mem_of_mem_drop hm)) hdrop,
        List.flatMap_singleton]

/-- **The loop** reads the pieces of the lines, and adds an access for each that is text, as
far as they fit. -/
theorem load_eq {fuel : ℕ} (hf : file.length < fuel) {trace : List Page}
    (hlen : trace.length ≤ maxTrace) :
    load overflow fuel file trace = trace ++
      (taken overflow (lines file)).take (maxTrace - trace.length) := by
  unfold taken meant
  induction fuel generalizing file trace with
  | zero => omega
  | succ fuel ih =>
    by_cases hne : file = []
    · subst hne
      simp [load, fgets, lines]
    · have hget : fgets lineSize file = some (piece (lineSize - 1) file) := by
        rw [fgets, if_neg hne]
      have hshort : (piece (lineSize - 1) file).2.length < fuel := by
        have := piece_shrinks hne (lineSize - 2)
        exact this.trans_le (Nat.le_of_lt_succ hf)
      rw [load, hget, pieces_file hne]
      generalize piece (lineSize - 1) file = q at hshort ⊢
      obtain ⟨p, rest⟩ := q
      dsimp only at hshort ⊢
      by_cases hroom : trace.length < maxTrace
      · rw [if_pos hroom]
        by_cases hp : p.head? = some hash ∨ p.head? = some newline
        · rw [if_pos hp, ih hshort hlen, List.filter_cons_of_neg (by simp [isText_eq_false.mpr hp])]
        · have hlen' : (trace ++ [atoi overflow p]).length = trace.length + 1 := by simp
          have hsucc : maxTrace - trace.length = (maxTrace - (trace.length + 1)) + 1 := by omega
          rw [if_neg hp, ih hshort (by omega), hlen',
            List.filter_cons_of_pos (isText_eq_true.mpr hp), List.map_cons, hsucc,
            List.take_succ_cons, List.append_assoc, List.singleton_append]
      · have : maxTrace - trace.length = 0 := by omega
        rw [if_neg hroom, this, List.take_zero, List.append_nil]

/-- The trace that is read from a file. -/
lemma loadTrace_eq (file : List UInt8) :
    loadTrace overflow (some file) = (taken overflow (lines file)).take maxTrace := by
  rw [loadTrace, load_eq (Nat.lt_succ_self _) (Nat.zero_le _), List.nil_append, List.length_nil,
    Nat.sub_zero]

/-- A trace fits. -/
lemma loadTrace_length (file : Option (List UInt8)) :
    (loadTrace overflow file).length ≤ maxTrace := by
  cases file with
  | none => exact Nat.zero_le _
  | some file =>
    rw [loadTrace_eq]
    exact List.length_take_le _ _

/-! ### One line -/

lemma isText_take (hl : l ≠ []) : isText (l.take (lineSize - 1)) = isText l := by
  cases l with
  | nil => exact absurd rfl hl
  | cons b l => rfl

lemma pieces_eq_cons (l : List UInt8) : pieces l = l.take (lineSize - 1) :: (pieces l).tail := by
  by_cases h : l.length < lineSize
  · rw [pieces_short h, List.take_of_length_le (by omega)]
    rfl
  · rw [pieces_long h]
    rfl

lemma filter_eq_nil_iff_text {ps : List (List UInt8)} :
    ps.filter isText = [] ↔ ∀ p ∈ ps, isText p = false := by
  simp [List.filter_eq_nil_iff]

/-- The line is read whole exactly if what fits of its accesses is what it stands for. -/
lemma readWhole_iff (hl : l ≠ []) (r : ℕ) : ReadWhole overflow r l ↔
    (taken overflow [l]).take r = (meant overflow [l]).take r := by
  unfold ReadWhole taken meant
  rw [List.flatMap_singleton, pieces_eq_cons l, List.tail_cons, ← filter_eq_nil_iff_text]
  cases r with
  | zero => simp
  | succ r =>
    simp only [Nat.succ_ne_zero, false_or, Nat.add_eq_right]
    by_cases ht : isText l = true
    · rw [List.filter_cons_of_pos (by rwa [isText_take hl]), List.filter_cons_of_pos ht]
      simp only [ht, List.map_cons, List.take_succ_cons, List.cons.injEq, List.filter_nil,
        List.map_nil, List.take_nil, List.take_eq_nil_iff, List.map_eq_nil_iff, true_implies,
        and_true]
    · rw [List.filter_cons_of_neg (by rwa [isText_take hl]), List.filter_cons_of_neg ht]
      simp [ht]

lemma line_ne_nil (file : List UInt8) : ∀ l ∈ lines file, l ≠ [] := by
  induction file using line_induction with
  | nil => simp [lines]
  | last t ht hne => simp [lines_last ht hne, hne]
  | line t rest ht ih =>
    rw [lines_line ht]
    exact List.forall_mem_cons.mpr ⟨by simp, ih⟩

/-! ### Files -/

lemma meant_append (ls ls' : List (List UInt8)) :
    meant overflow (ls ++ ls') = meant overflow ls ++ meant overflow ls' := by
  simp [meant]

lemma taken_append (ls ls' : List (List UInt8)) :
    taken overflow (ls ++ ls') = taken overflow ls ++ taken overflow ls' := by
  rw [taken, List.flatMap_append, meant_append]
  rfl

/-- No line is read as fewer accesses than it stands for. -/
lemma length_meant_le {ls : List (List UInt8)} (hls : ∀ l ∈ ls, l ≠ []) :
    (meant overflow ls).length ≤ (taken overflow ls).length := by
  induction ls with
  | nil => exact le_rfl
  | cons l ls ih =>
    obtain ⟨hl, hls⟩ := List.forall_mem_cons.mp hls
    have hone : (meant overflow [l]).length ≤ (taken overflow [l]).length := by
      unfold taken meant
      rw [List.flatMap_singleton, pieces_eq_cons l]
      by_cases ht : isText l = true
      · rw [List.filter_cons_of_pos ht, List.filter_cons_of_pos (by rwa [isText_take hl])]
        simp
      · rw [List.filter_cons_of_neg ht]
        simp
    rw [← List.singleton_append, meant_append, taken_append, List.length_append,
      List.length_append]
    exact Nat.add_le_add hone (ih hls)

/-- If all is right so far, it is right one line on exactly if that line is read whole. -/
lemma reads_next (hk : k < (lines file).length)
    (h : loadTrace overflow (some (firstLines k file)) = documented overflow (firstLines k file)) :
    loadTrace overflow (some (firstLines (k + 1) file)) =
        documented overflow (firstLines (k + 1) file) ↔
      ReadWhole overflow (room file k) (lines file)[k] := by
  rw [loadTrace_eq, documented, lines_firstLines] at h ⊢
  have hlen := congrArg List.length h
  rw [List.length_take, List.length_take] at hlen
  have hroom : maxTrace - (meant overflow ((lines file).take k)).length = room file k := by
    rw [meant, List.length_map, ← List.countP_eq_length_filter, room]
  have hroom' : maxTrace - (taken overflow ((lines file).take k)).length = room file k := by
    omega
  rw [List.take_succ_eq_append_getElem hk, meant_append, taken_append, List.take_append,
    List.take_append, hroom, hroom', h, List.append_cancel_left_eq,
    readWhole_iff (line_ne_nil file _ (List.getElem_mem hk))]

/-- A trace that is not full is right at the end only if it was right all along. -/
lemma reads_all (hcount : (lines file).countP isText < maxTrace)
    (h : loadTrace overflow (some file) = documented overflow file) :
    ReadsFormat overflow file := by
  intro k _
  rw [loadTrace_eq, documented] at h ⊢
  rw [lines_firstLines]
  have hmeant : (meant overflow (lines file)).length < maxTrace := by
    rwa [meant, List.length_map, ← List.countP_eq_length_filter]
  have hlen := congrArg List.length h
  rw [List.length_take, List.length_take] at hlen
  rw [List.take_of_length_le (by omega), List.take_of_length_le (by omega),
    ← List.take_append_drop k (lines file), meant_append, taken_append] at h
  -- neither the first lines nor the others are read as more than they stand for
  have hne := line_ne_nil file
  have h1 : (meant overflow ((lines file).take k)).length ≤
      (taken overflow ((lines file).take k)).length :=
    length_meant_le fun l hl => hne l (List.mem_of_mem_take hl)
  have h2 : (meant overflow ((lines file).drop k)).length ≤
      (taken overflow ((lines file).drop k)).length :=
    length_meant_le fun l hl => hne l (List.mem_of_mem_drop hl)
  have hlen' := congrArg List.length h
  rw [List.length_append, List.length_append] at hlen'
  rw [(List.append_inj h (by omega)).1]

/-- A file with lines of at most 255 bytes, newlines included, is read as documented. -/
theorem loadTrace_short (h : ∀ l ∈ lines file, l.length < lineSize) :
    loadTrace overflow (some file) = documented overflow file := by
  have hpieces : (lines file).flatMap pieces = lines file := by
    calc (lines file).flatMap pieces = (lines file).flatMap fun l => [l] := by
          exact List.flatMap_congr fun l hl => pieces_short (h l hl)
      _ = lines file := List.flatMap_singleton' _
  rw [loadTrace_eq, documented, taken, hpieces]

/-- **When the documented format is read**: line by line, the trace is the one that the lines
stand for exactly if every line is read whole, as far as there is room. -/
theorem load_trace_format (overflow : List UInt8 → Page) (file : List UInt8) :
    (ReadsFormat overflow file ↔ ∀ k (hk : k < (lines file).length),
      ReadWhole overflow (room file k) (lines file)[k]) ∧
    (ReadsFormat overflow file → loadTrace overflow (some file) = documented overflow file) ∧
    ((lines file).countP isText < maxTrace →
      loadTrace overflow (some file) = documented overflow file → ReadsFormat overflow file) := by
  refine ⟨⟨fun h k hk => (reads_next hk (h k hk.le)).mp (h (k + 1) hk), fun h k hk => ?_⟩,
    fun h => ?_, reads_all⟩
  · induction k with
    | zero =>
      rw [loadTrace_eq, documented, lines_firstLines]
      rfl
    | succ k ih => exact (reads_next hk (ih (Nat.le_of_succ_le hk))).mpr (h k hk)
  · have := h _ le_rfl
    rwa [firstLines_all] at this

/-- The last byte of a comment of 256 bytes is read as an access. -/
lemma long_comment {c : List UInt8} {b : UInt8} (hc : c.head? = some LoadTrace.hash)
    (hlen : c.length = lineSize - 1) (hnl : newline ∉ c) (hb : b ≠ newline)
    (hb' : b ≠ LoadTrace.hash) :
    loadTrace overflow (some (c ++ [b, newline])) = [atoi overflow [b, newline]] ∧
      documented overflow (c ++ [b, newline]) = [] := by
  have hne : c ≠ [] := by rintro rfl; cases hc
  have hsplit : c ++ [b, newline] = (c ++ [b]) ++ [newline] := by simp
  have hnl' : newline ∉ c ++ [b] := by
    rw [List.mem_append, List.mem_singleton, not_or]
    exact ⟨hnl, Ne.symm hb⟩
  have hlines : lines (c ++ [b, newline]) = [c ++ [b, newline]] := by
    rw [hsplit, lines_line hnl']
    rfl
  have hlong : ¬(c ++ [b, newline]).length < lineSize := by
    rw [List.length_append, hlen]
    simp [lineSize]
  have hpieces : pieces (c ++ [b, newline]) = [c, [b, newline]] := by
    rw [pieces_long hlong, List.take_left' hlen, List.drop_left' hlen,
      pieces_short (by simp [lineSize])]
  have hskip : ∀ r, isText (c ++ r) = false := fun r =>
    isText_eq_false.mpr (Or.inl (by rw [List.head?_append_of_ne_nil c hne, hc]))
  have hc' : isText c = false := by simpa using hskip []
  have htext : isText [b, newline] = true := by
    refine isText_eq_true.mpr (not_or.mpr ⟨fun e => hb' ?_, fun e => hb ?_⟩)
    · exact Option.some.inj e
    · exact Option.some.inj e
  rw [loadTrace_eq, documented, hlines, taken, List.flatMap_singleton, hpieces]
  constructor
  · simp [meant, hc', htext, maxTrace]
  · simp [meant, hskip]

/-- A comment that is too long gives an access to the page 0. -/
theorem load_trace_long_comment :
    ¬ ∀ (overflow : List UInt8 → Page) (file : List UInt8), 0 ∉ file →
      loadTrace overflow (some file) = documented overflow file := by
  intro h
  obtain ⟨xs, hx⟩ : ∃ xs : List UInt8, xs = List.replicate 254 120 := ⟨_, rfl⟩
  have hlen : xs.length = 254 := by rw [hx, List.length_replicate]
  have hmem : ∀ b ∈ xs, b = 120 := fun b hb => List.eq_of_mem_replicate (hx ▸ hb)
  have hnl : newline ∉ LoadTrace.hash :: xs := by
    rw [List.mem_cons, not_or]
    exact ⟨by decide, fun hm => absurd (hmem _ hm) (by decide)⟩
  have h0 : (0 : UInt8) ∉ LoadTrace.hash :: xs ++ [120, newline] := by
    rw [List.mem_append, List.mem_cons, not_or, not_or]
    exact ⟨⟨by decide, fun hm => absurd (hmem _ hm) (by decide)⟩, by decide⟩
  obtain ⟨h1, h2⟩ := @long_comment (fun _ => 0) (LoadTrace.hash :: xs) 120 rfl
    (by rw [List.length_cons, hlen]; rfl) hnl (by decide) (by decide)
  have := h (fun _ => 0) (LoadTrace.hash :: xs ++ [120, newline]) h0
  rw [h1, h2] at this
  cases this

end Tempograph.TraceFormat
