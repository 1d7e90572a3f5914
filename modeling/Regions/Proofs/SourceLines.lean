import Mathlib
import Regions.Source

/-!
# Lines of a source text

A position in a text is given by a row and a column as well as by a number of bytes. This file says
what rows and columns mean in terms of the lines of the text, which are what stands between the line
breaks, and what a highlighted line shows.

* `Source.lines`, `Source.lineStart`, `Source.lineEnd`: the lines, and where they start and end;
* `Source.IsBoundary`: the positions between characters;
* `exists_lines_of_append`: the line of a position, among those of the text;
* `row_column_of_position`: row and column determine the position, and are ordered like it;
* `highlight_of_span`: what is highlighted, and when nothing can be.
-/

namespace Regions
namespace Source

variable {source : Source} {before after : List Char} {pos row column : Nat} {span : Span}

/-- The lines of a text, without the breaks between them. -/
def lines (source : Source) : List (List Char) :=
  source.contents.toList.splitOn '\n'

/-- The number of bytes of a text. -/
def size (source : Source) : Nat := source.contents.utf8ByteSize

/-- A position, which counts as the end when beyond it. -/
def clamp (source : Source) (pos : Nat) : Nat := min pos source.size

/-- The position is in the text, and not inside of a character. -/
def IsBoundary (source : Source) (pos : Nat) : Prop :=
  String.Pos.Raw.IsValid source.contents ⟨pos⟩

/-- The position where a row starts: each line before has its characters and a break. -/
def lineStart (source : Source) (row : Nat) : Nat :=
  ((source.lines.take (row - 1)).map fun line => byteLength line + 1).sum

/-! ## Cutting a text -/

theorem byteLength_toList (text : String) : byteLength text.toList = text.utf8ByteSize := by
  have hlen : ∀ cs : List Char, byteLength cs = String.utf8Len cs := by
    intro cs
    induction cs with
    | nil => rfl
    | cons c cs ih => rw [byteLength_cons, String.utf8Len_cons, ih, Nat.add_comm]
  rw [hlen, ← String.utf8ByteSize_ofList, String.ofList_toList]

/-- At a boundary the text falls into two parts. -/
theorem isBoundary_iff : source.IsBoundary pos ↔
    ∃ before after, source.contents.toList = before ++ after ∧ byteLength before = pos := by
  unfold IsBoundary
  rw [String.Pos.Raw.isValid_iff_exists_append]
  constructor
  · rintro ⟨front, back, happ, hpos⟩
    refine ⟨front.toList, back.toList, by rw [happ, String.toList_append], ?_⟩
    rw [byteLength_toList]
    exact (congrArg String.Pos.Raw.byteIdx hpos).symm
  · rintro ⟨before, after, happ, rfl⟩
    refine ⟨.ofList before, .ofList after, ?_, String.Pos.Raw.ext ?_⟩
    · rw [← String.ofList_append, ← happ, String.ofList_toList]
    · change byteLength before = (String.ofList before).utf8ByteSize
      rw [← byteLength_toList, String.toList_ofList]

theorem cut?_eq_some_iff : source.cut? pos = some (before, after) ↔
    source.contents.toList = before ++ after ∧ byteLength before = source.clamp pos := by
  rw [cut?, splitBytes?_eq_some_iff, byteLength_toList]
  rfl

/-- Of two ways to cut a text, the one after fewer bytes is the earlier one. -/
theorem exists_between {before' after' : List Char} (happ : before ++ after = before' ++ after')
    (hle : byteLength before ≤ byteLength before') :
    ∃ middle, before' = before ++ middle ∧ after = middle ++ after' := by
  rcases List.append_eq_append_iff.1 happ with hlater | ⟨middle, rfl, rfl⟩
  · exact hlater
  · cases middle with
    | nil => exact ⟨[], by simp, rfl⟩
    | cons c cs =>
      have := c.utf8Size_pos
      simp only [byteLength_append, byteLength_cons] at hle
      omega

/-! ## The line of a position -/

theorem lastLine_concat (cs : List Char) (c : Char) :
    lastLine (cs ++ [c]) = if c = '\n' then [] else lastLine cs ++ [c] := by
  by_cases hc : c = '\n' <;> simp [lastLine, hc]

theorem newline_not_mem_lastLine (cs : List Char) : '\n' ∉ lastLine cs := by
  intro hmem
  simpa using List.mem_takeWhile_imp (List.mem_reverse.1 hmem)

theorem newline_not_mem_firstLine (cs : List Char) : '\n' ∉ firstLine cs := by
  intro hmem
  simpa using List.mem_takeWhile_imp hmem

theorem firstLine_eq_or (cs : List Char) :
    cs = firstLine cs ∨ ∃ rest, cs = firstLine cs ++ '\n' :: rest := by
  induction cs with
  | nil => exact .inl rfl
  | cons c cs ih =>
    by_cases hc : c = '\n'
    · exact .inr ⟨cs, by simp [firstLine, hc]⟩
    · have hcons : firstLine (c :: cs) = c :: firstLine cs := by simp [firstLine, hc]
      rw [hcons]
      refine ih.imp (congrArg _) ?_
      rintro ⟨rest, hrest⟩
      exact ⟨rest, congrArg _ hrest⟩

/-- The lines that are over before a position, and the rest of the text from its line on. -/
theorem exists_lines_before (before : List Char) : ∃ above : List (List Char),
    (∀ after, (before ++ after).splitOn '\n' = above ++
      (lastLine before ++ after).splitOn '\n') ∧ above.length = before.count '\n' ∧
      (above.map fun line => byteLength line + 1).sum + byteLength
      (lastLine before) = byteLength before := by
  induction before using List.reverseRecOn with
  | nil => exact ⟨[], by simp [lastLine]⟩
  | append_singleton before c ih =>
    obtain ⟨above, hsplit, hlength, hsum⟩ := ih
    by_cases hc : c = '\n'
    · -- The line of the earlier position ends here.
      refine ⟨above ++ [lastLine before], fun after => ?_, ?_, ?_⟩
      · rw [List.append_assoc, hsplit, lastLine_concat, if_pos hc, hc, List.singleton_append,
          List.splitOn_append_cons_self_of_not_mem (newline_not_mem_lastLine before)]
        simp
      · simp [hc, hlength]
      · rw [lastLine_concat, if_pos hc]
        simp only [List.map_append, List.map_cons, List.map_nil, List.sum_append, List.sum_cons,
          List.sum_nil, byteLength_append, byteLength_cons, byteLength_nil, hc]
        have hone : Char.utf8Size '\n' = 1 := rfl
        omega
    · refine ⟨above, fun after => ?_, ?_, ?_⟩
      · rw [List.append_assoc, hsplit, lastLine_concat, if_neg hc, List.append_assoc]
      · simp [hc, hlength]
      · rw [lastLine_concat, if_neg hc]
        simp only [byteLength_append]
        omega

/-- The line of a position is what stands around it up to the next line breaks. -/
theorem exists_lines_of_append (before after : List Char) : ∃ above below : List (List Char),
    (before ++ after).splitOn '\n' = above ++ (lastLine before ++ firstLine after) :: below ∧
      above.length = before.count '\n' ∧
      (above.map fun line => byteLength line + 1).sum + byteLength
      (lastLine before) = byteLength before := by
  obtain ⟨above, hsplit, hlength, hsum⟩ := exists_lines_before before
  have hline : '\n' ∉ lastLine before ++ firstLine after := by
    simp [newline_not_mem_lastLine, newline_not_mem_firstLine]
  rcases firstLine_eq_or after with hafter | ⟨rest, hafter⟩
  · refine ⟨above, [], ?_, hlength, hsum⟩
    rw [hsplit, ← hafter, List.splitOn_eq_singleton (hafter ▸ hline)]
  · refine ⟨above, rest.splitOn '\n', ?_, hlength, hsum⟩
    rw [hsplit]
    nth_rewrite 1 [hafter]
    rw [← List.append_assoc, List.splitOn_append_cons_self_of_not_mem hline]

/-! ## Rows and columns -/

/-- A row and a column give the position, as bytes in the lines of the text. -/
structure Locates (source : Source) (row column pos : Nat) : Prop where
  row_pos : 1 ≤ row
  column_pos : 1 ≤ column
  line : ∃ line, source.lines[row - 1]? = some line ∧ column - 1 ≤ byteLength line
  position : source.lineStart row + (column - 1) = pos

/-- The parts of a text around a position lie in the lines of the text as its row and column say. -/
theorem locates_of_cut (happ : source.contents.toList = before ++ after) :
    source.lines[before.count '\n']? = some (lastLine before ++ firstLine after) ∧
      source.Locates (before.count '\n' + 1) (byteLength (lastLine before) + 1)
      (byteLength before) := by
  obtain ⟨above, below, hsplit, hlength, hsum⟩ := exists_lines_of_append before after
  have hlines : source.lines = above ++ (lastLine before ++ firstLine after) :: below := by
    rw [lines, happ, hsplit]
  have hline : source.lines[before.count '\n']? = some (lastLine before ++ firstLine after) := by
    rw [hlines, ← hlength]
    simp
  have hstart : source.lineStart (before.count '\n' + 1) +
      byteLength (lastLine before) = byteLength before := by
    rw [lineStart, Nat.add_sub_cancel, hlines, ← hlength, List.take_left, hsum]
  refine ⟨hline, Nat.le_add_left _ _, Nat.le_add_left _ _, ⟨_, hline, ?_⟩, hstart⟩
  rw [byteLength_append]
  exact Nat.le_add_right _ _

theorem row?_eq (happ : source.contents.toList = before ++ after)
    (hlen : byteLength before = source.clamp pos) :
    source.row? pos = some (before.count '\n' + 1) := by
  rw [row?, cut?_eq_some_iff.2 ⟨happ, hlen⟩]
  rfl

theorem column?_eq (happ : source.contents.toList = before ++ after)
    (hlen : byteLength before = source.clamp pos) :
    source.column? pos = some (byteLength (lastLine before) + 1) := by
  rw [column?, cut?_eq_some_iff.2 ⟨happ, hlen⟩]
  rfl

/-- A position that has a row and a column is where they say. -/
theorem locates_of_row?_column? (hrow : source.row? pos = some row)
    (hcolumn : source.column? pos = some column) :
    source.Locates row column (source.clamp pos) := by
  obtain ⟨⟨before, after⟩, hcut, -⟩ := Option.map_eq_some_iff.1 hrow
  obtain ⟨happ, hlen⟩ := cut?_eq_some_iff.1 hcut
  cases (row?_eq happ hlen).symm.trans hrow
  cases (column?_eq happ hlen).symm.trans hcolumn
  exact hlen ▸ (locates_of_cut happ).2

/-- A row starts after all that can be on the rows before it. -/
theorem lineStart_lt {row' : Nat} {line : List Char} (hrow : 1 ≤ row) (hlt : row < row')
    (hline : source.lines[row - 1]? = some line) :
    source.lineStart row + byteLength line < source.lineStart row' := by
  obtain ⟨d, rfl⟩ := Nat.exists_eq_add_of_lt hlt
  have htake : source.lines.take (row + d + 1 - 1) =
      source.lines.take (row - 1) ++ line :: ((source.lines.drop row).take d) := by
    have hdrop : source.lines.drop (row - 1) = line :: source.lines.drop row := by
      obtain ⟨hbound, hget⟩ := List.getElem?_eq_some_iff.1 hline
      rw [List.drop_eq_getElem_cons hbound, hget, Nat.sub_add_cancel hrow]
    rw [show row + d + 1 - 1 = (row - 1) +
      (d + 1) by omega, List.take_add, hdrop, List.take_succ_cons]
  unfold lineStart
  rw [htake]
  simp only [List.map_append, List.map_cons, List.sum_append, List.sum_cons]
  omega

/-- Positions are ordered like their rows, and on one row like their columns. -/
theorem Locates.lt_iff {row' column' pos' : Nat} (h : source.Locates row column pos)
    (h' : source.Locates row' column' pos') :
    pos < pos' ↔ toLex (row, column) < toLex (row', column') := by
  obtain ⟨hrow, hcolumn, ⟨line, hline, hle⟩, hpos⟩ := h
  obtain ⟨hrow', hcolumn', ⟨line', hline', hle'⟩, hpos'⟩ := h'
  rw [Prod.Lex.toLex_lt_toLex]
  rcases Nat.lt_trichotomy row row' with hlt | rfl | hlt
  · have := lineStart_lt hrow hlt hline
    exact ⟨fun _ => .inl hlt, fun _ => by omega⟩
  · constructor
    · exact fun _ => .inr ⟨rfl, by dsimp only; omega⟩
    · rintro (hlt | ⟨-, hlt⟩) <;> dsimp only at hlt <;> omega
  · have := lineStart_lt hrow' hlt hline'
    refine ⟨fun _ => by omega, ?_⟩
    rintro (hlt' | ⟨heq, -⟩) <;> dsimp only at * <;> omega

/-- A position between two characters has a row and a column, which give it back: so many lines are
before it, and so many bytes of its own line. Positions are ordered like their rows and columns. -/
theorem row_column_of_position (source : Source) :
    (∀ pos, source.IsBoundary (source.clamp pos) →
      ∃ row column line, source.row? pos = some row ∧ source.column? pos = some column ∧
        1 ≤ row ∧ row ≤ source.lines.length ∧ source.lines[row - 1]? = some line ∧
        1 ≤ column ∧ column - 1 ≤ byteLength line ∧
        source.lineStart row + (column - 1) = source.clamp pos) ∧
    ∀ pos pos' row column row' column', source.row? pos = some row →
    source.column? pos = some column →
      source.row? pos' = some row' → source.column? pos' = some column' →
        (source.clamp pos < source.clamp pos' ↔ toLex (row, column) < toLex (row', column')) ∧
        (source.clamp pos = source.clamp pos' ↔ (row, column) = (row', column')) := by
  constructor
  · intro pos hboundary
    obtain ⟨before, after, happ, hlen⟩ := isBoundary_iff.1 hboundary
    obtain ⟨hline, hlocates⟩ := locates_of_cut happ
    obtain ⟨hbound, -⟩ := List.getElem?_eq_some_iff.1 hline
    refine ⟨_, _, _, row?_eq happ hlen, column?_eq happ hlen, hlocates.row_pos, hbound, hline,
      hlocates.column_pos, ?_, hlen ▸ hlocates.position⟩
    rw [Nat.add_sub_cancel, byteLength_append]
    exact Nat.le_add_right _ _
  · intro pos pos' row column row' column' hrow hcolumn hrow' hcolumn'
    have hlocates := locates_of_row?_column? hrow hcolumn
    have hlocates' := locates_of_row?_column? hrow' hcolumn'
    refine ⟨hlocates.lt_iff hlocates', fun heq => ?_, fun heq => ?_⟩
    · -- Neither pair comes before the other one.
      have hle := (hlocates.lt_iff hlocates').not.1 (by omega)
      have hle' := (hlocates'.lt_iff hlocates).not.1 (by omega)
      exact toLex_inj.1 (le_antisymm (not_lt.1 hle') (not_lt.1 hle))
    · cases heq
      exact hlocates.position.symm.trans hlocates'.position

/-- After an empty line, and beyond the end. -/
theorem row_column_of_positions :
    let source : Source := { contents := "é\n\nab" }
    (source.IsBoundary (source.clamp 9) ∧ ∃ row column line, source.row? 9 = some row ∧
      source.column? 9 = some column ∧ 1 ≤ row ∧ row ≤ source.lines.length ∧
      source.lines[row - 1]? = some line ∧ 1 ≤ column ∧ column - 1 ≤ byteLength line ∧
      source.lineStart row + (column - 1) = source.clamp 9) ∧
    (source.row? 3 = some 2 ∧ source.column? 3 = some 1 ∧ source.row? 9 = some 3 ∧
    source.column? 9 = some 3) ∧
    (source.clamp 3 < source.clamp 9 ↔ toLex (2, 1) < toLex (3, 3)) ∧
    (source.clamp 3 = source.clamp 9 ↔ (2, 1) = (3, 3)) := by
  intro source
  have hboundary : source.IsBoundary (source.clamp 9) := by
    unfold IsBoundary
    decide
  obtain ⟨hexists, hordered⟩ := row_column_of_position source
  have hfound : source.row? 3 = some 2 ∧ source.column? 3 = some 1 ∧
      source.row? 9 = some 3 ∧ source.column? 9 = some 3 := by decide
  exact ⟨⟨hboundary, hexists 9 hboundary⟩, hfound,
    hordered 3 9 2 1 3 3 hfound.1 hfound.2.1 hfound.2.2.1 hfound.2.2.2⟩

/-! ## Highlighted lines -/

/-- Characters with the offsets at which they stand. -/
def offsets : Nat → List Char → List (Nat × Char)
  | _, [] => []
  | start, c :: cs => (start, c) :: offsets (start + c.utf8Size) cs

/-- The offset of the first line break at or after a position, or the end of the text. -/
def lineEnd (source : Source) (pos : Nat) : Nat :=
  match (offsets 0 source.contents.toList).find? fun found =>
    pos ≤ found.1 && found.2 == '\n' with
  | some found => found.1
  | none => source.size

theorem offsets_append (start : Nat) (cs ds : List Char) :
    offsets start (cs ++ ds) = offsets start cs ++ offsets (start + byteLength cs) ds := by
  induction cs generalizing start with
  | nil => rfl
  | cons c cs ih => simp [offsets, ih, Nat.add_assoc]

/-- Each character stands at an offset from the start on, and ends before the end. -/
theorem mem_offsets {start : Nat} {cs : List Char} {found : Nat × Char}
    (h : found ∈ offsets start cs) :
    start ≤ found.1 ∧ found.1 < start + byteLength cs ∧ found.2 ∈ cs := by
  induction cs generalizing start with
  | nil => cases h
  | cons c cs ih =>
    have := c.utf8Size_pos
    rcases List.mem_cons.1 h with rfl | h
    · simp only [byteLength_cons, List.mem_cons, true_or, and_true]
      omega
    · obtain ⟨hstart, hend, hmem⟩ := ih h
      simp only [byteLength_cons]
      exact ⟨by omega, by omega, List.mem_cons_of_mem _ hmem⟩

/-- A line ends before the first break in what follows. -/
theorem lineEnd_eq (happ : source.contents.toList = before ++ after) :
    source.lineEnd (byteLength before) = byteLength before + byteLength (firstLine after) := by
  -- Neither what is before the position nor the rest of its line has a break that counts.
  have hnone :
      ((offsets 0 before ++ offsets (byteLength before) (firstLine after)).find? fun found =>
      byteLength before ≤ found.1 && found.2 == '\n') = none := by
    rw [List.find?_eq_none]
    intro found hmem
    rcases List.mem_append.1 hmem with hmem | hmem
    · have := (mem_offsets hmem).2.1
      simp only [Bool.and_eq_true, decide_eq_true_eq, not_and]
      omega
    · have hchar := (mem_offsets hmem).2.2
      simp only [Bool.and_eq_true, beq_iff_eq, not_and]
      rintro - hbreak
      exact newline_not_mem_firstLine after (hbreak ▸ hchar)
  have hsize : source.size = byteLength before + byteLength after := by
    rw [size, ← byteLength_toList, happ, byteLength_append]
  unfold lineEnd
  rcases firstLine_eq_or after with hafter | ⟨rest, hafter⟩
  · rw [hafter] at happ
    rw [happ, offsets_append, Nat.zero_add, hnone, hsize, ← hafter]
  · rw [happ]
    nth_rewrite 1 [hafter]
    rw [← List.append_assoc, offsets_append, offsets_append, List.find?_append,
      Nat.zero_add, hnone]
    simp [offsets]

/-- Where the marked part of a span ends: not before its start, and not beyond the line. -/
def markEnd (source : Source) (span : Span) : Nat :=
  max (source.clamp span.start) (min span.stop (source.lineEnd (source.clamp span.start)))

/-- A part of a line as it stands in the text: the text before the line, the line around the part,
and the text after the line. -/
structure Excerpt.StandsIn (excerpt : Excerpt) (source : Source) (start stop : Nat) : Prop where
  row_pos : 1 ≤ excerpt.row
  line : source.lines[excerpt.row - 1]? = some (excerpt.before ++ excerpt.marked ++ excerpt.after)
  text : ∃ above below, source.contents.toList =
      above ++ (excerpt.before ++ excerpt.marked ++ excerpt.after) ++ below ∧
    byteLength above = source.lineStart excerpt.row ∧
    byteLength (above ++ excerpt.before) = start ∧
    byteLength (above ++ excerpt.before ++ excerpt.marked) = stop

theorem markEnd_eq (happ : source.contents.toList = before ++ after)
    (hlen : byteLength before = source.clamp span.start) : source.markEnd span =
      byteLength before + min (span.stop - byteLength before) (byteLength (firstLine after)) := by
  rw [markEnd, ← hlen, lineEnd_eq happ]
  omega

theorem excerpt?_eq (happ : source.contents.toList = before ++ after)
    (hlen : byteLength before = source.clamp span.start) : source.excerpt?
    span = (splitBytes? (min (span.stop - byteLength before) (byteLength (firstLine after)))
      (firstLine after)).map fun parts =>
        { row := before.count '\n' + 1, before := lastLine before, marked := parts.1,
            after := parts.2 } := by
  simp [excerpt?, row?_eq happ hlen, cut?_eq_some_iff.2 ⟨happ, hlen⟩, Option.map_eq_bind]

/-- What is shown of a span stands in the text where the span says. -/
theorem standsIn_of_excerpt? {excerpt : Excerpt} (h : source.excerpt? span = some excerpt) :
    source.row? span.start = some excerpt.row ∧ '\n' ∉ excerpt.before ++ excerpt.marked ++
    excerpt.after ∧ excerpt.StandsIn source (source.clamp span.start) (source.markEnd span) := by
  obtain ⟨row, hrow, -⟩ := Option.bind_eq_some_iff.1 h
  obtain ⟨⟨before, after⟩, hcut, -⟩ := Option.map_eq_some_iff.1 hrow
  obtain ⟨happ, hlen⟩ := cut?_eq_some_iff.1 hcut
  rw [excerpt?_eq happ hlen] at h
  obtain ⟨⟨marked, rest⟩, hsplit, rfl⟩ := Option.map_eq_some_iff.1 h
  obtain ⟨hfirst, hwidth⟩ := splitBytes?_eq_some_iff.1 hsplit
  obtain ⟨hline, hlocates⟩ := locates_of_cut happ
  obtain ⟨above, habove⟩ : lastLine before <:+ before := by
    simpa [lastLine] using List.reverse_suffix.2
      (List.takeWhile_prefix (l := before.reverse) (· ≠ '\n'))
  obtain ⟨below, hbelow⟩ : firstLine after <+: after := List.takeWhile_prefix _
  have hshown : lastLine before ++ firstLine after = lastLine before ++ marked ++ rest := by
    rw [hfirst, List.append_assoc]
  have hbytes := congrArg byteLength habove
  have hposition := hlocates.position
  rw [byteLength_append] at hbytes
  refine ⟨row?_eq happ hlen, ?_, hlocates.row_pos, ?_, above, below, ?_, ?_, ?_, ?_⟩ <;>
    dsimp only
  · rw [← hshown, List.mem_append]
    exact not_or_intro (newline_not_mem_lastLine before) (newline_not_mem_firstLine after)
  · rw [Nat.add_sub_cancel, hline, hshown]
  · calc source.contents.toList
        = (above ++ lastLine before) ++ (firstLine after ++ below) := by rw [happ, habove, hbelow]
      _ = above ++ (lastLine before ++ marked ++ rest) ++ below :=
        by rw [← hshown]; simp only [List.append_assoc]
  · omega
  · rw [habove, hlen]
  · rw [habove, byteLength_append, hwidth, markEnd_eq happ hlen]

/-- A span can be shown if it starts and ends between characters. -/
theorem exists_excerpt?_iff : (∃ excerpt, source.excerpt? span = some excerpt) ↔
    source.IsBoundary (source.clamp span.start) ∧ source.IsBoundary (source.markEnd span) := by
  constructor
  · rintro ⟨excerpt, hexcerpt⟩
    obtain ⟨-, -, -, -, above, below, happ, -, hstart, hstop⟩ := standsIn_of_excerpt? hexcerpt
    refine ⟨isBoundary_iff.2 ⟨_, excerpt.marked ++ excerpt.after ++ below, ?_, hstart⟩,
      isBoundary_iff.2 ⟨_, excerpt.after ++ below, ?_, hstop⟩⟩ <;> simp [happ]
  · rintro ⟨hstart, hstop⟩
    obtain ⟨before, after, happ, hlen⟩ := isBoundary_iff.1 hstart
    obtain ⟨before', after', happ', hlen'⟩ := isBoundary_iff.1 hstop
    have hend := markEnd_eq happ hlen
    -- The text up to the end goes beyond the start, but not beyond the line.
    obtain ⟨marked, rfl, hafter⟩ := exists_between (happ.symm.trans happ') (by omega)
    rw [byteLength_append] at hlen'
    obtain ⟨below, hbelow⟩ : firstLine after <+: after := List.takeWhile_prefix _
    obtain ⟨rest, hfirst, -⟩ := exists_between (hafter.symm.trans hbelow.symm) (by omega)
    refine ⟨_,
      (excerpt?_eq happ hlen).trans (Option.map_eq_some_iff.2 ⟨(marked, rest), ?_, rfl⟩)⟩
    exact splitBytes?_eq_some_iff.2 ⟨hfirst, by omega⟩

/-! ## The lines of a rendered excerpt -/

/-- The number of the row, and the line. -/
def Excerpt.numbered (excerpt : Excerpt) : List Char :=
  (toString excerpt.row).toList ++ " | ".toList ++
    (excerpt.before ++ excerpt.marked ++ excerpt.after)

/-- Below them, a space for each character before the marked part, and its carets. -/
def Excerpt.underlined (excerpt : Excerpt) : List Char :=
  List.replicate (toString excerpt.row).length ' ' ++ " | ".toList ++
    List.replicate excerpt.before.length ' ' ++ List.replicate (max 1 excerpt.marked.length) '^'

theorem splitOn_render {excerpt : Excerpt}
    (hline : '\n' ∉ excerpt.before ++ excerpt.marked ++ excerpt.after) :
    (excerpt.render .plain).toList.splitOn '\n' =
      [List.replicate (toString excerpt.row).length ' ' ++ " |".toList, excerpt.numbered,
        excerpt.underlined] := by
  have hnumber : '\n' ∉ (toString excerpt.row).toList := by
    intro hmem
    change '\n' ∈ (Nat.repr excerpt.row).toList at hmem
    rw [Nat.toList_repr] at hmem
    have hdigit : Char.isDigit '\n' = true := Nat.isDigit_of_mem_toDigits (by omega) le_rfl hmem
    exact absurd hdigit (by decide)
  have htext : (excerpt.render .plain).toList =
      (List.replicate (toString excerpt.row).length ' ' ++ " |".toList) ++ '\n' ::
        (excerpt.numbered ++ '\n' :: excerpt.underlined) := by
    have hbar : " ".toList ++ ("|".toList ++ " ".toList) = " | ".toList := rfl
    unfold Excerpt.render
    dsimp only
    simp only [Excerpt.numbered, Excerpt.underlined, Styling.paint_plain, String.toList_append,
      String.toList_ofList, ← hbar, List.append_assoc]
    rfl
  rw [htext, List.splitOn_append_cons_self_of_not_mem (by simp),
    List.splitOn_append_cons_self_of_not_mem, List.splitOn_eq_singleton]
  · simp [Excerpt.underlined]
  · simp only [Excerpt.numbered, List.mem_append, hnumber, hline, or_false, false_or]
    decide

/-- The first caret is below the first character of the marked part. -/
theorem exists_first_caret (excerpt : Excerpt) : ∃ k, '^' ∉ excerpt.underlined.take k ∧
    excerpt.underlined[k]? = some '^' ∧ excerpt.numbered.drop k = excerpt.marked ++
    excerpt.after := by
  have hlength : (toString excerpt.row).toList.length = (toString excerpt.row).length :=
    String.length_toList
  -- Both lines have as much before the marked part.
  have hnumbered : excerpt.numbered =
      ((toString excerpt.row).toList ++ " | ".toList ++ excerpt.before) ++
          (excerpt.marked ++ excerpt.after) := by
    simp [Excerpt.numbered]
  have hunderlined : excerpt.underlined = (List.replicate (toString excerpt.row).length ' ' ++
    " | ".toList ++ List.replicate excerpt.before.length ' ') ++ List.replicate (max 1
        excerpt.marked.length) '^' := rfl
  rw [hnumbered, hunderlined]
  generalize toString excerpt.row = number at hlength
  refine ⟨(number.toList ++ " | ".toList ++ excerpt.before).length, ?_, ?_, List.drop_left⟩
  · rw [List.take_append_of_le_length (by simp [hlength]),
      List.take_of_length_le (by simp [hlength])]
    simp
  · rw [List.getElem?_append_right (by simp [hlength])]
    simp [hlength]

/-- A span is highlighted unless it starts or ends inside of a character. Without colours there are
three lines: the second one is the line where the span starts, with its number, and the third one
has carets below the characters of the span. -/
theorem highlight_of_span (source : Source) (span : Span) :
    (∀ styling, source.highlight? styling span = none ↔
      ¬ source.IsBoundary (source.clamp span.start) ∨ ¬ source.IsBoundary
      (source.markEnd span)) ∧
    (source.IsBoundary (source.clamp span.start) → source.IsBoundary (source.markEnd span) →
      ∃ (excerpt : Excerpt) (text : String),
        source.row? span.start = some excerpt.row ∧ source.highlight? .plain span = some text ∧
        excerpt.StandsIn source (source.clamp span.start) (source.markEnd span) ∧
        text.toList.splitOn '\n' = [List.replicate (toString excerpt.row).length ' ' ++ " |".toList,
          excerpt.numbered, excerpt.underlined] ∧
        ∃ k, '^' ∉ excerpt.underlined.take k ∧ excerpt.underlined[k]? = some '^' ∧
          excerpt.numbered.drop k = excerpt.marked ++ excerpt.after) := by
  constructor
  · intro styling
    rw [← not_and_or, ← exists_excerpt?_iff, highlight?, Option.map_eq_none_iff,
      Option.eq_none_iff_forall_ne_some]
    exact not_exists.symm
  · intro hstart hstop
    obtain ⟨excerpt, hexcerpt⟩ := exists_excerpt?_iff.2 ⟨hstart, hstop⟩
    obtain ⟨hrow, hline, hstands⟩ := standsIn_of_excerpt? hexcerpt
    refine ⟨excerpt, excerpt.render .plain, hrow, ?_, hstands, splitOn_render hline,
      exists_first_caret excerpt⟩
    rw [highlight?, hexcerpt]
    rfl

/-- A span that goes beyond its line, which has a character of two bytes. -/
theorem highlight_of_long_span :
    let source : Source := { contents := "a\néb\n" }
    let span : Span := ⟨4, 99⟩
    (source.IsBoundary (source.clamp span.start) ∧ source.IsBoundary (source.markEnd span)) ∧
    ∃ (excerpt : Excerpt) (text : String),
      source.row? span.start = some excerpt.row ∧ source.highlight? .plain span = some text ∧
      excerpt.StandsIn source (source.clamp span.start) (source.markEnd span) ∧
      text.toList.splitOn '\n' = [List.replicate (toString excerpt.row).length ' ' ++ " |".toList,
        excerpt.numbered, excerpt.underlined] ∧
      ∃ k, '^' ∉ excerpt.underlined.take k ∧ excerpt.underlined[k]? = some '^' ∧
        excerpt.numbered.drop k = excerpt.marked ++ excerpt.after := by
  intro source span
  have hboundaries : source.IsBoundary (source.clamp span.start) ∧
      source.IsBoundary (source.markEnd span) := by
    unfold IsBoundary
    decide
  exact ⟨hboundaries, (highlight_of_span source span).2 hboundaries.1 hboundaries.2⟩

end Source
end Regions
