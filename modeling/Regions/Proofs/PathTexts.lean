import Mathlib.Data.List.Infix
import Regions.Path

/-!
# The text of a path

A path is shown with `::` between its segments, and read by cutting a text at each `::`, from the
left. Reading undoes showing only for paths whose segments can be told apart in the text.

* `Path.Legible`: the paths that can be read back;
* `Path.splitColons_eq_iff`: a text has one list of pieces without `::` in which no separator begins
  early;
* `Path.ofString_text_iff_legible`: the legible paths are those that are read back, and all that are
  ever read.
-/

namespace Regions
namespace Path

variable {cs piece rest : List Char} {pieces : List (List Char)}

/-- The pieces of a text: none of them holds a `::`, and only the last one may end with a colon,
since that colon would be cut off together with the first one of the separator. -/
structure Separable (pieces : List (List Char)) : Prop where
  uncut : ∀ piece ∈ pieces, ¬ [':', ':'] <:+: piece
  closed : ∀ piece ∈ pieces.dropLast, piece.getLast? ≠ some ':'

/-- No segment is empty or holds a `::`, and only the last one may end with a colon. -/
structure Legible (p : Path) : Prop where
  nonempty : ∀ segment ∈ p.segments, segment ≠ ""
  uncut : ∀ segment ∈ p.segments, ¬ "::".toList <:+: segment.toList
  closed : ∀ segment ∈ p.segments.dropLast, segment.toList.getLast? ≠ some ':'

instance (p : Path) : Decidable p.Legible :=
  decidable_of_iff ((∀ segment ∈ p.segments, segment ≠ "") ∧
      (∀ segment ∈ p.segments, ¬ "::".toList <:+: segment.toList) ∧
      ∀ segment ∈ p.segments.dropLast, segment.toList.getLast? ≠ some ':')
    ⟨fun h => ⟨h.1, h.2.1, h.2.2⟩, fun h => ⟨h.nonempty, h.uncut, h.closed⟩⟩

/-! ## Cutting a text -/

theorem separable_singleton : Separable [piece] ↔ ¬ [':', ':'] <:+: piece :=
  ⟨fun h => h.uncut piece List.mem_cons_self, fun h => ⟨by simpa using h, by simp⟩⟩

theorem separable_cons (hne : pieces ≠ []) : Separable (piece :: pieces) ↔
    (¬ [':', ':'] <:+: piece ∧ piece.getLast? ≠ some ':') ∧ Separable pieces := by
  have hlast : (piece :: pieces).dropLast = piece :: pieces.dropLast :=
    List.dropLast_cons_of_ne_nil hne
  constructor
  · rintro ⟨huncut, hclosed⟩
    rw [hlast] at hclosed
    rw [List.forall_mem_cons] at huncut hclosed
    exact ⟨⟨huncut.1, hclosed.1⟩, huncut.2, hclosed.2⟩
  · rintro ⟨⟨huncut, hclosed⟩, hpieces⟩
    refine ⟨List.forall_mem_cons.2 ⟨huncut, hpieces.uncut⟩, ?_⟩
    rw [hlast]
    exact List.forall_mem_cons.2 ⟨hclosed, hpieces.closed⟩

theorem splitColons_ne_nil (cs : List Char) : splitColons cs ≠ [] := by
  fun_cases splitColons cs <;> simp

/-- The pieces, joined again, are the text. -/
theorem intercalate_splitColons (cs : List Char) :
    [':', ':'].intercalate (splitColons cs) = cs := by
  fun_induction splitColons cs with
  | case1 => rfl
  | case2 rest ih =>
    rw [List.intercalate_cons_of_ne_nil (splitColons_ne_nil rest), ih]
    rfl
  | case3 c rest _ hnil => exact absurd hnil (splitColons_ne_nil rest)
  | case4 c rest _ piece pieces hsplit ih =>
    rw [hsplit] at ih
    cases pieces with
    | nil => simpa using ih
    | cons next pieces => simpa using ih

/-- What stands before the first cut is cut nowhere, and the cut could not have been made
earlier. -/
theorem separable_splitColons (cs : List Char) : Separable (splitColons cs) := by
  fun_induction splitColons cs with
  | case1 => exact separable_singleton.2 (by simp)
  | case2 rest ih => exact (separable_cons (splitColons_ne_nil rest)).2 ⟨by simp, ih⟩
  | case3 c rest _ hnil => exact absurd hnil (splitColons_ne_nil rest)
  | case4 c rest hcut piece pieces hsplit ih =>
    have hjoined := intercalate_splitColons rest
    rw [hsplit] at ih hjoined
    -- a colon in front of one that starts the rest of the text would have been cut off with it
    have huncut : ¬ [':', ':'] <:+: piece → ¬ [':', ':'] <:+: c :: piece := by
      rw [List.infix_cons_iff, not_or]
      refine fun hpiece => ⟨?_, hpiece⟩
      rintro ⟨tail, htail⟩
      obtain ⟨rfl, rfl⟩ : ':' = c ∧ ':' :: tail = piece := by simpa using htail
      cases pieces with
      | nil => exact hcut tail rfl (by simpa using hjoined.symm)
      | cons next pieces => exact hcut _ rfl (by simpa using hjoined.symm)
    cases pieces with
    | nil => exact separable_singleton.2 (huncut (separable_singleton.1 ih))
    | cons next pieces =>
      have hne : next :: pieces ≠ [] := List.cons_ne_nil next pieces
      obtain ⟨⟨hpiece, hclosed⟩, hpieces⟩ := (separable_cons hne).1 ih
      refine (separable_cons hne).2 ⟨⟨huncut hpiece, ?_⟩, hpieces⟩
      cases piece with
      | nil =>
        intro hlast
        exact hcut _ (by simpa using hlast) (by simpa using hjoined.symm)
      | cons d tail => rwa [List.getLast?_cons_cons]

theorem splitColons_cons {c : Char} (hcut : c = ':' → rest.head? ≠ some ':') :
    splitColons (c :: rest) = (splitColons rest).modifyHead (c :: ·) := by
  rw [splitColons]
  · cases hsplit : splitColons rest with
    | nil => exact absurd hsplit (splitColons_ne_nil rest)
    | cons piece pieces => rfl
  · rintro tail rfl rfl
    exact hcut rfl rfl

theorem splitColons_of_uncut (huncut : ¬ [':', ':'] <:+: piece) : splitColons piece = [piece] := by
  induction piece with
  | nil => rfl
  | cons c piece ih =>
    rw [List.infix_cons_iff, not_or] at huncut
    rw [splitColons_cons, ih huncut.2]
    · rfl
    · rintro rfl hhead
      obtain ⟨tail, rfl⟩ := List.head?_eq_some_iff.1 hhead
      exact huncut.1 ⟨tail, rfl⟩

/-- A piece that is cut nowhere and does not end with a colon is what a cut leaves before a
separator. -/
theorem splitColons_append (huncut : ¬ [':', ':'] <:+: piece)
    (hclosed : piece.getLast? ≠ some ':') (rest : List Char) :
    splitColons (piece ++ ':' :: ':' :: rest) = piece :: splitColons rest := by
  induction piece with
  | nil => rw [List.nil_append, splitColons]
  | cons c piece ih =>
    rw [List.infix_cons_iff, not_or] at huncut
    rw [List.cons_append, splitColons_cons, ih huncut.2]
    · rfl
    · cases piece with
      | nil => simp
      | cons d tail => rwa [List.getLast?_cons_cons] at hclosed
    · rintro rfl hhead
      cases piece with
      | nil => exact hclosed rfl
      | cons d tail =>
        obtain rfl : d = ':' := by simpa using hhead
        exact huncut.1 ⟨tail, rfl⟩

/-- A text falls into pieces in one way: they are separable, and the text is what they are joined
to. -/
theorem splitColons_eq_iff : splitColons cs = pieces ↔
    pieces ≠ [] ∧ Separable pieces ∧ [':', ':'].intercalate pieces = cs := by
  constructor
  · rintro rfl
    exact ⟨splitColons_ne_nil cs, separable_splitColons cs, intercalate_splitColons cs⟩
  · rintro ⟨hne, hpieces, rfl⟩
    induction pieces with
    | nil => exact absurd rfl hne
    | cons piece pieces ih =>
      by_cases hlast : pieces = []
      · subst hlast
        rw [List.intercalate_singleton, splitColons_of_uncut (separable_singleton.1 hpieces)]
      · obtain ⟨⟨huncut, hclosed⟩, hpieces⟩ := (separable_cons hlast).1 hpieces
        rw [List.intercalate_cons_of_ne_nil hlast, List.append_assoc]
        exact (splitColons_append huncut hclosed _).trans (congrArg _ (ih hlast hpieces))

/-! ## Reading back -/

theorem Separable.sublist {fewer : List (List Char)} (hpieces : Separable pieces)
    (hsub : fewer.Sublist pieces) : Separable fewer := by
  have hinit : fewer.dropLast.Sublist pieces.dropLast := by
    rw [← List.reverse_sublist, ← List.tail_reverse, ← List.tail_reverse]
    exact hsub.reverse.tail
  exact ⟨fun piece hmem => hpieces.uncut piece (hsub.subset hmem),
    fun piece hmem => hpieces.closed piece (hinit.subset hmem)⟩

theorem legible_iff {p : Path} : p.Legible ↔
    (∀ segment ∈ p.segments, segment ≠ "") ∧ Separable (p.segments.map String.toList) := by
  constructor
  · rintro ⟨hnonempty, huncut, hclosed⟩
    refine ⟨hnonempty, List.forall_mem_map.2 huncut, ?_⟩
    rw [← List.map_dropLast]
    exact List.forall_mem_map.2 hclosed
  · rintro ⟨hnonempty, huncut, hclosed⟩
    rw [List.forall_mem_map] at huncut
    rw [← List.map_dropLast, List.forall_mem_map] at hclosed
    exact ⟨hnonempty, huncut, hclosed⟩

/-- The pieces that are left as segments of what is read. -/
theorem toList_segments_ofString (text : String) :
    (ofString text).segments.map String.toList = (splitColons text.toList).filter (· ≠ []) := by
  simp [ofString, Function.comp_def]

/-- What is read from a text can be read back: dropping empty pieces leaves the others separable. -/
theorem legible_ofString (text : String) : (ofString text).Legible := by
  rw [legible_iff, toList_segments_ofString]
  refine ⟨?_, (separable_splitColons text.toList).sublist List.filter_sublist⟩
  rintro segment hmem rfl
  have hpiece : [] ∈ (ofString text).segments.map String.toList := List.mem_map_of_mem hmem
  rw [toList_segments_ofString] at hpiece
  simpa using List.of_mem_filter hpiece

theorem text_eq_intercalate {p : Path} (hne : p.segments ≠ []) :
    p.text = "::".intercalate p.segments := by
  unfold text
  split
  · exact absurd ‹_› hne
  · rfl

/-- The text of a legible path falls into its segments, of which none is dropped. -/
theorem ofString_text {p : Path} (hp : p.Legible) (hne : p.segments ≠ []) :
    ofString p.text = p := by
  obtain ⟨hnonempty, hseparable⟩ := legible_iff.1 hp
  have hsplit : splitColons p.text.toList = p.segments.map String.toList := by
    rw [splitColons_eq_iff]
    refine ⟨by simpa using hne, hseparable, ?_⟩
    rw [text_eq_intercalate hne, String.toList_intercalate]
    rfl
  have hall : ∀ piece ∈ p.segments.map String.toList, decide (piece ≠ []) = true := by
    simpa using hnonempty
  have hsegments : (ofString p.text).segments = p.segments := by
    apply List.map_injective_iff.2 fun _ _ htext => String.toList_injective htext
    rw [toList_segments_ofString, hsplit, List.filter_eq_self.2 hall]
  exact congrArg Path.mk hsegments

/-- A path with segments is read back from its text if and only if it is legible. Every path that is
read from a text is legible; hence whatever is read, unless it is the whole, is read again from its
own text. -/
theorem ofString_text_iff_legible :
    (∀ p : Path, p.segments ≠ [] → (ofString p.text = p ↔ p.Legible)) ∧
    (∀ text, (ofString text).Legible ∨ (ofString text).segments = []) ∧
    (∀ text, (ofString text).segments ≠ [] →
      ofString (ofString text).text = ofString text) := by
  refine ⟨fun p hne => ⟨?_, fun hp => ofString_text hp hne⟩,
    fun text => .inl (legible_ofString text),
    fun text hne => ofString_text (legible_ofString text) hne⟩
  intro hread
  rw [← hread]
  exact legible_ofString p.text

/-- A colon that starts a segment is read back, and one that ends a segment is taken for the
separator's. -/
theorem ofString_text_of_colons : ofString (text ⟨["f", ":x:"]⟩) = ⟨["f", ":x:"]⟩ ∧
    ofString (text ⟨["f:", "x"]⟩) ≠ ⟨["f:", "x"]⟩ ∧
    (ofString "::f:::x::").segments ≠ [] ∧
    ofString (ofString "::f:::x::").text = ofString "::f:::x::" := by
  have hread : (ofString "::f:::x::").segments ≠ [] := by decide
  refine ⟨(ofString_text_iff_legible.1 _ (by simp)).2 (by decide), ?_, hread,
    ofString_text_iff_legible.2.2 _ hread⟩
  rw [ne_eq, ofString_text_iff_legible.1 _ (by simp)]
  decide

end Path
end Regions
