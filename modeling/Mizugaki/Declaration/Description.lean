import Mathlib.Data.List.DropRight
import Mizugaki.Analyzer.Description

/-! What a documentation comment says. Lines written behind asterisks are read back as they were;
and of any comment there is no blank line left at an end, and no common indentation. -/

namespace Mizugaki.Analyzer.Description

open Mizugaki.Ast

variable {p : Char → Bool} {c : Char} {line rest first a b q : List Char}
  {lines : List (List Char)}

/-! ### Ends of lines -/

/-- A line without white space at its end. -/
def Trimmed (line : List Char) : Prop := ∀ c, line.getLast? = some c → isWhitespace c = false

theorem last_dropEndWhile (h : (dropEndWhile p line).getLast? = some c) : p c = false := by
  rw [dropEndWhile, List.getLast?_reverse] at h
  have hnot := List.head?_dropWhile_not p line.reverse
  rw [h] at hnot
  exact hnot

theorem dropEndWhile_self (h : ∀ c, line.getLast? = some c → p c = false) :
    dropEndWhile p line = line := by
  refine List.rdropWhile_eq_self_iff.mpr fun hne => ?_
  rw [h _ (List.getLast?_eq_some_getLast hne)]
  exact Bool.false_ne_true

theorem dropEndWhile_isPrefix : dropEndWhile p line <+: line :=
  List.rdropWhile_prefix p line

theorem stripColumns_trimmed (isFirstLine isLastLine : Bool) :
    Trimmed (stripColumns isFirstLine isLastLine line) := by
  intro c h
  cases isLastLine with
  | true => exact last_dropEndWhile h
  | false => exact last_dropEndWhile h

theorem stripFirstLineHead_suffix : stripFirstLineHead line <:+ line := by
  cases line with
  | nil => exact List.suffix_refl _
  | cons c rest =>
    by_cases hc : c = '/'
    · subst hc
      exact (List.dropWhile_suffix _).trans (List.suffix_cons _ _)
    · rw [stripFirstLineHead]
      · exact List.dropWhile_suffix _
      · intro rest h
        exact hc (List.cons.inj h).1

theorem stripBodyLineHead_suffix : stripBodyLineHead line <:+ line := by
  rw [stripBodyLineHead]
  split
  next rest h =>
    have hsuffix : '*' :: rest <:+ line := h ▸ List.dropWhile_suffix _
    exact ((List.dropWhile_suffix _).trans (List.suffix_cons _ _)).trans hsuffix
  next => exact List.suffix_refl _

theorem stripLastLineTail_isPrefix : stripLastLineTail line <+: line :=
  dropEndWhile_isPrefix.trans (dropEndWhile_isPrefix.trans dropEndWhile_isPrefix)

theorem stripColumns_subset (isFirstLine isLastLine : Bool) :
    stripColumns isFirstLine isLastLine line ⊆ line := by
  have htail : ∀ line, (if isLastLine then stripLastLineTail line else stripBodyLineTail line) ⊆
      line := by
    intro line
    cases isLastLine with
    | true => exact stripLastLineTail_isPrefix.subset
    | false => exact dropEndWhile_isPrefix.subset
  have hhead : (if isFirstLine then stripFirstLineHead line else stripBodyLineHead line) ⊆
      line := by
    cases isFirstLine with
    | true => exact stripFirstLineHead_suffix.subset
    | false => exact stripBodyLineHead_suffix.subset
  exact fun c hc => hhead (htail _ hc)

theorem mem_stripLines {isFirstLine : Bool} (h : line ∈ stripLines isFirstLine lines) :
    Trimmed line ∧ ∃ original ∈ lines, line ⊆ original := by
  induction lines generalizing isFirstLine with
  | nil => cases h
  | cons first lines ih =>
    cases lines with
    | nil =>
      rw [List.mem_singleton.mp h]
      exact ⟨stripColumns_trimmed _ _, first, List.mem_cons_self, stripColumns_subset _ _⟩
    | cons second lines =>
      rcases List.mem_cons.mp h with rfl | h
      · exact ⟨stripColumns_trimmed _ _, first, List.mem_cons_self, stripColumns_subset _ _⟩
      · obtain ⟨htrimmed, original, horiginal, hsubset⟩ := ih h
        exact ⟨htrimmed, original, List.mem_cons_of_mem _ horiginal, hsubset⟩

/-! ### Lines of a text -/

theorem splitLines_line (h : '\n' ∉ line) :
    splitLines (line ++ '\n' :: rest) = line :: splitLines rest := by
  induction line with
  | nil => simp [splitLines]
  | cons c line ih =>
    obtain ⟨hc, hline⟩ := not_or.mp (mt List.mem_cons.mpr h)
    rw [List.cons_append, splitLines, if_neg (Ne.symm hc), ih hline]

theorem splitLines_last (h : '\n' ∉ line) (hne : line ≠ []) : splitLines line = [line] := by
  induction line with
  | nil => exact absurd rfl hne
  | cons c line ih =>
    obtain ⟨hc, hline⟩ := not_or.mp (mt List.mem_cons.mpr h)
    rw [splitLines, if_neg (Ne.symm hc)]
    cases line with
    | nil => rfl
    | cons c' line => rw [ih hline (by simp)]

theorem not_mem_of_mem_splitLines (h : line ∈ splitLines rest) : '\n' ∉ line := by
  induction rest generalizing line with
  | nil => cases h
  | cons c rest ih =>
    rw [splitLines] at h
    by_cases hc : c = '\n'
    · rw [if_pos hc] at h
      rcases List.mem_cons.mp h with rfl | h
      · simp
      · exact ih h
    · rw [if_neg hc] at h
      cases hrest : splitLines rest with
      | nil =>
        rw [hrest] at h
        rw [List.mem_singleton.mp h]
        simpa using Ne.symm hc
      | cons first lines =>
        rw [hrest] at h ih
        rcases List.mem_cons.mp h with rfl | h
        · simpa [Ne.symm hc] using ih List.mem_cons_self
        · exact ih (List.mem_cons_of_mem _ h)

/-! ### Common indentation -/

/-- No white space that all lines which are not empty begin with; there is such a line. -/
def NoCommonIndent (lines : List (List Char)) : Prop :=
  ∀ c, isWhitespace c → ∃ line ∈ lines, line ≠ [] ∧ line.head? ≠ some c

theorem extractCommonPrefix_isPrefix :
    extractCommonPrefix a b <+: a ∧ extractCommonPrefix a b <+: b := by
  induction a generalizing b with
  | nil => simp [extractCommonPrefix]
  | cons c a ih =>
    cases b with
    | nil => simp [extractCommonPrefix]
    | cons c' b =>
      rw [extractCommonPrefix]
      by_cases h : c = c'
      · rw [if_pos h, ← h]
        exact ⟨List.cons_prefix_cons.mpr ⟨rfl, ih.1⟩, List.cons_prefix_cons.mpr ⟨rfl, ih.2⟩⟩
      · rw [if_neg h]
        constructor
        · exact List.nil_prefix
        · exact List.nil_prefix

theorem prefix_extractCommonPrefix (ha : q <+: a) (hb : q <+: b) :
    q <+: extractCommonPrefix a b := by
  induction q generalizing a b with
  | nil => exact List.nil_prefix
  | cons c q ih =>
    obtain ⟨a, rfl⟩ := ha
    obtain ⟨b, rfl⟩ := hb
    rw [List.cons_append, List.cons_append, extractCommonPrefix, if_pos rfl]
    exact List.cons_prefix_cons.mpr ⟨rfl, ih (List.prefix_append _ _) (List.prefix_append _ _)⟩

theorem foldl_extractCommonPrefix_isPrefix :
    lines.foldl extractCommonPrefix a <+: a ∧
      ∀ line ∈ lines, lines.foldl extractCommonPrefix a <+: line := by
  induction lines generalizing a with
  | nil => exact ⟨List.prefix_refl _, by simp⟩
  | cons first lines ih =>
    obtain ⟨ha, hlines⟩ := @ih (extractCommonPrefix a first)
    refine ⟨ha.trans extractCommonPrefix_isPrefix.1, ?_⟩
    exact List.forall_mem_cons.mpr ⟨ha.trans extractCommonPrefix_isPrefix.2, hlines⟩

theorem prefix_foldl_extractCommonPrefix (ha : q <+: a) (hlines : ∀ line ∈ lines, q <+: line) :
    q <+: lines.foldl extractCommonPrefix a := by
  induction lines generalizing a with
  | nil => exact ha
  | cons first lines ih =>
    obtain ⟨hfirst, hlines⟩ := List.forall_mem_cons.mp hlines
    exact ih (prefix_extractCommonPrefix ha hfirst) hlines

theorem mem_takeWhile_whitespace (h : c ∈ line.takeWhile isWhitespace) : isWhitespace c :=
  List.mem_takeWhile_imp h

theorem prefix_takeWhile (h : q <+: line) (hq : ∀ c ∈ q, isWhitespace c) :
    q <+: line.takeWhile isWhitespace := by
  obtain ⟨rest, rfl⟩ := h
  rw [List.takeWhile_append_of_pos hq]
  exact List.prefix_append _ _

/-- The common prefix is white space, and all lines that are not empty begin with it. -/
theorem commonPrefix_isPrefix :
    (∀ c ∈ commonPrefix lines, isWhitespace c) ∧
      ∀ line ∈ lines, line ≠ [] → commonPrefix lines <+: line := by
  cases lines with
  | nil => exact ⟨fun c h => (by cases h), fun line h => (by cases h)⟩
  | cons first lines =>
    obtain ⟨hfirst, hlines⟩ := @foldl_extractCommonPrefix_isPrefix (first.takeWhile isWhitespace)
      (lines.filter (! ·.isEmpty))
    refine ⟨fun c hc => mem_takeWhile_whitespace (hfirst.subset hc), ?_⟩
    have htake : first.takeWhile isWhitespace <+: first :=
      List.takeWhile_prefix _
    refine List.forall_mem_cons.mpr ⟨fun _ => hfirst.trans htake, ?_⟩
    intro line hline hne
    exact hlines line (List.mem_filter.mpr ⟨hline, by simpa using hne⟩)

/-- It is the longest of these. -/
theorem prefix_commonPrefix (hne : first ≠ []) (hq : ∀ c ∈ q, isWhitespace c)
    (h : ∀ line ∈ first :: lines, line ≠ [] → q <+: line) :
    q <+: commonPrefix (first :: lines) := by
  obtain ⟨hfirst, hlines⟩ := List.forall_mem_cons.mp h
  refine prefix_foldl_extractCommonPrefix (prefix_takeWhile (hfirst hne) hq) fun line hline => ?_
  obtain ⟨hline, hempty⟩ := List.mem_filter.mp hline
  exact hlines line hline (by simpa using hempty)

/-! ### What is left of a comment -/

/-- Lines without white space at their ends and empty lines at theirs. -/
structure Tidy (lines : List (List Char)) : Prop where
  whole : ∀ line ∈ lines, '\n' ∉ line
  trimmed : ∀ line ∈ lines, Trimmed line
  head : ∀ line, lines.head? = some line → line ≠ []
  last : ∀ line, lines.getLast? = some line → line ≠ []

/-- Lines trimmed one by one are tidy without the empty lines at their ends. -/
theorem tidy_strip (hwhole : ∀ line ∈ lines, '\n' ∉ line)
    (htrimmed : ∀ line ∈ lines, Trimmed line) :
    Tidy (stripTrailingEmptyLines (stripLeadingEmptyLines lines)) := by
  have hpre : stripTrailingEmptyLines (stripLeadingEmptyLines lines) <+:
      stripLeadingEmptyLines lines :=
    List.rdropWhile_prefix _ _
  have hmem : ∀ line ∈ stripTrailingEmptyLines (stripLeadingEmptyLines lines), line ∈ lines :=
    fun line h => (List.dropWhile_suffix _).subset (hpre.subset h)
  refine ⟨fun line h => hwhole line (hmem line h), fun line h => htrimmed line (hmem line h),
    fun line h => ?_, fun line h => ?_⟩
  · have hleading : (stripLeadingEmptyLines lines).head? = some line := by
      obtain ⟨rest, hrest⟩ := hpre
      rw [← hrest, List.head?_append, h, Option.some_or]
    have hnot := List.head?_dropWhile_not List.isEmpty lines
    rw [stripLeadingEmptyLines] at hleading
    rw [hleading] at hnot
    simpa using hnot
  · rw [stripTrailingEmptyLines, List.getLast?_reverse] at h
    have hnot := List.head?_dropWhile_not List.isEmpty (stripLeadingEmptyLines lines).reverse
    rw [h] at hnot
    simpa using hnot

/-- What is left of a line without the common indentation ends as the line does. -/
theorem Trimmed.drop (hline : Trimmed line) (hne : line ≠ []) (hpre : q <+: line)
    (hq : ∀ c ∈ q, isWhitespace c) :
    line.drop q.length ≠ [] ∧ (line.drop q.length).getLast? = line.getLast? := by
  obtain ⟨rest, rfl⟩ := hpre
  rw [List.drop_left]
  have hrest : rest ≠ [] := by
    rintro rfl
    rw [List.append_nil] at hline hne
    have hlast := List.getLast?_eq_some_getLast hne
    have hwhite := hq _ (List.mem_of_getLast? hlast)
    rw [hline _ hlast] at hwhite
    cases hwhite
  exact ⟨hrest, (List.getLast?_append_of_ne_nil q hrest).symm⟩

/-- Tidy lines stay so without their common indentation. -/
theorem Tidy.strip (h : Tidy lines) : Tidy (stripCommonPrefixWhitespaces lines) := by
  obtain ⟨hwhite, hpre⟩ := @commonPrefix_isPrefix lines
  have hdrop : ∀ line ∈ lines, line ≠ [] →
      line.drop (commonPrefix lines).length ≠ [] ∧
        (line.drop (commonPrefix lines).length).getLast? = line.getLast? :=
    fun line hline hne => (h.trimmed line hline).drop hne (hpre line hline hne) hwhite
  refine ⟨?_, ?_, ?_, ?_⟩
  · intro line hline
    obtain ⟨original, horiginal, rfl⟩ := List.mem_map.mp hline
    exact fun hmem => h.whole original horiginal (List.mem_of_mem_drop hmem)
  · intro line hline
    obtain ⟨original, horiginal, rfl⟩ := List.mem_map.mp hline
    intro c hc
    by_cases hne : original = []
    · rw [hne, List.drop_nil] at hc
      cases hc
    · rw [(hdrop original horiginal hne).2] at hc
      exact h.trimmed original horiginal c hc
  · intro line hline
    rw [stripCommonPrefixWhitespaces, List.head?_map] at hline
    obtain ⟨original, horiginal, rfl⟩ := Option.map_eq_some_iff.mp hline
    exact (hdrop original (List.mem_of_head? horiginal) (h.head original horiginal)).1
  · intro line hline
    rw [stripCommonPrefixWhitespaces, List.getLast?_map] at hline
    obtain ⟨original, horiginal, rfl⟩ := Option.map_eq_some_iff.mp hline
    exact (hdrop original (List.mem_of_getLast? horiginal) (h.last original horiginal)).1

/-- Their common indentation is gone. -/
theorem Tidy.noCommonIndent (h : Tidy lines) (hne : lines ≠ []) :
    NoCommonIndent (stripCommonPrefixWhitespaces lines) := by
  intro c hc
  by_contra hnone
  push Not at hnone
  obtain ⟨hwhite, hpre⟩ := @commonPrefix_isPrefix lines
  have hall : ∀ line ∈ lines, line ≠ [] → commonPrefix lines ++ [c] <+: line := by
    intro line hline hne
    obtain ⟨rest, hrest⟩ := hpre line hline hne
    have hdrop : line.drop (commonPrefix lines).length = rest := by
      rw [← hrest, List.drop_left]
    have hleft := ((h.trimmed line hline).drop hne (hpre line hline hne) hwhite).1
    have hhead := hnone _ (List.mem_map_of_mem hline) hleft
    rw [hdrop] at hhead
    obtain ⟨others, rfl⟩ := List.head?_eq_some_iff.mp hhead
    exact ⟨others, by rw [← hrest, List.append_assoc]; rfl⟩
  have hlonger : commonPrefix lines ++ [c] <+: commonPrefix lines := by
    cases lines with
    | nil => exact absurd rfl hne
    | cons first lines =>
      refine prefix_commonPrefix (h.head first rfl) (fun c' hc' => ?_) hall
      rcases List.mem_append.mp hc' with hc' | hc'
      · exact hwhite c' hc'
      · rw [List.mem_singleton.mp hc']
        exact hc
  have hlength := hlonger.length_le
  rw [List.length_append, List.length_singleton] at hlength
  omega

/-- A description is made of tidy lines without a common indentation. -/
theorem process_lines (contents : List Char) :
    ∃ lines, process contents = joinLines lines ∧ Tidy lines ∧
      (lines ≠ [] → NoCommonIndent lines) := by
  rw [process]
  split
  · have hlines := fun line h => @mem_stripLines line (splitLines contents) true h
    have htidy : Tidy (stripTrailingEmptyLines (stripLeadingEmptyLines
        (stripLines true (splitLines contents)))) := by
      refine tidy_strip (fun line h hmem => ?_) fun line h => (hlines line h).1
      obtain ⟨original, horiginal, hsubset⟩ := (hlines line h).2
      exact not_mem_of_mem_splitLines horiginal (hsubset hmem)
    refine ⟨_, rfl, htidy.strip, fun hne => htidy.noCommonIndent fun hnil => hne ?_⟩
    rw [hnil]
    rfl
  · exact ⟨[], rfl, ⟨by simp, by simp, by simp, by simp⟩, fun hne => absurd rfl hne⟩

/-! ### Lines behind asterisks -/

/-- A line as it is written in a comment, behind an indentation, an asterisk and a space. -/
def writeLine (indent line : List Char) : List Char := indent ++ '*' :: ' ' :: line

/-- A comment of lines, each behind an indentation of its own, as the end of the comment is. -/
def writeComment (written : List (List Char × List Char)) (last : List Char) : List Char :=
  "/**".toList ++ '\n' ::
    (written.flatMap (fun line => writeLine line.1 line.2 ++ ['\n']) ++ (last ++ ['*', '/']))

/-- An indentation: white space without a line break. -/
def IsIndent (indent : List Char) : Prop := ∀ c ∈ indent, isWhitespace c ∧ c ≠ '\n'

/-- A line as it is left of the one that is written. -/
def padded (line : List Char) : List Char := if line = [] then [] else ' ' :: line

variable {indent last : List Char} {written : List (List Char × List Char)}

theorem splitLines_lines (h : ∀ line ∈ lines, '\n' ∉ line) :
    splitLines (lines.flatMap (· ++ ['\n']) ++ rest) = lines ++ splitLines rest := by
  induction lines with
  | nil => rfl
  | cons first lines ih =>
    obtain ⟨hfirst, hlines⟩ := List.forall_mem_cons.mp h
    rw [List.flatMap_cons, List.append_assoc, List.append_assoc, List.singleton_append,
      splitLines_line hfirst, ih hlines, List.cons_append]

theorem stripLines_concat :
    stripLines false (lines ++ [last]) =
      lines.map (stripColumns false false) ++ [stripColumns false true last] := by
  induction lines with
  | nil => rfl
  | cons first lines ih =>
    rw [List.map_cons, List.cons_append, List.cons_append, ← ih]
    cases lines <;> rfl

theorem stripLines_first :
    stripLines true (first :: (lines ++ [last])) =
      stripColumns true false first :: stripLines false (lines ++ [last]) := by
  cases lines <;> rfl

theorem dropWhile_indent (h : IsIndent indent) :
    (indent ++ '*' :: rest).dropWhile isWhitespace = '*' :: rest :=
  List.dropWhile_append_of_pos fun c hc => (h c hc).1

theorem stripColumns_writeLine (hindent : IsIndent indent) (hline : Trimmed line) :
    stripColumns false false (writeLine indent line) = padded line := by
  have hhead : stripBodyLineHead (writeLine indent line) = ' ' :: line := by
    rw [stripBodyLineHead, writeLine, dropWhile_indent hindent]
    rfl
  show stripBodyLineTail (stripBodyLineHead (writeLine indent line)) = padded line
  rw [hhead, padded]
  by_cases hne : line = []
  · rw [if_pos hne, hne]
    rfl
  · rw [if_neg hne]
    refine dropEndWhile_self fun c hc => hline c ?_
    rw [← hc, ← List.singleton_append, List.getLast?_append_of_ne_nil _ hne]

theorem stripColumns_end (hlast : IsIndent last) :
    stripColumns false true (last ++ ['*', '/']) = [] := by
  have hhead : stripBodyLineHead (last ++ ['*', '/']) = ['/'] := by
    rw [stripBodyLineHead, dropWhile_indent hlast]
    rfl
  show stripLastLineTail (stripBodyLineHead (last ++ ['*', '/'])) = []
  rw [hhead]
  rfl

/-- The lines of a comment are those it is written of, between its two ends. -/
theorem splitLines_writeComment
    (h : ∀ line ∈ written, IsIndent line.1 ∧ '\n' ∉ line.2) (hlast : IsIndent last) :
    splitLines (writeComment written last) =
      "/**".toList ::
        (written.map (fun line => writeLine line.1 line.2) ++ [last ++ ['*', '/']]) := by
  have hwritten : ∀ line ∈ written.map (fun line => writeLine line.1 line.2), '\n' ∉ line := by
    intro line hline
    obtain ⟨⟨indent, text⟩, hmem, rfl⟩ := List.mem_map.mp hline
    obtain ⟨hindent, htext⟩ := h _ hmem
    have hnot : '\n' ∉ indent := fun hc => (hindent _ hc).2 rfl
    simp [writeLine, hnot, htext]
  have hend : '\n' ∉ last ++ ['*', '/'] := by
    have hnot : '\n' ∉ last := fun hc => (hlast _ hc).2 rfl
    simp [hnot]
  have hflat : written.flatMap (fun line => writeLine line.1 line.2 ++ ['\n']) =
      (written.map fun line => writeLine line.1 line.2).flatMap (· ++ ['\n']) := by
    rw [List.flatMap_map]
  rw [writeComment, splitLines_line (by simp), hflat, splitLines_lines hwritten,
    splitLines_last hend (by simp)]

theorem stripLines_writeComment
    (h : ∀ line ∈ written, IsIndent line.1 ∧ '\n' ∉ line.2 ∧ Trimmed line.2)
    (hlast : IsIndent last) :
    stripLines true (splitLines (writeComment written last)) =
      [] :: ((written.map Prod.snd).map padded ++ [[]]) := by
  have hbody : (written.map fun line => writeLine line.1 line.2).map (stripColumns false false) =
      (written.map Prod.snd).map padded := by
    rw [List.map_map, List.map_map]
    refine List.map_congr_left fun line hline => ?_
    exact stripColumns_writeLine (h line hline).1 (h line hline).2.2
  rw [splitLines_writeComment (fun line hline => ⟨(h line hline).1, (h line hline).2.1⟩) hlast,
    stripLines_first, stripLines_concat, hbody, stripColumns_end hlast]
  rfl

theorem padded_ne_nil (h : line ≠ []) : padded line ≠ [] := by
  rw [padded, if_neg h]
  exact List.cons_ne_nil _ _

/-- The empty lines at the two ends go, and no others. -/
theorem strip_padded (hhead : ∀ line, lines.head? = some line → line ≠ [])
    (hlast : ∀ line, lines.getLast? = some line → line ≠ []) :
    stripTrailingEmptyLines (stripLeadingEmptyLines ([] :: (lines.map padded ++ [[]]))) =
      lines.map padded := by
  have hleading : stripLeadingEmptyLines ([] :: (lines.map padded ++ [[]])) =
      if lines = [] then [] else lines.map padded ++ [[]] := by
    cases lines with
    | nil => rfl
    | cons first lines =>
      have hfirst := padded_ne_nil (hhead first rfl)
      rw [stripLeadingEmptyLines, List.dropWhile_cons_of_pos rfl, List.map_cons, List.cons_append,
        List.dropWhile_cons_of_neg (by simpa using hfirst), if_neg (List.cons_ne_nil _ _)]
  rw [hleading]
  by_cases hne : lines = []
  · rw [hne]
    rfl
  · rw [if_neg hne]
    show List.rdropWhile List.isEmpty (lines.map padded ++ [[]]) = lines.map padded
    rw [List.rdropWhile_concat_pos _ _ _ rfl]
    refine List.rdropWhile_eq_self_iff.mpr fun hmap => ?_
    have hpadded := padded_ne_nil (hlast _ (List.getLast?_eq_some_getLast hne))
    rw [List.getLast_map]
    simpa using hpadded

/-- The common indentation of lines that have none, behind a space each, is that space. -/
theorem commonPrefix_padded (hne : lines ≠ [])
    (hhead : ∀ line, lines.head? = some line → line ≠ []) (h : NoCommonIndent lines) :
    commonPrefix (lines.map padded) = [' '] := by
  obtain ⟨hwhite, hpre⟩ := @commonPrefix_isPrefix (lines.map padded)
  have hspace : [' '] <+: commonPrefix (lines.map padded) := by
    cases lines with
    | nil => exact absurd rfl hne
    | cons first lines =>
      refine prefix_commonPrefix (padded_ne_nil (hhead first rfl)) (fun c hc => ?_) ?_
      · rw [List.mem_singleton.mp hc]
        rfl
      · intro line hline hline'
        have hmem : line ∈ (first :: lines).map padded := hline
        obtain ⟨original, -, rfl⟩ := List.mem_map.mp hmem
        have horiginal : original ≠ [] := fun hnil => hline' (by rw [padded, if_pos hnil])
        rw [padded, if_neg horiginal]
        exact ⟨original, rfl⟩
  obtain ⟨others, hothers⟩ := hspace
  cases others with
  | nil => exact hothers.symm
  | cons c others =>
    -- a second character would be common to the lines themselves
    obtain ⟨line, hline, hne', hhead'⟩ := h c (hwhite c (by rw [← hothers]; simp))
    obtain ⟨rest, hrest⟩ := hpre _ (List.mem_map_of_mem hline) (padded_ne_nil hne')
    rw [← hothers, padded, if_neg hne'] at hrest
    rw [← (List.cons.inj hrest).2] at hhead'
    exact absurd rfl hhead'

theorem drop_padded : (lines.map padded).map (·.drop 1) = lines := by
  rw [List.map_map]
  refine List.map_id'' (fun line => ?_) lines
  by_cases h : line = []
  · rw [h]
    rfl
  · rw [Function.comp, padded, if_neg h]
    rfl

theorem writeComment_delimited :
    (['/', '*', '*'].isPrefixOf (writeComment written last) &&
      ['*', '/'].isSuffixOf (writeComment written last)) = true := by
  refine Bool.and_eq_true_iff.mpr ⟨rfl, List.isSuffixOf_iff_suffix.mpr ?_⟩
  exact ⟨"/**".toList ++ '\n' ::
    (written.flatMap (fun line => writeLine line.1 line.2 ++ ['\n']) ++ last),
    by simp [writeComment]⟩

/-- Lines that are written behind asterisks are read back. -/
theorem process_writeComment (hne : written ≠ [])
    (h : ∀ line ∈ written, IsIndent line.1 ∧ '\n' ∉ line.2 ∧ Trimmed line.2)
    (hlast : IsIndent last)
    (hfirst : ∀ line, (written.map Prod.snd).head? = some line → line ≠ [])
    (hfinal : ∀ line, (written.map Prod.snd).getLast? = some line → line ≠ [])
    (hindent : NoCommonIndent (written.map Prod.snd)) :
    process (writeComment written last) = joinLines (written.map Prod.snd) := by
  have hmap : written.map Prod.snd ≠ [] := by simpa using hne
  rw [process, if_pos writeComment_delimited, stripLines_writeComment h hlast,
    strip_padded hfirst hfinal, stripCommonPrefixWhitespaces,
    commonPrefix_padded hmap hfirst hindent]
  exact congrArg joinLines drop_padded

theorem analyzeDescription_region {ρ : Type} {env : Environment ρ} {before text after : List Char}
    (h : env.source = some (before ++ text ++ after)) :
    analyzeDescription env (some ⟨before.length, before.length + text.length⟩) = process text := by
  have hend : ¬ (before ++ text ++ after).length < before.length + text.length := by
    rw [List.length_append, List.length_append]
    omega
  simp only [analyzeDescription, h]
  rw [if_neg hend, Nat.add_sub_cancel_left, List.append_assoc, List.drop_left, List.take_left]

/-- Whatever the region is, a description is nothing or what is left of a text. -/
theorem analyzeDescription_cases {ρ : Type} (env : Environment ρ) (region : Option NodeRegion) :
    analyzeDescription env region = [] ∨
      ∃ contents, analyzeDescription env region = process contents := by
  unfold analyzeDescription
  split
  next document r _ =>
    by_cases h : document.length < r.end_
    · exact Or.inl (if_pos h)
    · exact Or.inr ⟨_, if_neg h⟩
  next => exact Or.inl rfl

/-- Not made of white space alone. -/
theorem Trimmed.not_blank (h : Trimmed line) (hne : line ≠ []) :
    ¬ ∀ c ∈ line, isWhitespace c := by
  intro hblank
  have hlast := List.getLast?_eq_some_getLast hne
  have hwhite := hblank _ (List.mem_of_getLast? hlast)
  rw [h _ hlast] at hwhite
  cases hwhite

/-- The lines of a comment are read back from behind their asterisks, whatever indentation these
have; and of any comment there are left lines without common indentation, not blank at the ends. -/
theorem analyzeDescription_law {ρ : Type} (env : Environment ρ) :
    (∀ (written : List (List Char × List Char)) (last before after : List Char),
      written ≠ [] →
      (∀ line ∈ written, IsIndent line.1 ∧ '\n' ∉ line.2 ∧ Trimmed line.2) → IsIndent last →
      (∀ line, (written.map Prod.snd).head? = some line → line ≠ []) →
      (∀ line, (written.map Prod.snd).getLast? = some line → line ≠ []) →
      NoCommonIndent (written.map Prod.snd) →
      env.source = some (before ++ writeComment written last ++ after) →
      analyzeDescription env
          (some ⟨before.length, before.length + (writeComment written last).length⟩) =
        joinLines (written.map Prod.snd)) ∧
    ∀ region, ∃ lines, analyzeDescription env region = joinLines lines ∧
      (∀ line ∈ lines, '\n' ∉ line) ∧
      (∀ line, lines.head? = some line → ¬ ∀ c ∈ line, isWhitespace c) ∧
      (∀ line, lines.getLast? = some line → ¬ ∀ c ∈ line, isWhitespace c) ∧
      (lines ≠ [] → NoCommonIndent lines) := by
  refine ⟨?_, fun region => ?_⟩
  · intro written last before after hne h hlast hfirst hfinal hindent hsource
    rw [analyzeDescription_region hsource]
    exact process_writeComment hne h hlast hfirst hfinal hindent
  · rcases analyzeDescription_cases env region with h | ⟨contents, h⟩
    · exact ⟨[], h, by simp, by simp, by simp, fun hne => absurd rfl hne⟩
    · obtain ⟨lines, hlines, htidy, hindent⟩ := process_lines contents
      refine ⟨lines, h.trans hlines, htidy.whole, fun line hline => ?_, fun line hline => ?_,
        hindent⟩
      · exact (htidy.trimmed line (List.mem_of_head? hline)).not_blank (htidy.head line hline)
      · exact (htidy.trimmed line (List.mem_of_getLast? hline)).not_blank (htidy.last line hline)

/-- An environment with a source text. -/
def documentEnvironment (source : List Char) : Environment Types :=
  { Environment.ofSchema (.ofTables [] []) with source := some source }

/-- An indented line, behind asterisks that are not aligned. -/
theorem analyzeDescription_law_indented :
    analyzeDescription
        (documentEnvironment
          ("x ".toList ++ "/**\n * one\n\t*   two\n   */".toList ++ " y".toList))
        (some ⟨2, 27⟩) = "one\n  two".toList := by
  have hspace : ∀ c ∈ "   ".toList, c = ' ' := by simp
  refine (analyzeDescription_law (documentEnvironment _)).1
    [([' '], "one".toList), (['\t'], "  two".toList)] "   ".toList "x ".toList " y".toList
    (List.cons_ne_nil _ _) ?_ ?_ ?_ ?_ ?_ rfl
  · refine List.forall_mem_cons.mpr ⟨⟨?_, by decide, ?_⟩, List.forall_mem_singleton.mpr
      ⟨?_, by decide, ?_⟩⟩
    · exact List.forall_mem_singleton.mpr ⟨rfl, by decide⟩
    · intro c h
      cases h
      rfl
    · exact List.forall_mem_singleton.mpr ⟨rfl, by decide⟩
    · intro c h
      cases h
      rfl
  · intro c hc
    rw [hspace c hc]
    exact ⟨rfl, by decide⟩
  · intro line h
    cases h
    exact List.cons_ne_nil _ _
  · intro line h
    cases h
    exact List.cons_ne_nil _ _
  · intro c hc
    refine ⟨"one".toList, List.mem_cons_self, List.cons_ne_nil _ _, fun h => ?_⟩
    cases h
    cases hc

end Mizugaki.Analyzer.Description
