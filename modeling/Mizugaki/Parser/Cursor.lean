import Mizugaki.Parser.Comment

/-! The cursor of the scanner. It moves over every match of a rule, and the regions of tokens and
comments are read off it; what the scanner reports of a document therefore comes in the order of
its positions, the end of the document last. -/

namespace Mizugaki.Parser

open Mizugaki.Ast

/-- The state of the scanner, as far as regions are read off it. -/
structure SqlScanner where
  cursor : Nat := 0
  yyleng : Nat := 0
  commentBegin : Nat := npos

namespace SqlScanner

/-- `user_action`, for a match of a length. -/
def userAction (scanner : SqlScanner) (yyleng : Nat) : SqlScanner :=
  { scanner with cursor := scanner.cursor + yyleng, yyleng }

/-- `location`. -/
def location (scanner : SqlScanner) (eof : Bool) : NodeRegion :=
  ⟨scanner.cursor - (if eof then 0 else scanner.yyleng), scanner.cursor⟩

/-- `enter_comment`. -/
def enterComment (scanner : SqlScanner) : SqlScanner :=
  { scanner with commentBegin := scanner.cursor - scanner.yyleng }

/-- `exit_comment`. -/
def exitComment (scanner : SqlScanner) (inclusive : Bool) : NodeRegion × SqlScanner :=
  (⟨scanner.commentBegin,
      if inclusive then scanner.cursor else scanner.cursor - scanner.yyleng⟩,
    { scanner with commentBegin := npos })

/-- `on_token`. -/
def onToken (scanner : SqlScanner) (eof : Bool) : Report := .token (scanner.location eof)

/-- A piece of a document, by the lengths of the matches in it: white space, a token, or a comment
with its delimiters. -/
inductive Piece where
  | space (yyleng : Nat)
  | token (yyleng : Nat)
  | bracketedComment (body : List Nat)
  | simpleComment (body : List Nat) (lineBreak : Nat)

/-- How a document ends: outside a comment, in a simple comment or in a bracketed one. -/
inductive Ending where
  | initial
  | simpleComment (body : List Nat)
  | bracketedComment (body : List Nat)

/-- The scanner after the two characters that open a comment and the matches in it. -/
def inComment (scanner : SqlScanner) (body : List Nat) : SqlScanner :=
  body.foldl userAction (scanner.userAction 2).enterComment

def scanPiece (scanner : SqlScanner) : Piece → List Report × SqlScanner
  | .space yyleng => ([], scanner.userAction yyleng)
  | .token yyleng =>
    let scanner := scanner.userAction yyleng
    ([scanner.onToken false], scanner)
  | .bracketedComment body =>
    let (region, scanner) := ((scanner.inComment body).userAction 2).exitComment true
    ([.comment region], scanner)
  | .simpleComment body lineBreak =>
    let (region, scanner) := ((scanner.inComment body).userAction lineBreak).exitComment false
    ([.comment region], scanner)

def scanPieces (scanner : SqlScanner) : List Piece → List Report × SqlScanner
  | [] => ([], scanner)
  | piece :: pieces =>
    let (reports, scanner) := scanner.scanPiece piece
    let (more, scanner) := scanner.scanPieces pieces
    (reports ++ more, scanner)

/-- The reports at the end; the end of the document does not change the length of a match. -/
def scanEnding (scanner : SqlScanner) : Ending → List Report × SqlScanner
  | .initial => ([scanner.onToken true], scanner)
  | .simpleComment body =>
    let (region, scanner) := (scanner.inComment body).exitComment true
    ([.comment region, scanner.onToken true], scanner)
  | .bracketedComment body =>
    let (_, scanner) := (scanner.inComment body).exitComment true
    ([scanner.onToken true], scanner)

/-- What the scanner reports of a document, and where it ends. -/
def scan (pieces : List Piece) (ending : Ending) : List Report × SqlScanner :=
  let (reports, scanner) := scanPieces {} pieces
  let (last, scanner) := scanner.scanEnding ending
  (reports ++ last, scanner)

/-- No token is empty. -/
def Piece.Matched : Piece → Prop
  | space _ => True
  | token yyleng => 0 < yyleng
  | bracketedComment _ => True
  | simpleComment _ _ => True

/-! ### Positions -/

variable {scanner : SqlScanner} {body : List Nat} {piece : Piece} {pieces : List Piece}
  {ending : Ending} {low middle high : Nat} {a b reports : List Report}

/-- Reports that come in order between two positions. -/
structure Between (low high : Nat) (reports : List Report) : Prop where
  sorted : reports.Pairwise fun a b => a.location.begin_ < b.location.begin_
  low_le : ∀ report ∈ reports, low ≤ report.location.begin_
  lt_high : ∀ report ∈ reports, report.location.begin_ < high
  end_le : ∀ report ∈ reports, report.location.end_ ≤ high

theorem Between.nil : Between low high [] := ⟨.nil, by simp, by simp, by simp⟩

theorem Between.single {report : Report} (hlow : low ≤ report.location.begin_)
    (hhigh : report.location.begin_ < high) (hend : report.location.end_ ≤ high) :
    Between low high [report] :=
  ⟨List.pairwise_singleton _ _, by simpa using hlow, by simpa using hhigh, by simpa using hend⟩

theorem Between.append (ha : Between low middle a) (hb : Between middle high b)
    (hlow : low ≤ middle) (hhigh : middle ≤ high) : Between low high (a ++ b) := by
  refine ⟨?_, ?_, ?_, ?_⟩
  · refine List.pairwise_append.mpr ⟨ha.sorted, hb.sorted, fun x hx y hy => ?_⟩
    exact (ha.lt_high x hx).trans_le (hb.low_le y hy)
  all_goals
    intro report hr
    rcases List.mem_append.mp hr with hr | hr
  · exact ha.low_le report hr
  · exact hlow.trans (hb.low_le report hr)
  · exact (ha.lt_high report hr).trans_le hhigh
  · exact hb.lt_high report hr
  · exact (ha.end_le report hr).trans hhigh
  · exact hb.end_le report hr

theorem inComment_commentBegin : (scanner.inComment body).commentBegin = scanner.cursor := by
  have hfold : ∀ (s : SqlScanner), (body.foldl userAction s).commentBegin = s.commentBegin := by
    induction body with
    | nil => exact fun s => rfl
    | cons n body ih => exact fun s => ih (s.userAction n)
  rw [inComment, hfold]
  exact Nat.add_sub_cancel _ _

theorem lt_inComment_cursor : scanner.cursor < (scanner.inComment body).cursor := by
  have hfold : ∀ (s : SqlScanner), s.cursor ≤ (body.foldl userAction s).cursor := by
    induction body with
    | nil => exact fun s => le_refl _
    | cons n body ih => exact fun s => (Nat.le_add_right _ n).trans (ih (s.userAction n))
  calc scanner.cursor < (scanner.userAction 2).enterComment.cursor := by
        simp [userAction, enterComment]
    _ ≤ (scanner.inComment body).cursor := hfold _

theorem scanPiece_between (h : piece.Matched) :
    scanner.cursor ≤ (scanner.scanPiece piece).2.cursor ∧
      Between scanner.cursor (scanner.scanPiece piece).2.cursor (scanner.scanPiece piece).1 := by
  cases piece with
  | space yyleng => exact ⟨Nat.le_add_right _ _, .nil⟩
  | token yyleng =>
    have hpos : 0 < yyleng := h
    refine ⟨Nat.le_add_right _ _, .single ?_ ?_ ?_⟩
    all_goals
      simp [scanPiece, onToken, Report.location, location, userAction]
    exact hpos
  | bracketedComment body =>
    have hbegin := @inComment_commentBegin scanner body
    have hin := @lt_inComment_cursor scanner body
    refine ⟨?_, .single ?_ ?_ ?_⟩
    all_goals
      simp only [scanPiece, exitComment, Report.location, userAction, hbegin, if_true]
    all_goals omega
  | simpleComment body lineBreak =>
    have hbegin := @inComment_commentBegin scanner body
    have hin := @lt_inComment_cursor scanner body
    refine ⟨?_, .single ?_ ?_ ?_⟩
    all_goals
      simp only [scanPiece, exitComment, Report.location, userAction, hbegin, Bool.false_eq_true,
        if_false]
    all_goals omega

theorem scanPieces_between (h : ∀ piece ∈ pieces, piece.Matched) :
    scanner.cursor ≤ (scanner.scanPieces pieces).2.cursor ∧
      Between scanner.cursor (scanner.scanPieces pieces).2.cursor
        (scanner.scanPieces pieces).1 := by
  induction pieces generalizing scanner with
  | nil => exact ⟨le_refl _, .nil⟩
  | cons piece pieces ih =>
    obtain ⟨hle, hpiece⟩ := @scanPiece_between scanner piece (h piece List.mem_cons_self)
    obtain ⟨hle', hpieces⟩ := @ih (scanner.scanPiece piece).2 fun piece hp =>
      h piece (List.mem_cons_of_mem _ hp)
    exact ⟨hle.trans hle', hpiece.append hpieces hle hle'⟩

/-- The reports at the end come in order, and the last is the end of the document. -/
theorem scanEnding_between :
    ∃ reports, Between scanner.cursor (scanner.scanEnding ending).2.cursor reports ∧
      scanner.cursor ≤ (scanner.scanEnding ending).2.cursor ∧
      (scanner.scanEnding ending).1 =
        reports ++ [.token ⟨(scanner.scanEnding ending).2.cursor,
          (scanner.scanEnding ending).2.cursor⟩] := by
  cases ending with
  | initial => exact ⟨[], .nil, le_refl _, rfl⟩
  | simpleComment body =>
    have hbegin := @inComment_commentBegin scanner body
    have hin := @lt_inComment_cursor scanner body
    refine ⟨[.comment ⟨scanner.cursor, (scanner.inComment body).cursor⟩], .single ?_ ?_ ?_,
      hin.le, ?_⟩
    · exact le_refl _
    · exact hin
    · exact le_refl _
    · rw [← hbegin]
      rfl
  | bracketedComment body => exact ⟨[], .nil, lt_inComment_cursor.le, rfl⟩

/-- The scanner reports a document in the order of its positions, and its end last. -/
theorem scan_increasing (h : ∀ piece ∈ pieces, piece.Matched)
    (hsize : (scan pieces ending).2.cursor < npos) :
    ∃ reports, (scan pieces ending).1 =
        reports ++ [.token ⟨(scan pieces ending).2.cursor, (scan pieces ending).2.cursor⟩] ∧
      Report.Increasing (scan pieces ending).1 := by
  obtain ⟨_, hpieces⟩ := @scanPieces_between {} pieces h
  obtain ⟨last, hlast, hle, heq⟩ := @scanEnding_between (scanPieces {} pieces).2 ending
  have hreports : (scan pieces ending).1 = ((scanPieces {} pieces).1 ++ last) ++
      [.token ⟨(scan pieces ending).2.cursor, (scan pieces ending).2.cursor⟩] := by
    rw [List.append_assoc]
    exact congrArg ((scanPieces {} pieces).1 ++ ·) heq
  have hall := hpieces.append hlast (Nat.zero_le _) hle
  refine ⟨_, hreports, ?_⟩
  rw [hreports]
  constructor
  · refine List.pairwise_append.mpr ⟨hall.sorted, List.pairwise_singleton _ _, fun r hr e he => ?_⟩
    rw [List.mem_singleton.mp he]
    exact hall.lt_high r hr
  · intro r hr
    have hbegin : r.location.begin_ ≤ (scan pieces ending).2.cursor := by
      rcases List.mem_append.mp hr with hr | hr
      · exact (hall.lt_high r hr).le
      · rw [List.mem_singleton.mp hr]
        exact le_refl _
    have hend : r.location.end_ ≤ (scan pieces ending).2.cursor := by
      rcases List.mem_append.mp hr with hr | hr
      · exact hall.end_le r hr
      · rw [List.mem_singleton.mp hr]
        exact le_refl _
    simp only [isValid, Bool.and_eq_true, bne_iff_ne]
    omega

end SqlScanner

end Mizugaki.Parser
