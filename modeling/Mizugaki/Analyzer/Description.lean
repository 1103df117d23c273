import Mizugaki.Analyzer.Context
import Mizugaki.Ast.Statement

/-! The description of a column, a table or an index: what a documentation comment says,
without its delimiters, the leading asterisks of its lines and their common indentation. -/

namespace Mizugaki.Analyzer

open Mizugaki.Ast

namespace Description

/-- `split_lines`: a line break at the end opens no further line. -/
def splitLines : List Char → List (List Char)
  | [] => []
  | c :: rest =>
    if c = '\n' then [] :: splitLines rest
    else
      match splitLines rest with
      | [] => [[c]]
      | line :: lines => (c :: line) :: lines

def isWhitespace (c : Char) : Bool := c = ' ' || c = '\t' || c = '\r' || c = '\n'

def isAsterisk (c : Char) : Bool := c = '*'

def isSolidus (c : Char) : Bool := c = '/'

/-- Drop the characters at the end that have a property. -/
def dropEndWhile (p : Char → Bool) (line : List Char) : List Char :=
  (line.reverse.dropWhile p).reverse

/-- `strip_first_line_head`. -/
def stripFirstLineHead : List Char → List Char
  | '/' :: rest => rest.dropWhile isAsterisk
  | line => line.dropWhile isAsterisk

/-- `strip_body_line_head`: white space goes only before an asterisk. -/
def stripBodyLineHead (line : List Char) : List Char :=
  match line.dropWhile isWhitespace with
  | '*' :: rest => rest.dropWhile isAsterisk
  | _ => line

/-- `strip_last_line_tail`. -/
def stripLastLineTail (line : List Char) : List Char :=
  dropEndWhile isWhitespace (dropEndWhile isAsterisk (dropEndWhile isSolidus line))

/-- `strip_body_line_tail`. -/
def stripBodyLineTail (line : List Char) : List Char := dropEndWhile isWhitespace line

/-- `strip_columns`. -/
def stripColumns (isFirstLine isLastLine : Bool) (line : List Char) : List Char :=
  let line := if isFirstLine then stripFirstLineHead line else stripBodyLineHead line
  if isLastLine then stripLastLineTail line else stripBodyLineTail line

/-- The lines of a comment, each stripped by its place. -/
def stripLines (isFirstLine : Bool) : List (List Char) → List (List Char)
  | [] => []
  | [line] => [stripColumns isFirstLine true line]
  | line :: lines => stripColumns isFirstLine false line :: stripLines false lines

/-- `strip_leading_empty_lines`. -/
def stripLeadingEmptyLines (lines : List (List Char)) : List (List Char) :=
  lines.dropWhile List.isEmpty

/-- `strip_trailing_empty_lines`. -/
def stripTrailingEmptyLines (lines : List (List Char)) : List (List Char) :=
  (lines.reverse.dropWhile List.isEmpty).reverse

/-- `extract_common_prefix`. -/
def extractCommonPrefix : List Char → List Char → List Char
  | a :: as, b :: bs => if a = b then a :: extractCommonPrefix as bs else []
  | _, _ => []

/-- The white space that all lines which are not empty begin with. -/
def commonPrefix : List (List Char) → List Char
  | [] => []
  | line :: lines =>
    (lines.filter (! ·.isEmpty)).foldl extractCommonPrefix (line.takeWhile isWhitespace)

/-- `strip_common_prefix_whitespaces`. -/
def stripCommonPrefixWhitespaces (lines : List (List Char)) : List (List Char) :=
  lines.map (·.drop (commonPrefix lines).length)

/-- `join_lines`. -/
def joinLines (lines : List (List Char)) : List Char := ['\n'].intercalate lines

/-- `process`. -/
def process (contents : List Char) : List Char :=
  if ['/', '*', '*'].isPrefixOf contents && ['*', '/'].isSuffixOf contents then
    joinLines (stripCommonPrefixWhitespaces (stripTrailingEmptyLines (stripLeadingEmptyLines
      (stripLines true (splitLines contents)))))
  else []

end Description

/-- `analyze_description`. -/
def analyzeDescription {ρ : Type} (env : Environment ρ) (region : Option NodeRegion) : List Char :=
  match env.source, region with
  | some document, some r =>
    if document.length < r.end_ then []
    else Description.process ((document.drop r.begin_).take (r.end_ - r.begin_))
  | _, _ => []

end Mizugaki.Analyzer
