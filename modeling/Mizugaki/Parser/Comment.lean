import Mizugaki.Ast.Statement
import Mizugaki.Data.Search

/-! The comments of a document. The driver keeps every comment, but of the tokens only those beside
a comment, as separators; which comments lead or follow a token is found again by binary search
over the two. -/

namespace Mizugaki.Parser

open Mizugaki.Ast Mizugaki.Data.Search

/-- The position that is none. -/
def npos : Nat := 2 ^ 64 - 1

/-- `node_region::operator bool`. -/
def isValid (region : NodeRegion) : Bool := region.begin_ != npos && region.end_ != npos

/-- The state of a driver, as far as it is about comments. -/
structure SqlDriver where
  document : Option (List Char)
  comments : List NodeRegion := []
  commentSeparators : List Nat := []
  sawComments : Bool := false
  lastCommentSeparator : NodeRegion := ⟨npos, npos⟩

namespace SqlDriver

/-- The separators with one more, unless it is not above the last of them. -/
def pushSeparator (separators : List Nat) (separator : Nat) : List Nat :=
  if separators.getLast?.all (· < separator) then separators ++ [separator] else separators

/-- `add_comment`. -/
def addComment (driver : SqlDriver) (location : NodeRegion) : SqlDriver :=
  let driver :=
    if driver.sawComments then driver
    else
      let separator :=
        if isValid driver.lastCommentSeparator then driver.lastCommentSeparator.begin_ else 0
      { driver with
        commentSeparators := pushSeparator driver.commentSeparators separator
        sawComments := true }
  { driver with comments := driver.comments ++ [location] }

/-- `add_comment_separator`. -/
def addCommentSeparator (driver : SqlDriver) (location : NodeRegion) : SqlDriver :=
  let driver :=
    if driver.sawComments then
      { driver with
        commentSeparators := pushSeparator driver.commentSeparators location.begin_
        sawComments := false }
    else driver
  { driver with lastCommentSeparator := location }

/-- `comments_in_range`. -/
def commentsInRange (driver : SqlDriver) (from_ to_ : Nat) : List NodeRegion :=
  if to_ < from_ then []
  else
    let lower := lowerBound NodeRegion.begin_ from_ driver.comments
    if lower = driver.comments.length then []
    else
      let upper := upperBound NodeRegion.begin_ to_ driver.comments
      if upper ≤ lower then [] else (driver.comments.drop lower).take (upper - lower)

/-- `leading_comments`. -/
def leadingComments (driver : SqlDriver) (token : NodeRegion) : List NodeRegion :=
  if !isValid token then []
  else
    let index := lowerBound id token.begin_ driver.commentSeparators
    if driver.commentSeparators[index]? ≠ some token.begin_ then []
    else
      match driver.commentSeparators.take index |>.getLast? with
      | none => []
      | some previous => driver.commentsInRange previous token.begin_

/-- `following_comments`. -/
def followingComments (driver : SqlDriver) (token : NodeRegion) : List NodeRegion :=
  if !isValid token then []
  else
    let index := lowerBound id token.begin_ driver.commentSeparators
    if driver.commentSeparators[index]? ≠ some token.begin_ then []
    else
      match driver.commentSeparators[index + 1]? with
      | none =>
        match driver.document with
        | none => []
        | some document => driver.commentsInRange token.begin_ document.length
      | some next => driver.commentsInRange token.begin_ next

end SqlDriver

/-! ### What the scanner reports -/

/-- A comment, or a token as a separator of comments. -/
inductive Report where
  | comment (location : NodeRegion)
  | token (location : NodeRegion)

namespace Report

def location : Report → NodeRegion
  | comment location => location
  | token location => location

/-- The comments of a document. -/
def comments : List Report → List NodeRegion
  | [] => []
  | comment location :: reports => location :: comments reports
  | token _ :: reports => comments reports

/-- The tokens of a document. -/
def tokens : List Report → List NodeRegion
  | [] => []
  | comment _ :: reports => tokens reports
  | token location :: reports => location :: tokens reports

/-- The comments up to the next token. -/
def commentsAfter : List Report → List NodeRegion
  | comment location :: reports => location :: commentsAfter reports
  | _ => []

/-- The comments since the last token, which come after what is there already. -/
def commentsSince (since : List NodeRegion) : List Report → List NodeRegion
  | [] => since
  | comment location :: reports => commentsSince (since ++ [location]) reports
  | token _ :: reports => commentsSince [] reports

/-- The comments since the last token. -/
def commentsBefore (reports : List Report) : List NodeRegion := commentsSince [] reports

/-- The reports come in the order of their positions, and these are positions. -/
structure Increasing (reports : List Report) : Prop where
  sorted : reports.Pairwise fun a b => a.location.begin_ < b.location.begin_
  valid : ∀ report ∈ reports, isValid report.location

end Report

namespace SqlDriver

def report (driver : SqlDriver) : Report → SqlDriver
  | .comment location => driver.addComment location
  | .token location => driver.addCommentSeparator location

/-- The driver of a document after all reports on it. -/
def run (document : Option (List Char)) (reports : List Report) : SqlDriver :=
  reports.foldl report { document }

end SqlDriver

/-! ### The separators of a document -/

namespace Report

def beginsWithComment : List Report → Bool
  | comment _ :: _ => true
  | _ => false

/-- The positions of the tokens beside a comment. -/
def separators (commented : Bool) : List Report → List Nat
  | [] => []
  | comment _ :: reports => separators true reports
  | token location :: reports =>
    if commented || beginsWithComment reports then
      location.begin_ :: separators false reports
    else separators false reports

/-- Whether a comment comes after the last token, or has come before all. -/
def endsWithComment (commented : Bool) : List Report → Bool
  | [] => commented
  | comment _ :: reports => endsWithComment true reports
  | token _ :: reports => endsWithComment false reports

variable {commented : Bool} {before after reports : List Report} {region t : NodeRegion} {s : Nat}

@[simp] theorem beginsWithComment_comment : beginsWithComment (comment region :: reports) = true :=
  rfl

@[simp] theorem beginsWithComment_token : beginsWithComment (token region :: reports) = false :=
  rfl

theorem beginsWithComment_append_token :
    beginsWithComment (before ++ token t :: after) = beginsWithComment before := by
  cases before with
  | nil => rfl
  | cons report before => cases report <;> rfl

theorem separators_append :
    separators commented (before ++ token t :: after) =
      separators commented before ++
        separators (endsWithComment commented before) (token t :: after) := by
  induction before generalizing commented with
  | nil => rfl
  | cons report before ih =>
    cases report with
    | comment location => exact ih
    | token location =>
      rw [List.cons_append, separators, separators, endsWithComment,
        beginsWithComment_append_token, ih]
      by_cases h : commented || beginsWithComment before
      · rw [if_pos h, if_pos h, List.cons_append]
      · rw [if_neg h, if_neg h]

theorem mem_separators (h : s ∈ separators commented reports) :
    ∃ t, token t ∈ reports ∧ t.begin_ = s := by
  induction reports generalizing commented with
  | nil => simp [separators] at h
  | cons report reports ih =>
    cases report with
    | comment location =>
      obtain ⟨t, ht, hs⟩ := ih h
      exact ⟨t, List.mem_cons_of_mem _ ht, hs⟩
    | token location =>
      have hmem : s = location.begin_ ∨ s ∈ separators false reports := by
        rw [separators] at h
        split at h
        · exact List.mem_cons.mp h
        · exact .inr h
      rcases hmem with rfl | hmem
      · exact ⟨location, List.mem_cons_self, rfl⟩
      · obtain ⟨t, ht, hs⟩ := ih hmem
        exact ⟨t, List.mem_cons_of_mem _ ht, hs⟩

theorem mem_comments (h : region ∈ comments reports) : comment region ∈ reports := by
  induction reports with
  | nil => simp [comments] at h
  | cons report reports ih =>
    cases report with
    | comment location =>
      rcases List.mem_cons.mp h with rfl | h
      · exact List.mem_cons_self
      · exact List.mem_cons_of_mem _ (ih h)
    | token location => exact List.mem_cons_of_mem _ (ih h)

theorem mem_tokens (h : token t ∈ reports) : t ∈ tokens reports := by
  induction reports with
  | nil => cases h
  | cons report reports ih =>
    cases report with
    | comment location =>
      rcases List.mem_cons.mp h with h | h
      · cases h
      · exact ih h
    | token location =>
      rcases List.mem_cons.mp h with h | h
      · rw [Report.token.inj h]
        exact List.mem_cons_self
      · exact List.mem_cons_of_mem _ (ih h)

@[simp] theorem comments_append :
    comments (before ++ after) = comments before ++ comments after := by
  induction before with
  | nil => rfl
  | cons report before ih =>
    cases report with
    | comment location => exact congrArg (location :: ·) ih
    | token location => exact ih

/-- Without a comment before or after it a token is no separator. -/
theorem comments_eq_nil (h : separators commented reports = [])
    (hbegins : beginsWithComment reports = false) : comments reports = [] := by
  induction reports generalizing commented with
  | nil => rfl
  | cons report reports ih =>
    cases report with
    | comment location => cases hbegins
    | token location =>
      rw [separators] at h
      by_cases hc : commented || beginsWithComment reports
      · rw [if_pos hc] at h
        cases h
      · rw [if_neg hc] at h
        simp only [Bool.or_eq_true, not_or, Bool.not_eq_true] at hc
        exact ih h hc.2

/-- Tokens after a comment are separators from the first on. -/
theorem separators_ne_nil (h : tokens reports ≠ []) : separators true reports ≠ [] := by
  induction reports with
  | nil => exact absurd rfl h
  | cons report reports ih =>
    cases report with
    | comment location => exact ih h
    | token location => simp [separators]

/-- Before the last separator are the comments that come before the last token. -/
theorem comments_eq_settled {since : List NodeRegion}
    (hsorted : reports.Pairwise fun a b => a.location.begin_ < b.location.begin_)
    (hsince : ∀ r ∈ since, ∀ x ∈ reports, r.begin_ < x.location.begin_)
    (hcommented : since ≠ [] → commented = true) :
    ∃ settled, since ++ comments reports = settled ++ commentsSince since reports ∧
      (separators commented reports = [] → settled = []) ∧
      ∀ s, (separators commented reports).getLast? = some s →
        (∀ r ∈ settled, r.begin_ < s) ∧ ∀ r ∈ commentsSince since reports, s ≤ r.begin_ := by
  induction reports generalizing commented since with
  | nil => exact ⟨[], by simp [comments, commentsSince], fun _ => rfl, by simp [separators]⟩
  | cons report reports ih =>
    obtain ⟨hhead, hrest⟩ := List.pairwise_cons.mp hsorted
    cases report with
    | comment location =>
      have hnext : ∀ r ∈ since ++ [location], ∀ x ∈ reports, r.begin_ < x.location.begin_ := by
        intro r hr x hx
        rcases List.mem_append.mp hr with hr | hr
        · exact hsince r hr x (List.mem_cons_of_mem _ hx)
        · rw [List.mem_singleton.mp hr]
          exact hhead x hx
      obtain ⟨settled, heq, hnone, hsome⟩ := ih hrest hnext fun _ => rfl
      refine ⟨settled, ?_, hnone, hsome⟩
      rw [← List.append_cons] at heq
      exact heq
    | token location =>
      obtain ⟨settled, heq, hnone, hsome⟩ := @ih false [] hrest
        (fun r hr => by cases hr) (fun h => absurd rfl h)
      have hcomments : comments reports = settled ++ commentsSince [] reports := heq
      refine ⟨since ++ settled, ?_, ?_⟩
      · rw [List.append_assoc, comments, commentsSince, hcomments]
      rw [separators]
      by_cases hc : commented || beginsWithComment reports
      · rw [if_pos hc]
        refine ⟨fun h => (by cases h), fun s hs => ?_⟩
        cases hseparators : separators false reports with
        | nil =>
          have hs' : location.begin_ = s := by simpa [hseparators] using hs
          rw [hnone hseparators, List.append_nil, ← hs']
          constructor
          · exact fun r hr => hsince r hr _ List.mem_cons_self
          · intro r hr
            have hmem : r ∈ comments reports := by
              rw [hcomments]
              exact List.mem_append_right _ hr
            exact (hhead _ (mem_comments hmem)).le
        | cons first others =>
          have hlast : (separators false reports).getLast? = some s := by
            rw [← hs, hseparators, List.getLast?_cons_cons]
          obtain ⟨u, hu, hus⟩ := mem_separators (List.mem_of_getLast? hlast)
          refine ⟨fun r hr => ?_, (hsome s hlast).2⟩
          rcases List.mem_append.mp hr with hr | hr
          · rw [← hus]
            exact hsince r hr _ (List.mem_cons_of_mem _ hu)
          · exact (hsome s hlast).1 r hr
      · rw [if_neg hc]
        have hempty : since = [] := by
          by_contra h
          exact hc (by rw [hcommented h, Bool.true_or])
        rw [hempty, List.nil_append]
        exact ⟨hnone, hsome⟩

theorem commentsSince_append_token {since : List NodeRegion} :
    commentsSince since (reports ++ [token t]) = [] := by
  induction reports generalizing since with
  | nil => rfl
  | cons report reports ih =>
    cases report with
    | comment location => exact ih
    | token location => exact ih

theorem commentsAfter_eq_nil (h : beginsWithComment reports = false) :
    commentsAfter reports = [] := by
  cases reports with
  | nil => rfl
  | cons report reports =>
    cases report with
    | comment location => cases h
    | token location => rfl

/-- Up to the first separator are the comments that come before the first token. -/
theorem comments_eq_later
    (hsorted : reports.Pairwise fun a b => a.location.begin_ < b.location.begin_) :
    ∃ later, comments reports = commentsAfter reports ++ later ∧
      (separators commented reports = [] → later = []) ∧
      ∀ s, (separators commented reports).head? = some s →
        (∀ r ∈ commentsAfter reports, r.begin_ < s) ∧ ∀ r ∈ later, s < r.begin_ := by
  induction reports generalizing commented with
  | nil => exact ⟨[], rfl, fun _ => rfl, by simp [separators]⟩
  | cons report reports ih =>
    obtain ⟨hhead, hrest⟩ := List.pairwise_cons.mp hsorted
    cases report with
    | comment location =>
      obtain ⟨later, heq, hnone, hsome⟩ := @ih true hrest
      refine ⟨later, congrArg (location :: ·) heq, hnone, fun s hs => ⟨?_, (hsome s hs).2⟩⟩
      have hfirst : (separators true reports).head? = some s := hs
      obtain ⟨u, hu, hus⟩ := mem_separators (List.mem_of_head? hfirst)
      rintro r (_ | ⟨_, hr⟩)
      · rw [← hus]
        exact hhead _ hu
      · exact (hsome s hs).1 r hr
    | token location =>
      refine ⟨comments reports, rfl, ?_⟩
      rw [separators]
      by_cases hc : commented || beginsWithComment reports
      · rw [if_pos hc]
        refine ⟨fun h => (by cases h), fun s hs => ⟨fun r hr => (by cases hr), fun r hr => ?_⟩⟩
        rw [← Option.some.inj hs]
        exact hhead _ (mem_comments hr)
      · rw [if_neg hc]
        obtain ⟨later, heq, hnone, hsome⟩ := @ih false hrest
        simp only [Bool.or_eq_true, not_or, Bool.not_eq_true] at hc
        have hafter : commentsAfter reports = [] := commentsAfter_eq_nil hc.2
        rw [hafter, List.nil_append] at heq
        rw [heq]
        exact ⟨hnone, fun s hs => ⟨fun r hr => (by cases hr), (hsome s hs).2⟩⟩

theorem commentsSince_eq_nil {since : List NodeRegion}
    (h : endsWithComment commented reports = false) (hsince : commented = false → since = []) :
    commentsSince since reports = [] := by
  induction reports generalizing commented since with
  | nil => exact hsince h
  | cons report reports ih =>
    cases report with
    | comment location => exact ih h (fun h => by cases h)
    | token location => exact ih h fun _ => rfl

end Report

/-! ### The run of a driver -/

namespace SqlDriver

open Report

variable {driver : SqlDriver} {document : Option (List Char)} {reports before after : List Report}
  {separators : List Nat} {separator : Nat} {t : NodeRegion}

/-- Where the last token begins, or the document before any. -/
def position (driver : SqlDriver) : Nat :=
  if isValid driver.lastCommentSeparator then driver.lastCommentSeparator.begin_ else 0

theorem pushSeparator_above (h : ∀ s ∈ separators, s < separator) :
    pushSeparator separators separator = separators ++ [separator] := by
  rw [pushSeparator, if_pos]
  rw [Option.all_eq_true]
  exact fun s hs => decide_eq_true (h s (List.mem_of_getLast? hs))

theorem pushSeparator_last (h : separators.getLast? = some separator) :
    pushSeparator separators separator = separators := by
  simp [pushSeparator, h]

/-- The last token is a separator now if it was none and a comment comes next. -/
def opening (driver : SqlDriver) (reports : List Report) : List Nat :=
  if !driver.sawComments && beginsWithComment reports
      && driver.commentSeparators.getLast? != some driver.position then [driver.position]
  else []

/-- The separators of a driver are below all that is still to come, and the last token is above
them or the last of them. -/
structure Settled (driver : SqlDriver) (reports : List Report) : Prop where
  sorted : reports.Pairwise fun a b => a.location.begin_ < b.location.begin_
  valid : ∀ report ∈ reports, isValid report.location
  position : ∀ report ∈ reports, driver.position ≤ report.location.begin_
  below : ∀ s ∈ driver.commentSeparators, ∀ report ∈ reports, s < report.location.begin_
  last : driver.commentSeparators.getLast? = some driver.position ∨
    ∀ s ∈ driver.commentSeparators, s < driver.position

theorem Settled.pushSeparator (h : Settled driver reports) :
    pushSeparator driver.commentSeparators driver.position =
      driver.commentSeparators ++
        if driver.commentSeparators.getLast? != some driver.position then [driver.position]
        else [] := by
  rcases h.last with hlast | hlast
  · rw [pushSeparator_last hlast, hlast]
    simp
  · rw [pushSeparator_above hlast, if_pos]
    rw [bne_iff_ne]
    intro h
    exact absurd (hlast _ (List.mem_of_getLast? h)) (lt_irrefl _)

theorem addComment_saw (h : driver.sawComments = true) :
    driver.addComment t = { driver with comments := driver.comments ++ [t] } := by
  simp [addComment, h]

theorem addComment_first (h : driver.sawComments = false) :
    driver.addComment t =
      { driver with
        comments := driver.comments ++ [t]
        commentSeparators := SqlDriver.pushSeparator driver.commentSeparators driver.position
        sawComments := true } := by
  simp [addComment, h, position]

theorem Settled.addComment (h : Settled driver (.comment t :: reports)) :
    Settled (driver.addComment t) reports := by
  obtain ⟨hhead, hrest⟩ := List.pairwise_cons.mp h.sorted
  have hposition : ∀ report ∈ reports, driver.position < report.location.begin_ :=
    fun report hr => (h.position _ List.mem_cons_self).trans_lt (hhead report hr)
  have hbelow : ∀ s ∈ driver.commentSeparators, ∀ report ∈ reports, s < report.location.begin_ :=
    fun s hs report hr => h.below s hs report (List.mem_cons_of_mem _ hr)
  have hvalid : ∀ report ∈ reports, isValid report.location :=
    fun report hr => h.valid report (List.mem_cons_of_mem _ hr)
  cases hsaw : driver.sawComments with
  | true =>
    rw [addComment_saw hsaw]
    exact ⟨hrest, hvalid, fun report hr => (hposition report hr).le, hbelow, h.last⟩
  | false =>
    rw [addComment_first hsaw, h.pushSeparator]
    refine ⟨hrest, hvalid, fun report hr => (hposition report hr).le, ?_, .inl ?_⟩
    · intro s hs report hr
      rcases List.mem_append.mp hs with hs | hs
      · exact hbelow s hs report hr
      · have : s = driver.position := by
          split at hs
          · exact List.mem_singleton.mp hs
          · cases hs
        rw [this]
        exact hposition report hr
    · show (driver.commentSeparators ++ _).getLast? = some driver.position
      split
      · exact List.getLast?_concat
      next hlast =>
        rw [List.append_nil]
        simpa using hlast

theorem addCommentSeparator_eq (h : Settled driver (.token t :: reports)) :
    driver.addCommentSeparator t =
      { driver with
        commentSeparators :=
          driver.commentSeparators ++ if driver.sawComments then [t.begin_] else []
        sawComments := false
        lastCommentSeparator := t } := by
  cases hsaw : driver.sawComments with
  | true =>
    have habove : ∀ s ∈ driver.commentSeparators, s < t.begin_ :=
      fun s hs => h.below s hs _ List.mem_cons_self
    simp [addCommentSeparator, hsaw, pushSeparator_above habove]
  | false => simp [addCommentSeparator, hsaw]

theorem Settled.addCommentSeparator (h : Settled driver (.token t :: reports)) :
    Settled (driver.addCommentSeparator t) reports := by
  obtain ⟨hhead, hrest⟩ := List.pairwise_cons.mp h.sorted
  have hvalid : isValid t := h.valid _ List.mem_cons_self
  have hposition : (driver.addCommentSeparator t).position = t.begin_ := by
    rw [addCommentSeparator_eq h, SqlDriver.position, if_pos hvalid]
  have hbelow : ∀ s ∈ driver.commentSeparators, s < t.begin_ :=
    fun s hs => h.below s hs _ List.mem_cons_self
  refine ⟨hrest, fun report hr => h.valid report (List.mem_cons_of_mem _ hr), ?_, ?_, ?_⟩
  · rw [hposition]
    exact fun report hr => (hhead report hr).le
  · rw [addCommentSeparator_eq h]
    intro s hs report hr
    rcases List.mem_append.mp hs with hs | hs
    · exact (hbelow s hs).trans (hhead report hr)
    · have : s = t.begin_ := by
        split at hs
        · exact List.mem_singleton.mp hs
        · cases hs
      rw [this]
      exact hhead report hr
  · rw [hposition, addCommentSeparator_eq h]
    cases hsaw : driver.sawComments with
    | true => exact .inl List.getLast?_concat
    | false =>
      right
      intro s hs
      rw [if_neg Bool.false_ne_true, List.append_nil] at hs
      exact hbelow s hs

theorem comments_foldl_report :
    (reports.foldl report driver).comments = driver.comments ++ Report.comments reports := by
  induction reports generalizing driver with
  | nil => exact (List.append_nil _).symm
  | cons r reports ih =>
    cases r with
    | comment location =>
      have hstep : (driver.addComment location).comments = driver.comments ++ [location] := by
        cases hsaw : driver.sawComments <;> simp [addComment, hsaw]
      rw [List.foldl_cons, report, ih, hstep, Report.comments, List.append_assoc]
      rfl
    | token location =>
      have hstep : (driver.addCommentSeparator location).comments = driver.comments := by
        cases hsaw : driver.sawComments <;> simp [addCommentSeparator, hsaw]
      rw [List.foldl_cons, report, ih, hstep, Report.comments]

theorem commentSeparators_foldl_report (h : Settled driver reports) :
    (reports.foldl report driver).commentSeparators =
      driver.commentSeparators ++ driver.opening reports ++
        Report.separators driver.sawComments reports := by
  induction reports generalizing driver with
  | nil => simp [opening, beginsWithComment, Report.separators]
  | cons r reports ih =>
    cases r with
    | comment location =>
      rw [List.foldl_cons, report, ih h.addComment, Report.separators]
      cases hsaw : driver.sawComments with
      | true => simp [addComment_saw hsaw, opening, hsaw]
      | false =>
        rw [addComment_first hsaw, h.pushSeparator]
        simp [opening, hsaw]
    | token location =>
      have hposition : (driver.addCommentSeparator location).position = location.begin_ := by
        rw [addCommentSeparator_eq h, position]
        exact if_pos (h.valid _ List.mem_cons_self)
      have hlast : driver.commentSeparators.getLast? ≠ some location.begin_ := by
        intro hlast
        exact absurd (h.below _ (List.mem_of_getLast? hlast) _ List.mem_cons_self) (lt_irrefl _)
      rw [List.foldl_cons, report, ih h.addCommentSeparator, opening, hposition,
        addCommentSeparator_eq h]
      cases hsaw : driver.sawComments with
      | true => simp [opening, Report.separators]
      | false =>
        cases hbegins : beginsWithComment reports <;>
          simp [opening, Report.separators, hbegins, hlast]

/-! ### What the queries find -/

variable {a b c : List NodeRegion} {low high : Nat} {earlier later : List Nat}

theorem commentsInRange_segment (h : driver.comments = a ++ (b ++ c)) (hle : low ≤ high)
    (ha : ∀ r ∈ a, r.begin_ < low) (hb : ∀ r ∈ b, low ≤ r.begin_ ∧ r.begin_ ≤ high)
    (hc : ∀ r ∈ c, high < r.begin_) : driver.commentsInRange low high = b := by
  have hlower : lowerBound NodeRegion.begin_ low driver.comments = a.length := by
    rw [h]
    exact lowerBound_between ha (fun r hr => (hb r hr).1) fun r hr => hle.trans (hc r hr).le
  have hupper : upperBound NodeRegion.begin_ high driver.comments = a.length + b.length := by
    rw [h]
    exact upperBound_between (fun r hr => ((ha r hr).trans_le hle).le) (fun r hr => (hb r hr).2) hc
  have hlength : driver.comments.length = a.length + (b.length + c.length) := by
    rw [h, List.length_append, List.length_append]
  simp only [commentsInRange, hlower, hupper, if_neg (not_lt.mpr hle)]
  by_cases hempty : b.length = 0
  · rw [List.length_eq_zero_iff.mp hempty]
    simp
  · rw [if_neg (by omega), if_neg (by omega), h, List.drop_left, Nat.add_sub_cancel_left,
      List.take_left]

theorem commentsInRange_above (h : ∀ r ∈ driver.comments, r.begin_ < low) :
    driver.commentsInRange low high = [] := by
  have hlower : lowerBound NodeRegion.begin_ low driver.comments = driver.comments.length := by
    have := lowerBound_append (b := []) h (fun r hr => by cases hr)
    rwa [List.append_nil] at this
  simp [commentsInRange, hlower]

theorem lowerBound_separator (h : driver.commentSeparators = earlier ++ t.begin_ :: later)
    (hearlier : ∀ s ∈ earlier, s < t.begin_) (hlater : ∀ s ∈ later, t.begin_ < s) :
    lowerBound id t.begin_ driver.commentSeparators = earlier.length := by
  rw [h]
  refine lowerBound_append hearlier fun s hs => ?_
  rcases List.mem_cons.mp hs with rfl | hs
  · exact le_refl _
  · exact (hlater s hs).le

theorem leadingComments_separator (hvalid : isValid t)
    (h : driver.commentSeparators = earlier ++ t.begin_ :: later)
    (hearlier : ∀ s ∈ earlier, s < t.begin_) (hlater : ∀ s ∈ later, t.begin_ < s) :
    driver.leadingComments t =
      match earlier.getLast? with
      | none => []
      | some previous => driver.commentsInRange previous t.begin_ := by
  have hindex := lowerBound_separator h hearlier hlater
  rw [leadingComments, hindex, h]
  simp [hvalid]

theorem followingComments_separator (hvalid : isValid t)
    (h : driver.commentSeparators = earlier ++ t.begin_ :: later)
    (hearlier : ∀ s ∈ earlier, s < t.begin_) (hlater : ∀ s ∈ later, t.begin_ < s) :
    driver.followingComments t =
      match later.head? with
      | none =>
        match driver.document with
        | none => []
        | some document => driver.commentsInRange t.begin_ document.length
      | some next => driver.commentsInRange t.begin_ next := by
  have hindex := lowerBound_separator h hearlier hlater
  have hnext : (earlier ++ t.begin_ :: later)[earlier.length + 1]? = later.head? := by
    rw [List.getElem?_append_right (by omega), Nat.add_sub_cancel_left, List.head?_eq_getElem?]
    rfl
  rw [followingComments, hindex, h]
  simp [hvalid, hnext]

/-- A token that is no separator has no comments. -/
theorem comments_not_separator (h : driver.commentSeparators = earlier ++ later)
    (hearlier : ∀ s ∈ earlier, s < t.begin_) (hlater : ∀ s ∈ later, t.begin_ < s) :
    driver.leadingComments t = [] ∧ driver.followingComments t = [] := by
  have hindex : lowerBound id t.begin_ driver.commentSeparators = earlier.length := by
    rw [h]
    exact lowerBound_append hearlier fun s hs => (hlater s hs).le
  have hnot : driver.commentSeparators[earlier.length]? ≠ some t.begin_ := by
    rw [h]
    intro heq
    have hmem : t.begin_ ∈ later := by
      rw [List.getElem?_append_right (le_refl _), Nat.sub_self] at heq
      exact List.mem_of_getElem? heq
    exact absurd (hlater _ hmem) (lt_irrefl _)
  constructor
  · rw [leadingComments, hindex]
    simp [hnot]
  · rw [followingComments, hindex]
    simp [hnot]

theorem settled_start (h : Increasing reports) : Settled { document } reports where
  sorted := h.sorted
  valid := h.valid
  position _ _ := Nat.zero_le _
  below s hs := by cases hs
  last := .inr fun s hs => by cases hs

/-- The separators before a token, and the start of the document where a comment comes first. -/
def separatorsBefore (before : List Report) : List Nat :=
  (if beginsWithComment before then [0] else []) ++ Report.separators false before

theorem commentSeparators_run (h : Increasing (before ++ token t :: after)) :
    (run document (before ++ token t :: after)).commentSeparators =
      separatorsBefore before ++
        if endsWithComment false before || beginsWithComment after then
          t.begin_ :: Report.separators false after
        else Report.separators false after := by
  rw [run, commentSeparators_foldl_report (settled_start h), separators_append, opening,
    beginsWithComment_append_token, separatorsBefore, Report.separators]
  cases beginsWithComment before <;> simp [position, isValid]

theorem comments_run :
    (run document reports).comments = Report.comments reports := comments_foldl_report

theorem separatorsBefore_lt (h : Increasing (before ++ token t :: after)) :
    ∀ s ∈ separatorsBefore before, s < t.begin_ := by
  have hlt : ∀ r ∈ before, r.location.begin_ < t.begin_ :=
    fun r hr => (List.pairwise_append.mp h.sorted).2.2 r hr _ List.mem_cons_self
  intro s hs
  rcases List.mem_append.mp hs with hs | hs
  · cases before with
    | nil => cases hs
    | cons r before =>
      have hzero : s = 0 := by
        split at hs
        · exact List.mem_singleton.mp hs
        · cases hs
      rw [hzero]
      exact (Nat.zero_le _).trans_lt (hlt r List.mem_cons_self)
  · obtain ⟨u, hu, rfl⟩ := mem_separators hs
    exact hlt _ hu

theorem separatorsAfter_lt (h : Increasing (before ++ token t :: after)) :
    ∀ s ∈ Report.separators false after, t.begin_ < s := by
  intro s hs
  obtain ⟨u, hu, rfl⟩ := mem_separators hs
  exact (List.pairwise_cons.mp (List.pairwise_append.mp h.sorted).2.1).1 _ hu

theorem comments_eq_before
    (hsorted : before.Pairwise fun a b => a.location.begin_ < b.location.begin_) :
    ∃ settled, Report.comments before = settled ++ commentsBefore before ∧
      (separatorsBefore before = [] → commentsBefore before = []) ∧
      ∀ previous, (separatorsBefore before).getLast? = some previous →
        (∀ r ∈ settled, r.begin_ < previous) ∧
          ∀ r ∈ commentsBefore before, previous ≤ r.begin_ := by
  obtain ⟨settled, hcomments, hnone, hsome⟩ :=
    @comments_eq_settled false before [] hsorted (fun r hr => by cases hr) (fun h => absurd rfl h)
  rw [List.nil_append] at hcomments
  refine ⟨settled, hcomments, ?_, ?_⟩
  · intro hempty
    obtain ⟨hopening, hseparators⟩ := List.append_eq_nil_iff.mp hempty
    have hbegins : beginsWithComment before = false := by
      by_contra h
      rw [if_pos (by simpa using h)] at hopening
      cases hopening
    have hall := comments_eq_nil hseparators hbegins
    rw [hcomments] at hall
    exact (List.append_eq_nil_iff.mp hall).2
  · intro previous hprevious
    cases hseparators : Report.separators false before with
    | nil =>
      -- the only separator is the start of the document
      have hzero : previous = 0 := by
        rw [separatorsBefore, hseparators, List.append_nil] at hprevious
        split at hprevious
        · exact (Option.some.inj hprevious).symm
        · cases hprevious
      rw [hzero, hnone hseparators]
      exact ⟨fun r hr => (by cases hr), fun r hr => Nat.zero_le _⟩
    | cons first others =>
      refine hsome previous ?_
      rw [separatorsBefore, hseparators, List.getLast?_append, List.getLast?_cons,
        Option.some_or] at hprevious
      rwa [hseparators, List.getLast?_cons]

theorem leadingComments_run (h : Increasing (before ++ token t :: after)) :
    (run document (before ++ token t :: after)).leadingComments t = commentsBefore before := by
  have hvalid : isValid t := h.valid _ (List.mem_append_right _ List.mem_cons_self)
  have hbelow := separatorsBefore_lt h
  have habove := separatorsAfter_lt h
  have hseparators := @commentSeparators_run document before after t h
  obtain ⟨hbefore, hafter, hcross⟩ := List.pairwise_append.mp h.sorted
  by_cases hc : endsWithComment false before || beginsWithComment after
  · rw [if_pos hc] at hseparators
    rw [leadingComments_separator hvalid hseparators hbelow habove]
    obtain ⟨settled, hcomments, hnone, hsome⟩ := comments_eq_before hbefore
    cases hlast : (separatorsBefore before).getLast? with
    | none => exact (hnone (List.getLast?_eq_none_iff.mp hlast)).symm
    | some previous =>
      have hall : (run document (before ++ token t :: after)).comments =
          settled ++ (commentsBefore before ++ Report.comments after) := by
        rw [comments_run, comments_append, hcomments, List.append_assoc]
        rfl
      have hle : previous ≤ t.begin_ := (hbelow _ (List.mem_of_getLast? hlast)).le
      refine commentsInRange_segment hall hle (hsome previous hlast).1 (fun r hr => ?_)
        fun r hr => (List.pairwise_cons.mp hafter).1 _ (mem_comments hr)
      have hmem : r ∈ Report.comments before := by
        rw [hcomments]
        exact List.mem_append_right _ hr
      exact ⟨(hsome previous hlast).2 r hr,
        (hcross _ (mem_comments hmem) _ List.mem_cons_self).le⟩
  · rw [if_neg hc] at hseparators
    simp only [Bool.or_eq_true, not_or, Bool.not_eq_true] at hc
    have hnil : commentsBefore before = [] := commentsSince_eq_nil hc.1 fun _ => rfl
    rw [(comments_not_separator hseparators hbelow habove).1, hnil]

theorem followingComments_run (h : Increasing (before ++ token t :: after))
    (hclosed : commentsAfter after ≠ [] → tokens after ≠ []) :
    (run document (before ++ token t :: after)).followingComments t = commentsAfter after := by
  have hvalid : isValid t := h.valid _ (List.mem_append_right _ List.mem_cons_self)
  have hbelow := separatorsBefore_lt h
  have habove := separatorsAfter_lt h
  have hseparators := @commentSeparators_run document before after t h
  obtain ⟨hbefore, hafter, hcross⟩ := List.pairwise_append.mp h.sorted
  obtain ⟨hhead, hrest⟩ := List.pairwise_cons.mp hafter
  have hcomments : ∀ r ∈ Report.comments before, r.begin_ < t.begin_ :=
    fun r hr => hcross _ (mem_comments hr) _ List.mem_cons_self
  by_cases hc : endsWithComment false before || beginsWithComment after
  · rw [if_pos hc] at hseparators
    rw [followingComments_separator hvalid hseparators hbelow habove]
    obtain ⟨later, hlater, hnone, hsome⟩ := @comments_eq_later false after hrest
    have hall : (run document (before ++ token t :: after)).comments =
        Report.comments before ++ (commentsAfter after ++ later) := by
      rw [comments_run, comments_append, ← hlater]
      rfl
    cases hfirst : (Report.separators false after).head? with
    | none =>
      have hempty := List.head?_eq_none_iff.mp hfirst
      have hnil : commentsAfter after = [] := by
        by_contra hne
        cases after with
        | nil => exact hne rfl
        | cons report reports =>
          cases report with
          | comment location => exact separators_ne_nil (hclosed hne) hempty
          | token location => exact hne rfl
      rw [hnil, hnone hempty, List.append_nil, List.append_nil] at hall
      rw [hnil]
      cases (run document (before ++ token t :: after)).document with
      | none => rfl
      | some document =>
        exact commentsInRange_above (by rw [hall]; exact hcomments)
    | some next =>
      have hle : t.begin_ ≤ next := (habove _ (List.mem_of_head? hfirst)).le
      refine commentsInRange_segment hall hle hcomments (fun r hr => ?_) (hsome next hfirst).2
      have hmem : r ∈ Report.comments after := by
        rw [hlater]
        exact List.mem_append_left _ hr
      exact ⟨(hhead _ (mem_comments hmem)).le, ((hsome next hfirst).1 r hr).le⟩
  · rw [if_neg hc] at hseparators
    simp only [Bool.or_eq_true, not_or, Bool.not_eq_true] at hc
    rw [(comments_not_separator hseparators hbelow habove).2, commentsAfter_eq_nil hc.2]

/-- Tokens with the comments before each of them make up a document. -/
theorem comments_eq_flatMap_leading {leading : NodeRegion → List NodeRegion}
    (h : ∀ before t after, reports = before ++ token t :: after →
      leading t = commentsBefore before) :
    Report.comments reports = (tokens reports).flatMap leading ++ commentsBefore reports := by
  suffices ∀ since, (∀ before t after, reports = before ++ token t :: after →
      leading t = commentsSince since before) →
      since ++ Report.comments reports =
        (tokens reports).flatMap leading ++ commentsSince since reports from this [] h
  clear h
  induction reports with
  | nil => exact fun since _ => List.append_nil _
  | cons report reports ih =>
    intro since h
    cases report with
    | comment location =>
      have hrest := ih (since ++ [location]) fun before t after hsplit =>
        h (comment location :: before) t after (congrArg (comment location :: ·) hsplit)
      rwa [← List.append_cons] at hrest
    | token location =>
      have hrest := ih [] fun before t after hsplit =>
        h (token location :: before) t after (congrArg (token location :: ·) hsplit)
      have hfirst : leading location = since := h [] location reports rfl
      rw [tokens, List.flatMap_cons, hfirst, List.append_assoc, Report.comments]
      exact congrArg (since ++ ·) hrest

/-- Tokens with the comments after each of them make up a document, but for its first comments. -/
theorem comments_eq_flatMap_following {following : NodeRegion → List NodeRegion}
    (h : ∀ before t after, reports = before ++ token t :: after →
      following t = commentsAfter after) :
    Report.comments reports = commentsAfter reports ++ (tokens reports).flatMap following := by
  induction reports with
  | nil => rfl
  | cons report reports ih =>
    have hrest := ih fun before t after hsplit =>
      h (report :: before) t after (congrArg (report :: ·) hsplit)
    cases report with
    | comment location => exact congrArg (location :: ·) hrest
    | token location =>
      have hfirst : following location = commentsAfter reports := h [] location reports rfl
      rw [tokens, List.flatMap_cons, hfirst]
      exact hrest

/-- Of a whole document, the comments that lead a token are those since the token before it, the
comments that follow it those up to the token after it, and so each comment leads one token and
follows one. -/
theorem comments_attributed (document : Option (List Char)) (reports : List Report)
    (eof : NodeRegion) (h : Increasing (reports ++ [token eof])) :
    let driver := run document (reports ++ [token eof])
    (∀ before t after, reports ++ [token eof] = before ++ token t :: after →
      driver.leadingComments t = commentsBefore before ∧
        driver.followingComments t = commentsAfter after) ∧
      (tokens (reports ++ [token eof])).flatMap driver.leadingComments = Report.comments reports ∧
      commentsAfter (reports ++ [token eof]) ++
          (tokens (reports ++ [token eof])).flatMap driver.followingComments =
        Report.comments reports := by
  intro driver
  have hboth : ∀ before t after, reports ++ [token eof] = before ++ token t :: after →
      driver.leadingComments t = commentsBefore before ∧
        driver.followingComments t = commentsAfter after := by
    intro before t after hsplit
    have hincreasing := hsplit ▸ h
    have hclosed : commentsAfter after ≠ [] → tokens after ≠ [] := by
      intro hne hnil
      rcases List.eq_nil_or_concat after with rfl | ⟨others, last, rfl⟩
      · exact hne rfl
      · have hlast : token eof = last := by
          rw [List.concat_eq_append, ← List.cons_append, ← List.append_assoc] at hsplit
          exact List.singleton_inj.mp (List.append_inj' hsplit rfl).2
        have hmem := @mem_tokens (others.concat last) eof (by simp [hlast])
        rw [hnil] at hmem
        cases hmem
    show (run document (reports ++ [token eof])).leadingComments t = _ ∧
      (run document (reports ++ [token eof])).followingComments t = _
    rw [hsplit]
    exact ⟨leadingComments_run hincreasing, followingComments_run hincreasing hclosed⟩
  have hall : Report.comments (reports ++ [token eof]) = Report.comments reports := by
    rw [comments_append]
    exact List.append_nil _
  refine ⟨hboth, ?_, ?_⟩
  · have hsince : commentsBefore (reports ++ [token eof]) = [] := commentsSince_append_token
    have hleading := comments_eq_flatMap_leading fun before t after hsplit =>
      (hboth before t after hsplit).1
    rw [hsince, List.append_nil, hall] at hleading
    exact hleading.symm
  · rw [← hall]
    exact (comments_eq_flatMap_following fun before t after hsplit =>
      (hboth before t after hsplit).2).symm

/-- In `/*a*/ x --b` the first comment leads the token and the last one follows it. -/
theorem comments_attributed_around :
    let driver := run (some "/*a*/ x --b".toList)
      [.comment ⟨0, 5⟩, .token ⟨6, 7⟩, .comment ⟨8, 11⟩, .token ⟨11, 11⟩]
    driver.leadingComments ⟨6, 7⟩ = [⟨0, 5⟩] ∧ driver.followingComments ⟨6, 7⟩ = [⟨8, 11⟩] :=
  (comments_attributed (some "/*a*/ x --b".toList)
    [.comment ⟨0, 5⟩, .token ⟨6, 7⟩, .comment ⟨8, 11⟩] ⟨11, 11⟩
    ⟨by simp [Report.location], by simp [Report.location, isValid, npos]⟩).1
    [.comment ⟨0, 5⟩] ⟨6, 7⟩ [.comment ⟨8, 11⟩, .token ⟨11, 11⟩] rfl

end SqlDriver

end Mizugaki.Parser
