import SeqAlign.Text.Token

/-!
# SeqAlign.Text.Report

Reports about malformed text.

* `Complaint`: what is wrong, with its name and its wording.
* `Report`: a complaint about a token, with remarks that explain it.
* `Diagnostics`: reports in the order in which they were filed.
-/

namespace SeqAlign.Text

inductive Complaint where
  | strayByte
  | expectedItem
  | expectedInteger
  | expectedCloseBrace
  | expectedCloseBracket
  | invertedBounds
  | boundOverflow
  | unexpectedToken
deriving DecidableEq

namespace Complaint

/-- All complaints, in the order in which they are numbered. -/
def all : List Complaint :=
  [.strayByte, .expectedItem, .expectedInteger, .expectedCloseBrace, .expectedCloseBracket,
    .invertedBounds, .boundOverflow, .unexpectedToken]

def code : Complaint → String
  | .strayByte => "lexer_error"
  | .expectedItem => "expected_item"
  | .expectedInteger => "expected_integer"
  | .expectedCloseBrace => "expected_close_brace"
  | .expectedCloseBracket => "expected_close_bracket"
  | .invertedBounds => "inverted_bounds"
  | .boundOverflow => "bound_overflow"
  | .unexpectedToken => "unexpected_token"

def message : Complaint → String
  | .strayByte => "is not part of the sequence notation"
  | .expectedItem => "expected an item identifier"
  | .expectedInteger => "expected integer"
  | .expectedCloseBrace => "expected '\x7d' to close the quantifier"
  | .expectedCloseBracket => "expected ']' to close the sequence"
  | .invertedBounds => "quantifier minimum exceeds its maximum"
  | .boundOverflow => "quantifier bound is too large"
  | .unexpectedToken => "grammar at this point is not recognized"

end Complaint

structure Report where
  complaint : Complaint
  subject : Token
  remarks : List String
deriving DecidableEq

namespace Report

def about (complaint : Complaint) (subject : Token) : Report := ⟨complaint, subject, []⟩

/-- Says what should have stood there. -/
def expecting (r : Report) (what : String) : Report :=
  { r with remarks := r.remarks ++ ["expected " ++ what] }

/-- Points to another token. -/
def seeing (r : Report) (t : Token) : Report :=
  { r with remarks := r.remarks ++ ["see '" ++ t.lexeme ++ "' at " ++ t.location.render] }

def subjectText (r : Report) : String :=
  if r.subject.kind = .endOfInput then TokenKind.endOfInput.name
  else "'" ++ r.subject.lexeme ++ "'"

/-- The complaint and its remarks, each on a line that begins with the location. -/
def render (r : Report) : String :=
  let location := r.subject.location.render
  location ++ ": error: " ++ r.subjectText ++ " " ++ r.complaint.message ++ "\n" ++
    String.join (r.remarks.map fun remark => location ++ ": " ++ remark ++ "\n")

end Report

structure Diagnostics where
  /-- The reports, the last one first. -/
  filed : List Report
deriving DecidableEq

/-- A report was asked for that has not been filed. -/
structure NoSuchReport where
  index : Nat

def NoSuchReport.message (_ : NoSuchReport) : String := "report index out of range"

namespace Diagnostics

def empty : Diagnostics := ⟨[]⟩

/-- The reports in the order in which they were filed. -/
def reports (d : Diagnostics) : List Report := d.filed.reverse

def file (d : Diagnostics) (r : Report) : Diagnostics := ⟨r :: d.filed⟩

def count (d : Diagnostics) : Nat := d.filed.length

def report (d : Diagnostics) (index : Nat) : Except NoSuchReport Report :=
  match d.reports[index]? with
  | some r => .ok r
  | none => .error ⟨index⟩

/-- All reports, one after the other. -/
def render (d : Diagnostics) : String := String.join (d.reports.map Report.render)

theorem reports_file (d : Diagnostics) (r : Report) : (d.file r).reports = d.reports ++ [r] := by
  simp [reports, file]

theorem count_eq_length_reports (d : Diagnostics) : d.count = d.reports.length := by
  simp [count, reports]

end Diagnostics

end SeqAlign.Text
