import BlockDocument.Issue

/-!
# Reports

The result of an inspection is the list of its issues. Whether the document is valid follows from
them, so two reports are merged by putting their issues together.
-/

namespace BlockDocument

/-- What an inspection found. -/
structure Report where
  issues : List Issue

namespace Report

/-- Whether no issue is an error. -/
def valid (r : Report) : Bool := !r.issues.any Issue.isError

/-- The errors. -/
def errors (r : Report) : List Issue := r.issues.filter Issue.isError

/-- The number of issues of a severity. -/
def count (r : Report) (severity : Severity) : Nat := r.issues.countP (·.severity == severity)

/-- Whether an issue has a code. -/
def hasCode (r : Report) (code : String) : Bool := r.issues.any (·.finding.code == code)

/-- The issues of two reports. -/
def merge (a b : Report) : Report := ⟨a.issues ++ b.issues⟩

end Report

end BlockDocument
