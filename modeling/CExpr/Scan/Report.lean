/-!
# Reports

Faults of a source do not stop a scan. Each one is reported with its line, and a log keeps the
reports of any number of scans in the order of their arrival.
-/

namespace CExpr

structure Report where
  line : Nat
  message : String
  deriving DecidableEq, Repr

/-- Reports in the order of their arrival. -/
structure ReportLog where
  reports : List Report
  deriving DecidableEq, Repr

namespace ReportLog

def empty : ReportLog := ⟨[]⟩

def isEmpty (log : ReportLog) : Bool := log.reports.isEmpty

def add (log : ReportLog) (report : Report) : ReportLog := ⟨log.reports ++ [report]⟩

def addAll (log : ReportLog) (reports : List Report) : ReportLog := reports.foldl add log

/-- The reports so far, and the log without them. -/
def drain (log : ReportLog) : List Report × ReportLog := (log.reports, empty)

@[simp] theorem reports_empty : empty.reports = [] := rfl

@[simp] theorem reports_add (log : ReportLog) (report : Report) :
    (log.add report).reports = log.reports ++ [report] := rfl

@[simp] theorem reports_addAll (log : ReportLog) (reports : List Report) :
    (log.addAll reports).reports = log.reports ++ reports := by
  induction reports generalizing log with
  | nil => simp [addAll]
  | cons report reports ih =>
    have h := ih (log.add report)
    simp only [addAll, List.foldl_cons] at h ⊢
    rw [h, reports_add, List.append_assoc, List.singleton_append]

end ReportLog

end CExpr
