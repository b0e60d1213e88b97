import GaussianProgram.Error.Message
import GaussianProgram.Solver.Event

/-! Texts of reports: the table of iterations, the settings, the result, and single messages. Times
are not part of a run; they are given with the text that shows them. -/
namespace GaussianProgram

/-- Weight of a report. -/
inductive Severity where
  | debug
  | warning
  | error
  deriving DecidableEq, Repr

def Severity.text : Severity → String
  | debug => "DEBUG"
  | warning => "WARN"
  | error => "ERROR"

/-- Cells of the table of iterations side by side, each at the right end of its column. -/
def tableRow (cells : List String) : String :=
  "  ".intercalate (List.zipWith padLeft [4, 13, 13, 8, 6, 18, 11, 13] cells)

namespace Progress
variable {α : Type} [DecimalText α]

def header : String :=
  tableRow ["iter", "cost", "cost_change", "alpha", "|W|", "action", "iter_time", "total_time"]

/-- The step fraction to four places, a dash where the point has not moved. -/
def fractionText (p : Progress α) : String :=
  (p.fraction.map (DecimalText.fixed 4)).getD "-"

def line (p : Progress α) (iterationMs totalMs : α) : String :=
  tableRow [
    toString p.iteration,
    DecimalText.scientific 6 p.cost,
    DecimalText.scientific 2 p.costChange,
    p.fractionText,
    toString p.workingSetSize,
    p.action,
    DecimalText.fixed 2 iterationMs ++ "ms",
    DecimalText.fixed 2 totalMs ++ "ms"]

end Progress

def Config.text {α : Type} [DecimalText α] (c : Config α) : String :=
  "\n".intercalate [
    "",
    "Configuration:",
    "  Solver:        Active-set QP",
    "  Linear solver: " ++ c.linearSolver.text,
    "  Max iterations:        " ++ toString c.maxIterations,
    "  Solution tolerance:    " ++ DecimalText.scientific 2 c.solutionTolerance,
    "  Feasibility tolerance: " ++ DecimalText.scientific 2 c.feasibilityTolerance,
    "  Dual tolerance:        " ++ DecimalText.scientific 2 c.dualTolerance,
    "  Rank tolerance:        " ++ DecimalText.scientific 2 c.rankTolerance,
    "  Initial feasibility:   " ++ (if c.checkInitialFeasibility then "checked" else "unchecked"),
    "  Cycling detection:     " ++ (if c.detectCycling then "enabled" else "disabled")]

def Optimum.text {κ α : Type} [Key κ] [Sub α] [DecimalText α] (r : Optimum κ α) (elapsedMs : α) :
    String :=
  "\n".intercalate [
    "Active-Set QP Final Result",
    r.status.text,
    "",
    "Cost:",
    "  Initial:   " ++ DecimalText.scientific 6 r.initialCost,
    "  Final:     " ++ DecimalText.scientific 6 r.finalCost,
    "  Reduction: " ++ DecimalText.scientific 6 (r.initialCost - r.finalCost),
    "",
    "Iterations:    " ++ toString r.iterations,
    "Active rows:   " ++ r.workingSet.text,
    "Total time:    " ++ DecimalText.fixed 2 elapsedMs ++ "ms",
    ""]

namespace Report
variable {κ α : Type} [Key κ]

def severity : Report κ α → Severity
  | failure _ => .error
  | outsideKeys _ => .warning
  | _ => .debug

/-- The message, where an iteration took `iterationMs` and `totalMs` have passed since the start. -/
def text [Sub α] [DecimalText α] (iterationMs totalMs : α) : Report κ α → String
  | failure e => e.message
  | outsideKeys count => s!"Ignoring {count} initial values for keys outside the graph"
  | configuration config => config.text
  | tableHeader => Progress.header
  | progress line => line.line iterationMs totalMs
  | blocked row fraction =>
    s!"Step blocked by {row.text} at alpha = " ++ DecimalText.fixed 6 fraction
  | dropped row => s!"Dropping {row.text} from the working set"
  | dualGraph factors constraints =>
    s!"Dual graph: {factors} factors over {constraints} constraint factors"
  | optimum result => result.text totalMs

end Report

end GaussianProgram
