import PosixSignals.Text.Blank

/-!
# Trace levels

Five levels from `error` to `trace`, and the threshold a console shows
lines up to. Levels and thresholds are compared by rank, `off` being the
threshold below every level.
-/

namespace PosixSignals.Trace

/-- How grave a line or a span is; a higher rank is chattier. -/
inductive Level where
  | error
  | warn
  | info
  | debug
  | trace
deriving DecidableEq

/-- The chattiest level shown, or none at all. -/
abbrev Threshold := Option Level

namespace Level

def all : List Level := [error, warn, info, debug, trace]

def rank : Level → Nat
  | error => 1
  | warn => 2
  | info => 3
  | debug => 4
  | trace => 5

def name : Level → String
  | error => "ERROR"
  | warn => "WARN"
  | info => "INFO"
  | debug => "DEBUG"
  | trace => "TRACE"

end Level

namespace Threshold

def rank : Threshold → Nat
  | none => 0
  | some l => l.rank

def name : Threshold → String
  | none => "OFF"
  | some l => l.name

/-- Reads a level's name, blanks around it and the case of ASCII letters
aside; any other text is `off`. -/
def parse (s : String) : Threshold :=
  let word := (Text.trimBlank s).map Char.toUpper
  Level.all.find? (·.name = word)

/-- The threshold of a setting that may be absent. -/
def ofSetting (s : Option String) : Threshold := s.bind parse

end Threshold

/-- Whether a line or span of this level is shown. -/
def Level.shown (l : Level) (t : Threshold) : Bool := l.rank ≤ t.rank

end PosixSignals.Trace
