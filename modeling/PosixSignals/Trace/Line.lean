import PosixSignals.Text.Field
import PosixSignals.Trace.Level

/-!
# Trace lines

A line has a level, a message and the chain of spans it was written in,
outermost first. Rendering shows the spans within the threshold, each
with its fields if it has any.
-/

namespace PosixSignals.Trace

/-- The value of a span's field. -/
inductive FieldValue where
  | int (n : Int)
  | bool (b : Bool)
  | char (c : Char)
  | text (s : String)
  | list (items : List FieldValue)

def boolText (b : Bool) : String := if b then "true" else "false"

mutual

def FieldValue.render : FieldValue → String
  | .int n => toString n
  | .bool b => boolText b
  | .char c => .singleton c
  | .text s => s
  | .list items => "[" ++ ", ".intercalate (renderAll items) ++ "]"

def renderAll : List FieldValue → List String
  | [] => []
  | v :: vs => v.render :: renderAll vs

end

/-- The fields of a span as one text: `key=value` with blanks between. -/
def fieldText (fields : List (String × FieldValue)) : String :=
  " ".intercalate (fields.map fun (key, value) => key ++ "=" ++ value.render)

/-- A named stretch of execution. -/
structure Span where
  level : Level
  name : String
  /-- Its fields as text; no fields at all differ from an empty list of them. -/
  fields : Option String := none
deriving DecidableEq

/-- One line of the trace. -/
structure Line where
  level : Level
  /-- The spans it was written in, outermost first. -/
  spans : List Span
  message : String
deriving DecidableEq

/-! ## Rendering -/

def escape (code : String) : String := "\x1b[" ++ code ++ "m"

/-- The colour a level is shown in. -/
def Level.colour : Level → String
  | .error => escape "31"
  | .warn => escape "93"
  | .info => escape "34"
  | .debug => escape "32"
  | .trace => escape "90"

/-- The level in brackets, right-aligned and coloured. -/
def Level.tag (l : Level) : String :=
  let field : Text.Field := { width := 5, align := .right }
  l.colour ++ "[" ++ field.write l.name ++ "]" ++ escape "0"

def Span.render (s : Span) : String :=
  "-" ++ escape "1" ++ escape "37" ++ s.name ++ escape "0" ++
    match s.fields with
    | none => ""
    | some text => "\x7b" ++ text ++ "\x7d"

/-- The spans of a line that the threshold lets through. -/
def Line.shownSpans (l : Line) (t : Threshold) : List Span := l.spans.filter (·.level.shown t)

/-- The line as it is written, without its line break. -/
def Line.render (l : Line) (t : Threshold) : String :=
  let spans := l.shownSpans t
  l.level.tag ++ String.join (spans.map Span.render) ++ (if spans.isEmpty then " " else ": ") ++
    l.message

/-- The lines within the threshold, each ended by a line break. -/
def render (t : Threshold) (lines : List Line) : String :=
  String.join ((lines.filter (·.level.shown t)).map fun l => l.render t ++ "\n")

end PosixSignals.Trace
