/-!
# Text in fields of a width

A text is first cut to the precision, then filled up to the width.
Lengths count characters.
-/

namespace PosixSignals.Text

/-- Where a text stands in its field. -/
inductive Align where
  | left
  | right
  /-- In the middle, with the odd filler on the right. -/
  | center
deriving DecidableEq

/-- The shape of a field. -/
structure Field where
  width : Nat := 0
  align : Align := .left
  fill : Char := ' '
  precision : Option Nat := none

/-- Writes a text into the field. -/
def Field.write (f : Field) (s : String) : String :=
  let cut := match f.precision with
    | some n => s.toList.take n
    | none => s.toList
  let gap := f.width - cut.length
  let before := match f.align with
    | .left => 0
    | .right => gap
    | .center => gap / 2
  .ofList (List.replicate before f.fill ++ cut ++ List.replicate (gap - before) f.fill)

end PosixSignals.Text
