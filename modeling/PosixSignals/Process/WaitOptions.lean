/-!
# Options of a wait

What a parent may ask of a wait for its children. Only `noHang` is
supported; the other two are recognised and refused.
-/

namespace PosixSignals

/-- The options of a wait. -/
structure WaitOptions where
  /-- Return at once when no child is ready. -/
  noHang : Bool := false
  /-- Also report stopped children. -/
  untraced : Bool := false
  /-- Also report continued children. -/
  continued : Bool := false
deriving DecidableEq

namespace WaitOptions

def noHangBit : BitVec 32 := 1#32
def untracedBit : BitVec 32 := 2#32
def continuedBit : BitVec 32 := 8#32

/-- The options of a word, unless it has a bit that is none of them. -/
def ofWord? (w : BitVec 32) : Option WaitOptions :=
  if w &&& ~~~(noHangBit ||| untracedBit ||| continuedBit) = 0 then
    some ⟨w &&& noHangBit != 0, w &&& untracedBit != 0, w &&& continuedBit != 0⟩
  else none

/-- Whether an option is asked for that no wait supports. -/
def unsupported (o : WaitOptions) : Bool := o.untraced || o.continued

def names (o : WaitOptions) : List String :=
  (if o.noHang then ["WNOHANG"] else []) ++ (if o.untraced then ["WUNTRACED"] else []) ++
    (if o.continued then ["WCONTINUED"] else [])

end WaitOptions

end PosixSignals
