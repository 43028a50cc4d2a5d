import PosixSignals.Signal.Info
import PosixSignals.Disposition.Basic

/-!
# Inboxes

The signal state of a process: the mask of blocked signals, the set of
pending ones, and for each pending signal the information of the
occurrence that made it pending. A signal is pending at most once; later
occurrences merge into the first, whose information is the one kept. An
inbox decides where an occurrence goes but runs nothing: handlers and
default actions are for the process that owns it.
-/

namespace PosixSignals

/-- How a set changes the mask. -/
inductive MaskChange where
  /-- Adds the set. -/
  | block
  /-- Takes the set out. -/
  | unblock
  /-- Puts the set in the mask's place. -/
  | setMask
deriving DecidableEq

namespace MaskChange

def ofNumber? : Nat → Option MaskChange
  | 0 => some block
  | 1 => some unblock
  | 2 => some setMask
  | _ => none

def name : MaskChange → String
  | block => "Block"
  | unblock => "Unblock"
  | setMask => "SetMask"

/-- The mask afterwards, before `kill` and `stop` are taken out of it. -/
def apply : MaskChange → SignalSet → SignalSet → SignalSet
  | block, mask, set => mask ∪ set
  | unblock, mask, set => mask \ set
  | setMask, _, set => set

end MaskChange

/-- Where a generated signal went. -/
inductive Generated where
  /-- Dropped; a pending occurrence stays as it was. -/
  | discarded
  /-- Blocked, hence pending until it is unblocked. -/
  | queued
  /-- Pending, for the handler to run at the next check point. -/
  | handlerReady
  /-- The default action is to be carried out at once. -/
  | defaultAction (action : DefaultAction)
deriving DecidableEq

/-- The mask and the pending signals of one process. -/
structure Inbox where
  blocked : SignalSet := ∅
  pending : SignalSet := ∅
  infos : Vector (Option SignalInfo) 31 := .replicate 31 none
deriving DecidableEq

namespace Inbox

/-- No signal blocked or pending. -/
def empty : Inbox := {}

/-- What a forked child starts with: the mask, and nothing pending. -/
def fork (box : Inbox) : Inbox := { blocked := box.blocked }

/-- The information recorded for a signal. -/
def info? (box : Inbox) (sig : Signal) : Option SignalInfo :=
  getElem box.infos sig.index.val sig.index_lt

/-- Makes a signal pending, unless it already is. -/
def push (box : Inbox) (info : SignalInfo) : Inbox :=
  if info.signal ∈ box.pending then box
  else { box with
    pending := box.pending ∪ .single info.signal
    infos := box.infos.set info.signal.index (some info) info.signal.index_lt }

/-- **Where an occurrence goes.** `kill` and `stop` act at once. Otherwise an
ignored signal is dropped, a blocked one pends, a default action that does
anything is carried out, and a handler makes the signal pend. -/
def receive {H : Type} (box : Inbox) (info : SignalInfo) (d : Disposition H) :
    Generated × Inbox :=
  if info.signal.isUncatchable then (.defaultAction info.signal.defaultAction, box)
  else match d with
    | .ignore => (.discarded, box)
    | .default =>
      if info.signal ∈ box.blocked then (.queued, box.push info)
      else if info.signal.defaultAction.isIdle then (.discarded, box)
      else (.defaultAction info.signal.defaultAction, box)
    | .handler _ =>
      if info.signal ∈ box.blocked then (.queued, box.push info)
      else (.handlerReady, box.push info)

/-! ## Taking signals out -/

/-- The pending signals that are not blocked. -/
def deliverable (box : Inbox) : SignalSet := box.pending \ box.blocked

def hasDeliverable (box : Inbox) : Bool := !box.deliverable.isEmpty

/-- Takes a signal out, with the information recorded for it. -/
def take (box : Inbox) (sig : Signal) : SignalInfo × Inbox :=
  ((box.info? sig).getD (.kernel sig),
    { box with
      pending := box.pending.erase sig
      infos := box.infos.set sig.index none sig.index_lt })

/-- Takes the lowest signal of `set` out, if it has one. -/
def takeFirst (box : Inbox) (set : SignalSet) : Option SignalInfo × Inbox :=
  match set.first? with
  | none => (none, box)
  | some sig => let (info, box') := box.take sig; (some info, box')

/-- Takes out the lowest pending signal that is not blocked. -/
def takeDeliverable (box : Inbox) : Option SignalInfo × Inbox := box.takeFirst box.deliverable

/-- Takes out the lowest pending signal of `set`, blocked or not. -/
def takePendingIn (box : Inbox) (set : SignalSet) : Option SignalInfo × Inbox :=
  box.takeFirst (box.pending ∩ set)

/-! ## The mask -/

/-- The inbox with a new mask, less `kill` and `stop`. -/
def withMask (box : Inbox) (mask : SignalSet) : Inbox :=
  { box with blocked := mask \ .uncatchable }

/-- Changes the mask by a set. -/
def changeMask (box : Inbox) (how : MaskChange) (set : SignalSet) : Inbox :=
  box.withMask (how.apply box.blocked set)

/-- The pending signals a process may see: those that are blocked. -/
def visiblePending (box : Inbox) : SignalSet := box.pending ∩ box.blocked

end Inbox

end PosixSignals
