import PosixSignals.Process.Generation

/-!
# Delivery

A check point delivers the pending signals that are not blocked, lowest
first, until none is left. A handler runs as a frame of the task: the
mask is widened when it is entered, and the frame that waits for it holds
the mask to put back, however the handler is left.
-/

namespace PosixSignals

namespace Process

/-- Runs a handler: widens the mask, counts the run, and starts the body. -/
def deliver (sig : Signal) (action : Action Installed) (p : Process) : Process × List Event :=
  let saved := p.inbox.blocked
  let p := { p with inbox := p.inbox.changeMask .block (action.blockedDuring sig) }
  let (count, p) := p.countRun action.handler.id
  let handler := action.handler.handler
  let run : HandlerRun := ⟨sig, handler.tag, count⟩
  ((p.enter (.delivery sig action saved) .proceed).enter
      (.body run false (handler.bodyOf count)) .proceed,
    [.entered run p.inbox.blocked p.inbox.pending])

/-- The handler has returned to its delivery: the mask is put back, and a
one-shot disposition goes back to default if the handler succeeded. -/
def finishDelivery (sig : Signal) (action : Action Installed) (saved : SignalSet) (r : Reply)
    (p : Process) : Process :=
  let p := p.restore saved
  match r with
  | .error e => p.answer (.error e)
  | .ok _ =>
    let p := if action.flags.resetHand then
        { p with dispositions := p.dispositions.reset sig }
      else p
    p.answer (.ok .done)

/-- One turn of a check point. A process that has ended is told to exit, a
stopped one blocks until it is continued or killed; otherwise the lowest
deliverable signal is taken and delivered by the disposition it has now. -/
def check (pid : Pid) (delivered : Bool) (p : Process) : Process × List Event :=
  if p.status.isExited then (p.answer (.error .mustExit), [])
  else if p.status.isStopped then
    (p.goto (.blocked (.check delivered) (p.listen .signal none)), [.awaitsContinue])
  else match p.inbox.takeDeliverable with
    | (none, _) => (p.answer (.ok (.delivered delivered)), [])
    | (some info, inbox) =>
      let sig := info.signal
      let p := { p with inbox }
      match p.dispositions.get sig with
      | .ignore => (p.goto (.loop (.check delivered)), [.handling sig, .ignored sig])
      | .default =>
        let (p, acted) := p.act pid sig sig.defaultAction
        (p.goto (.loop (.check (delivered || !sig.defaultAction.isIdle))), .handling sig :: acted)
      | .handler action =>
        let (p, entered) := (p.enter .round .proceed).deliver sig action
        (p, .handling sig :: entered)

end Process

end PosixSignals
