import ValuationCycle.Execution.Basic

/-!
# Waiting for executions

A cycle waits for one execution at a time. What has timed out goes to the back
of the queue, what has succeeded leaves it. The first execution that fails ends
the waiting, and so does the interrupter: if it has fired when a wait begins,
or fires during one, nothing else counts. Whatever is still in the queue when
waiting ends is asked to cancel, the execution that was waited for included
unless it has ended.
-/
namespace ValuationCycle

inductive Seen where
  | interrupted
  | timedOut
  | ended (ending : Ending)

/-- One wait: whether the interrupter has fired when it begins, what executions do
while it lasts, and what it sees. -/
structure Wait where
  signalled : Bool
  work : Execution → Execution
  seen : Seen

inductive Verdict where
  | finished
  | interrupted
  | failed (configuration : String) (error : ExecutionError)
  deriving DecidableEq

structure WaitReport where
  verdict : Verdict
  cancelled : List String
  execution : Execution

/-- Waits for every execution in the queue. Nothing is reported while the queue is
not empty and there are no more waits. -/
def waitFor (signalled : Bool) (x : Execution) : List String → List Wait → Option WaitReport
  | [], _ => some ⟨.finished, [], x⟩
  | _ :: _, [] => none
  | name :: rest, w :: ws =>
    if signalled || w.signalled then some ⟨.interrupted, name :: rest, x⟩
    else
      let x := w.work x
      match w.seen with
      | .interrupted => some ⟨.interrupted, name :: rest, x⟩
      | .timedOut => waitFor signalled x (rest ++ [name]) ws
      | .ended (.ok ()) => waitFor signalled x rest ws
      | .ended (.error e) => some ⟨.failed name e, rest, x⟩

end ValuationCycle
