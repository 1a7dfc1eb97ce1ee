import ShivaProtocol.Library.Channel
import ShivaProtocol.Capture.Metrics

/-!
# The bridge from a vacuum worker to its consumer

The dispatch channel holds four batches.  `tryDispatch` is what happens to a frame once
`try_send` has returned.
-/

open SgCommon

namespace SgCapture

/-- The number of frames drained from the ring per polling iteration. -/
abbrev batchSize : ℕ := 256

/-- The capacity of a dispatch channel, in frames. -/
abbrev dispatchCapacity : ℕ := batchSize * 4

/-- A dispatch channel. -/
abbrev DispatchChannel := Channel SignalFrame dispatchCapacity

/-- Makes a dispatch channel. -/
def dispatchChannel : DispatchChannel :=
  Channel.bounded SignalFrame dispatchCapacity

/-- Given the outcome of `try_send`, whether the frame was dispatched, and the metrics after it. -/
def tryDispatch (sent : SendResult) (cpuId : ℕ) (metrics : Metrics) : Bool × Metrics :=
  match sent with
  | .ok => (true, metrics)
  | .full => (false, metrics.recordChannelFull cpuId)
  | .disconnected => (false, metrics)

end SgCapture
