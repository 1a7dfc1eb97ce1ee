import ShivaProtocol.Ebpf.RateGate
import ShivaProtocol.Ebpf.Sequence
import ShivaProtocol.Ebpf.Isolation
import ShivaProtocol.Ebpf.Ipv4
import ShivaProtocol.Ebpf.FrameContract
import ShivaProtocol.Ebpf.DenyList
import ShivaProtocol.Ebpf.Lifetime
import ShivaProtocol.Ebpf.Serial
import ShivaProtocol.Ebpf.Quota
import ShivaProtocol.Capture.Delivery
import ShivaProtocol.Capture.Telemetry
import ShivaProtocol.Capture.Relaxed
import ShivaProtocol.Capture.ExitStatus
import ShivaProtocol.Capture.LogFormat
import ShivaProtocol.Pipeline.Wire
import ShivaProtocol.Pipeline.Ordering
import ShivaProtocol.Pipeline.Conservation
import ShivaProtocol.Pipeline.Shutdown
import ShivaProtocol.Pipeline.Exit
import ShivaProtocol.Pipeline.Attribution
import ShivaProtocol.Pipeline.Provenance
import ShivaProtocol.Pipeline.Liveness
import ShivaProtocol.Pipeline.Monitored
import ShivaProtocol.Pipeline.Buffers
import ShivaProtocol.Pipeline.Overtaking
import ShivaProtocol.Pipeline.Security
import ShivaProtocol.Pipeline.Latency
