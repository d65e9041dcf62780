import Manytrace.Core.Machine
import Manytrace.Core.Mailbox
import Manytrace.Core.MirroredMemory
import Manytrace.Core.Op
import Manytrace.Core.Log
import Manytrace.Core.Tiling
import Manytrace.Core.BoundedMap
import Manytrace.Core.Intervals
import Manytrace.Core.Channel
import Manytrace.Core.Codec
import Manytrace.Core.Writing
import Manytrace.Core.Tally
import Manytrace.Core.Rank
import Manytrace.Core.Signal
import Manytrace.Core.Text
import Manytrace.Core.Lists
import Manytrace.Mpscbuf.Common
import Manytrace.Mpscbuf.Reserve
import Manytrace.Mpscbuf.RingBuf
import Manytrace.Mpscbuf.Tiles
import Manytrace.Mpscbuf.Invariant
import Manytrace.Mpscbuf.ProducerSteps
import Manytrace.Mpscbuf.ConsumerSteps
import Manytrace.Mpscbuf.Space
import Manytrace.Mpscbuf.Delivery
import Manytrace.Mpscbuf.Discard
import Manytrace.Mpscbuf.Wakeup
import Manytrace.Mpscbuf.Accounts
import Manytrace.Agent.AgentState
import Manytrace.Agent.Session
import Manytrace.Agent.Listener
import Manytrace.Agent.Rejection
import Manytrace.Agent.Descriptors
import Manytrace.Agent.Client
import Manytrace.Agent.ClientState
import Manytrace.Agent.Conversation
import Manytrace.Agent.ConversationCalls
import Manytrace.Agent.Replies
import Manytrace.Agent.Wire
import Manytrace.Agent.Submit
import Manytrace.Agent.SubmitSteps
import Manytrace.Agent.SubmitRing
import Manytrace.Agent.Accounting
import Manytrace.Agent.AllOrNothing
import Manytrace.Tracing.Layer
import Manytrace.Tracing.SpanTimes
import Manytrace.Protocol.Event
import Manytrace.Protocol.Serialize
import Manytrace.Converter.Converter
import Manytrace.Converter.Closure
import Manytrace.Converter.Names
import Manytrace.Symbolizer.InternedSymbolizer
import Manytrace.Symbolizer.Resolution
import Manytrace.Symbolizer.StackOrder
import Manytrace.Bpf.Common
import Manytrace.Bpf.SchedTrace
import Manytrace.Bpf.Timeline
import Manytrace.Bpf.TaskExit
import Manytrace.Bpf.BlockTrack
import Manytrace.Bpf.Depth
import Manytrace.Bpf.DepthTime
import Manytrace.Bpf.DepthIntegral
import Manytrace.Bpf.Latency
import Manytrace.Bpf.Operations
import Manytrace.Bpf.RequestSpans
import Manytrace.Bpf.Percentiles
import Manytrace.Bpf.DeviceAlone
import Manytrace.Bpf.DeviceDeltas
import Manytrace.Bpf.Mounts
import Manytrace.Bpf.MountTable
import Manytrace.Bpf.PerfCounter
import Manytrace.Bpf.PerfTracks
import Manytrace.Bpf.PerfDeltas
import Manytrace.Bpf.PerfSetup
import Manytrace.Bpf.PerfMeasures
import Manytrace.Bpf.CpuUtil
import Manytrace.Bpf.Utilisation
import Manytrace.Bpf.ThreadTrack
import Manytrace.Bpf.ThreadNames
import Manytrace.Bpf.NetFlush
import Manytrace.Bpf.NetAccounting
import Manytrace.Converter.Slices
import Manytrace.Converter.Descriptors
import Manytrace.Core.Introduction
import Manytrace.Converter.Declarations
import Manytrace.Bpf.SchedSpans
import Manytrace.Converter.Streams
import Manytrace.Bpf.ProfilerSamples
import Manytrace.Bpf.StackReuse
import Manytrace.Core.FirstKeys
import Manytrace.Bpf.ProcessFilter
import Manytrace.Bpf.NetSeries
import Manytrace.Bpf.NetShown
import Manytrace.Bpf.NetTotals
import Manytrace.Bpf.BlockShown
import Manytrace.Agent.Lease
import Manytrace.Mpscbuf.Spinlock
import Manytrace.Agent.Keepalive
import Manytrace.Core.Interleaving
import Manytrace.Mpscbuf.Tickets
import Manytrace.Agent.ThreadOrder
import Manytrace.Agent.UserTrace
import Manytrace.Bpf.BlockSamples
import Manytrace.Bpf.CpuShown
import Manytrace.Tracing.Visits
import Manytrace.Bpf.PerfShown
import Manytrace.Tracing.Fields
