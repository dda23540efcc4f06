import VllmCore.Core.MambaAlign
import VllmCore.Core.EventStream
import VllmCore.Core.SparseCache
import VllmCore.Sched.AdmissionCap
import VllmCore.Sched.PrefillChunks
import VllmCore.Offload.SubSlots
import VllmCore.Layout.SlotPlan
import VllmCore.Sched.PriorityOrder
import VllmCore.Sched.EncoderDecoderSlots
import VllmCore.Sched.ManagerRuns
import VllmCore.Offload.Events
import VllmCore.Sched.Drain
import VllmCore.Worker.RowState
import VllmCore.Worker.RowContents
import VllmCore.Worker.SlotMapping
import VllmCore.Worker.NgramProposer
import VllmCore.Frontend.Routing
import VllmCore.Frontend.MmCache
import VllmCore.Distributed.ReplicateExperts
import VllmCore.Distributed.MultiprocExecutor
import VllmCore.Distributed.ShmBroadcast
import VllmCore.Distributed.ShmRingBuffer
