import ShieldStore.Lib.Lists
import ShieldStore.Lib.Bytes
import ShieldStore.Lib.CMem
import ShieldStore.Lib.Counter
import ShieldStore.Lib.Aes
import ShieldStore.Lib.Run
import ShieldStore.Lib.Sections
import ShieldStore.Lib.Interleave
import ShieldStore.Lib.Pieces
import ShieldStore.Common
import ShieldStore.Core
import ShieldStore.Ht
import ShieldStore.Enclave
import ShieldStore.Server
import ShieldStore.App
import ShieldStore.Record
import ShieldStore.Scratch
import ShieldStore.Logs
import ShieldStore.Sealing
import ShieldStore.Geometry
import ShieldStore.Layout
import ShieldStore.Request
import ShieldStore.Spec
import ShieldStore.Write
import ShieldStore.Refinement
import ShieldStore.MacBuffer
import ShieldStore.Tamper
import ShieldStore.Rebuild
import ShieldStore.Honest
import ShieldStore.Hints
import ShieldStore.Capacity
import ShieldStore.Assertions
import ShieldStore.Replies
import ShieldStore.Misses
import ShieldStore.Forgery
import ShieldStore.Counts
import ShieldStore.TamperRun
import ShieldStore.Freshness
import ShieldStore.FailStop
import ShieldStore.Keystream
import ShieldStore.Locality
import ShieldStore.Workers
import ShieldStore.Delivery
import ShieldStore.Shutdown
import ShieldStore.Messages
import ShieldStore.Framing
import ShieldStore.Client
import ShieldStore.Trace
import ShieldStore.HotCalls
import ShieldStore.Threads
import ShieldStore.Steps
import ShieldStore.Front
import ShieldStore.Jobs
import ShieldStore.Signals
import ShieldStore.Session
import ShieldStore.Linear
import ShieldStore.Defined
import ShieldStore.Progress
import ShieldStore.Quiescence
