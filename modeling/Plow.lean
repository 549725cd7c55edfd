import Plow.KvStore.ReclaimOrder
import Plow.KvStore.ContentRun
import Plow.Packet.RoundTrip
import Plow.TokenBatch.Twins
import Plow.PackedPrefill.Launch
import Plow.PackedPrefill.Obligation
import Plow.Schedule.Liveness
import Plow.Schedule.Handoffs
import Plow.Speculative.Lossless
import Plow.Kernarg.Safety
import Plow.Think.Budget
import Plow.Reasoning.Account
import Plow.MixedStep.Sound
import Plow.Tools.Deltas
import Plow.TokenBatch.Staging
import Plow.KvBlocks.Publish
import Plow.Prefix.Interleave
import Plow.Exec.Queue
import Plow.Splitk.Contract
import Plow.Session.Resumed
import Plow.Dp.Balance
import Plow.NnGraph.Sound
import Plow.CoSched.Hold
import Plow.Extension.Order
import Plow.Devbuild.Fusion
import Plow.KvStore.Exhaust
import Plow.Rings.Retention
import Plow.Schedule.Arena
import Plow.Schedule.Hoist
import Plow.Schedule.Eliminate
import Plow.Sched.CoResident
import Plow.Packet.Recover
import Plow.Sched.Fill
import Plow.Tools.Special
import Plow.Schedule.Resources
import Plow.Think.Steering
import Plow.Schedule.Pages
import Plow.Sched.SloTarget
import Plow.Reply.Chunks
import Plow.Tools.Parse.Messages
import Plow.Text.Segment
import Plow.Memory.TileRef
import Plow.Exec.Bands
import Plow.Exec.KvHandoff
import Plow.Packet.Merge
import Plow.NnGraph.Faithful
import Plow.Rewrite.Partition
import Plow.Devbuild.Witness
import Plow.Memory.Container
import Plow.Packet.MoeEp
