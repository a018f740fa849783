import CppSerializer.Library.Transition
import CppSerializer.Library.ByteString
import CppSerializer.Library.PrefixCode
import CppSerializer.Pack.Packet
import CppSerializer.Pack.Layout
import CppSerializer.Pack.Stream
import CppSerializer.Jsre.Request
import CppSerializer.Bucket.Log
import CppSerializer.Bucket.Delivery
import CppSerializer.Bucket.Listeners
import CppSerializer.Bucket.TriggerPost
import CppSerializer.Launcher.Model
import CppSerializer.Launcher.Retry
import CppSerializer.Launcher.Correlation
import CppSerializer.Connection.Wire
import CppSerializer.Connection.Reader
import CppSerializer.Connection.InStep
import CppSerializer.Library.Follow
import CppSerializer.Connection.Commands
import CppSerializer.Connection.Messages
import CppSerializer.Bucket.OneRound
import CppSerializer.Server.Model
import CppSerializer.Server.Round
import CppSerializer.Server.ReadYourWrite
import CppSerializer.Bucket.Awake
import CppSerializer.Connection.Listening
import CppSerializer.Launcher.Conservation
import CppSerializer.Launcher.Lifecycle
import CppSerializer.Launcher.Table
import CppSerializer.Launcher.WakeUp
import CppSerializer.Launcher.Order
import CppSerializer.Topics.Identity
import CppSerializer.Process.Replies
import CppSerializer.Process.Reads
import CppSerializer.Process.HandOver
import CppSerializer.Trigger.Stages
import CppSerializer.Trigger.Retries
import CppSerializer.Trigger.Totals
import CppSerializer.Trace.Parser
import CppSerializer.Topics.Work
import CppSerializer.Launcher.Work
import CppSerializer.Process.Rest
import CppSerializer.Launcher.Rest
import CppSerializer.Topics.Rest
import CppSerializer.Topics.Sources
import CppSerializer.Launcher.Payload
import CppSerializer.Process.Triggers
import CppSerializer.Process.Results
import CppSerializer.Process.Stream
import CppSerializer.Process.Data
import CppSerializer.Process.Served
import CppSerializer.Process.Clients
import CppSerializer.Process.Calls
import CppSerializer.Process.Files
import CppSerializer.Server.Progress
import CppSerializer.Server.Work
import CppSerializer.Network.Model
import CppSerializer.Network.Heard
import CppSerializer.Network.Sockets
import CppSerializer.Network.Calls
import CppSerializer.Launcher.Asks
import CppSerializer.Process.Asks
import CppSerializer.Http.Rest
import CppSerializer.Http.Rest
