import CurvecprAsio.Lib.Transition
import CurvecprAsio.Custody
import CurvecprAsio.Gap
import CurvecprAsio.EofMark
import CurvecprAsio.Close
import CurvecprAsio.Service
import CurvecprAsio.CloseOnce
import CurvecprAsio.Settle
import CurvecprAsio.Acceptor
import CurvecprAsio.ClientStream
import CurvecprAsio.Prefix
import CurvecprAsio.EofQueue
import CurvecprAsio.Passive
import CurvecprAsio.Wakeup
import CurvecprAsio.WriteRoom
import CurvecprAsio.Outstanding
import CurvecprAsio.Initiate
import CurvecprAsio.Connecting
import CurvecprAsio.Quiet
import CurvecprAsio.Accept
import CurvecprAsio.Acknowledge
import CurvecprAsio.View
import CurvecprAsio.Ledger
import CurvecprAsio.Lib.Channel
import CurvecprAsio.Conversation
import CurvecprAsio.ConversationInvariant
import CurvecprAsio.Host
import CurvecprAsio.HostInvariant
import CurvecprAsio.Hosts
import CurvecprAsio.Progress
import CurvecprAsio.Admission
import CurvecprAsio.Network
import CurvecprAsio.Rule
import CurvecprAsio.Memory
import CurvecprAsio.Unacknowledged
import CurvecprAsio.SendTimer
import CurvecprAsio.Listening
import CurvecprAsio.Echo
import CurvecprAsio.Transfer
import CurvecprAsio.EchoServer
import CurvecprAsio.EchoClient
import CurvecprAsio.EchoInvariant
import CurvecprAsio.Attribution
import CurvecprAsio.Drained
