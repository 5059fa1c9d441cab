import Netxy.Lib.Framing
import Netxy.Lib.CString
import Netxy.Lib.Cut
import Netxy.Lib.ByteOrder
import Netxy.Lib.Transition
import Netxy.WebSocket.Extraction
import Netxy.WebSocket.Handshake
import Netxy.Http.Vendored.Handlers
import Netxy.Http.Vendored.Pieces
import Netxy.Http.WebSocketSession
import Netxy.Http.Dispatch
import Netxy.Http.HostileInput
import Netxy.Http.ChunkScan
import Netxy.Http.RejectedInput
import Netxy.Http.HttpFormat
import Netxy.Net.Wakeup
import Netxy.Net.SessionTable
import Netxy.Net.OutputStream
import Netxy.Net.EdgeTriggered
import Netxy.Net.GracefulShutdown
import Netxy.Net.TcpService
import Netxy.Net.SafeDeletion
import Netxy.Net.IdleCheck
import Netxy.Rpc.RpcService
import Netxy.Rpc.MsgpackCodec
import Netxy.Rpc.JsonRpc
import Netxy.Rpc.RequestIds
import Netxy.Net.Bookkeeping
import Netxy.Net.Isolation
import Netxy.Net.SendOrder
import Netxy.Utils.MsgQueue
import Netxy.Utils.BufferQueue
import Netxy.Utils.MultiPool
import Netxy.Utils.TypePoolBlocks
import Netxy.Utils.TypeidsMoves
import Netxy.Utils.FdInterests
import Netxy.Utils.ThreadPool
import Netxy.Utils.Packet
import Netxy.Utils.PacketReader
import Netxy.Utils.Protobuf
import Netxy.Utils.StreamOperators
import Netxy.Net.Connector
import Netxy.Net.ServiceArrays
import Netxy.Timer.PollTimeout
import Netxy.Timer.StaleIds
import Netxy.Net.FlushAgreement
import Netxy.Net.SocketLifetime
