import SundayServer.FieldValues
import SundayServer.Framing
import SundayServer.HandOff
import SundayServer.Password
import SundayServer.Reload
import SundayServer.Startup
import SundayServer.TokenGate
import SundayServer.UserNames
import SundayServer.Encoding
import SundayServer.SocketOperate
import SundayServer.StatementSize
import SundayServer.Replies
import SundayServer.Accounts
import SundayServer.Registration
import SundayServer.AccountChanges
import SundayServer.Heartbeat
import SundayServer.ClientTcpRead
import SundayServer.NewConn
import SundayServer.ThreadServer
import SundayServer.ReceiveBuffer
import SundayServer.RequestBuffer
import SundayServer.SslRead
import SundayServer.AccountStore
import SundayServer.ConfigWrite
import SundayServer.Descriptors
import SundayServer.SslWrite
import SundayServer.Client
import SundayServer.Draining
import SundayServer.HighWater
import SundayServer.Logins
import SundayServer.ReplySockets
import SundayServer.ResultText
