import XrayCore.Outbound.Running
import XrayCore.Xdns.Server
import XrayCore.Xdns.Client
import XrayCore.SplitHttp.UploadQueue
import XrayCore.Transport.PipeFlow
import XrayCore.Mux.Frame
import XrayCore.Strmatcher.ACOrder
import XrayCore.Strmatcher.MphCombiner
import XrayCore.Vmess.Replay
import XrayCore.Vmess.Body
import XrayCore.AnyTls.Write
import XrayCore.AnyTls.PoolInvariant
import XrayCore.AnyTls.Stream
import XrayCore.Vless.Flow
import XrayCore.Vless.TicketRuns
import XrayCore.Shadowsocks2022.MultiUserRuns
import XrayCore.FakeDns.Holder
import XrayCore.FinalMask.Stack
import XrayCore.Stats.DomainTrafficRuns
import XrayCore.Outbound.Select
import XrayCore.Geodata.DomainRules
import XrayCore.Geodata.BulkMulti
import XrayCore.Geodata.SiteDecoder
import XrayCore.Router.Strategies
import XrayCore.Kcp.Receiving
import XrayCore.Kcp.SendingWindow
import XrayCore.Shadowsocks2022.Authenticate
import XrayCore.Shadowsocks2022.ClientSession
import XrayCore.Mux.WorkerPicker
import XrayCore.Protocol.Validator
import XrayCore.Kcp.Config
import XrayCore.Vless.XorConn
import XrayCore.Tun.Checksum
import XrayCore.Hysteria.Defrag
import XrayCore.Vision.Padding
import XrayCore.Xdns.Capacity
import XrayCore.Protocol.AddressSerializer
import XrayCore.Xdrive.Accept
