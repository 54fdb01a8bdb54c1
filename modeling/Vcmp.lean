import Vcmp.Lib.Blocks
import Vcmp.Lib.ByteOrder
import Vcmp.Lib.CInt
import Vcmp.Lib.CString
import Vcmp.Lib.Extents
import Vcmp.Lib.Framing
import Vcmp.Lib.GoesOn
import Vcmp.Lib.Json
import Vcmp.Lib.Ledger
import Vcmp.Lib.Links
import Vcmp.Lib.Loads
import Vcmp.Lib.Local
import Vcmp.Lib.Lts
import Vcmp.Lib.Memory
import Vcmp.Lib.Parts
import Vcmp.Lib.Reach
import Vcmp.Lib.Strtol
import Vcmp.Lib.Utf8
import Vcmp.Lib.Views
import Vcmp.Protocol
import Vcmp.Rsa
import Vcmp.Listener
import Vcmp.Peers
import Vcmp.Websockets.Frame
import Vcmp.Websockets.Handshake
import Vcmp.Websockets.Uthash
import Vcmp.Websockets.HeaderTable
import Vcmp.Websockets.Server
import Vcmp.Websockets.Loop
import Vcmp.Websockets.Session
import Vcmp.Yyjson
import Vcmp.Api
import Vcmp.Socks5
import Vcmp.Ini
import Vcmp.IniHeap
import Vcmp.Main
import Vcmp.Extents
import Vcmp.HonestPeer
import Vcmp.Websockets.Rfc6455
import Vcmp.Websockets.Http
import Vcmp.Websockets.Request
import Vcmp.Rfc1928
import Vcmp.Proxy
import Vcmp.IniText
import Vcmp.IniReader
import Vcmp.Theorems.Frame
import Vcmp.Theorems.FrameBounds
import Vcmp.Theorems.FrameDecode
import Vcmp.Theorems.FrameHeader
import Vcmp.Theorems.FrameEncode
import Vcmp.Theorems.Packets
import Vcmp.Theorems.Listener
import Vcmp.Theorems.Staging
import Vcmp.Theorems.PubkeyWait
import Vcmp.Theorems.PacketLengths
import Vcmp.Theorems.Completeness
import Vcmp.Theorems.PeerLifecycle
import Vcmp.Theorems.Splitting
import Vcmp.Theorems.Rsa
import Vcmp.Theorems.Verdict
import Vcmp.Theorems.Peers
import Vcmp.Theorems.Blind
import Vcmp.Theorems.Server
import Vcmp.Theorems.Session
import Vcmp.Theorems.FramePass
import Vcmp.Theorems.FrameLoop
import Vcmp.Theorems.Delivery
import Vcmp.Theorems.Output
import Vcmp.Theorems.CallOrder
import Vcmp.Theorems.Lifecycle
import Vcmp.Theorems.Api
import Vcmp.Theorems.Sessions
import Vcmp.Theorems.JsonString
import Vcmp.Theorems.JsonObject
import Vcmp.Theorems.Reports
import Vcmp.Theorems.HeaderCopies
import Vcmp.Theorems.Handshake
import Vcmp.Theorems.HeaderLookup
import Vcmp.Theorems.UthashBuckets
import Vcmp.Theorems.Uthash
import Vcmp.Theorems.HashCalls
import Vcmp.Theorems.HeaderTable
import Vcmp.Theorems.HeaderHeaps
import Vcmp.Theorems.HttpFields
import Vcmp.Theorems.Upgrade
import Vcmp.Theorems.UpgradeRequest
import Vcmp.Theorems.Socks5
import Vcmp.Theorems.ConnectRequest
import Vcmp.Theorems.SuccessReport
import Vcmp.Theorems.Tunnel
import Vcmp.Theorems.Leftover
import Vcmp.Theorems.Proxy
import Vcmp.Theorems.PeekedPackets
import Vcmp.Theorems.PeekedHandshake
import Vcmp.Theorems.PeekedFrames
import Vcmp.Theorems.Extents
import Vcmp.Theorems.IniLines
import Vcmp.Theorems.Ini
import Vcmp.Theorems.IniCases
import Vcmp.Theorems.IniReader
import Vcmp.Theorems.IniCursor
import Vcmp.Theorems.IniFile
import Vcmp.Theorems.IniTurns
import Vcmp.Theorems.IniStores
import Vcmp.Theorems.IniTokens
import Vcmp.Theorems.IniEntries
import Vcmp.Theorems.IniPairs
import Vcmp.Theorems.IniComments
import Vcmp.Theorems.IniLookup
import Vcmp.Theorems.IniLineEnds
import Vcmp.Theorems.IniDump
import Vcmp.Theorems.IniHeap
import Vcmp.Theorems.Ports
