import WinRadius.Lib.Tlv
import WinRadius.Lib.Run
import WinRadius.Model.Decode
import WinRadius.Proofs.EncodeBody
import WinRadius.Proofs.Received
import WinRadius.Proofs.EncodeLoop
import WinRadius.Proofs.EncodeSound
import WinRadius.Proofs.MaBody
import WinRadius.Proofs.SignVerify
import WinRadius.Proofs.DecodeStep
import WinRadius.Proofs.RoundTrip
import WinRadius.Proofs.VendorRoundTrip
import WinRadius.Proofs.DecodeSafe
import WinRadius.Proofs.Coalesce
import WinRadius.Proofs.Continuation
import WinRadius.Proofs.Provenance
import WinRadius.Model.Hash
import WinRadius.Proofs.HashBits
import WinRadius.Proofs.HashMap
import WinRadius.Model.RbTree
import WinRadius.Proofs.RbTree
import WinRadius.Model.PacketList
import WinRadius.Proofs.PacketKeys
import WinRadius.Proofs.PacketRun
import WinRadius.Proofs.FindByreply
import WinRadius.Proofs.IdAlloc
import WinRadius.Proofs.IdTable
import WinRadius.Proofs.HashRun
import WinRadius.Proofs.HashWalk
import WinRadius.Model.RbHeap
import WinRadius.Proofs.RbBalance
import WinRadius.Proofs.RbLinks
import WinRadius.Proofs.RbFixup
import WinRadius.Proofs.RbNodes
import WinRadius.Proofs.RbRefines
import WinRadius.Model.Proxy
import WinRadius.Proofs.ProxyHomes
import WinRadius.Proofs.ProxyDelta
import WinRadius.Proofs.ProxyHash
import WinRadius.Proofs.ProxyCount
import WinRadius.Proofs.ProxyBound
import WinRadius.Proofs.ProxyRun
import WinRadius.Lib.BinaryHeap
import WinRadius.Model.Heap
import WinRadius.Proofs.Heap
import WinRadius.Proofs.HeapRun
import WinRadius.Model.Event
import WinRadius.Proofs.Event
import WinRadius.Proofs.EventRun
import WinRadius.Model.Ippool
import WinRadius.Lib.FiniteMap
import WinRadius.Proofs.Ippool
import WinRadius.Proofs.IppoolRun
import WinRadius.Model.Detail
import WinRadius.Proofs.Detail
import WinRadius.Proofs.DetailRecords
import WinRadius.Proofs.DetailMoves
import WinRadius.Proofs.DetailRun
import WinRadius.Model.Requests
import WinRadius.Proofs.RequestChange
import WinRadius.Proofs.RequestHandling
import WinRadius.Proofs.RequestList
import WinRadius.Proofs.RequestRun
import WinRadius.Proofs.IppoolKept
import WinRadius.Lib.Avp
import WinRadius.Model.Ttls
import WinRadius.Proofs.Diameter
import WinRadius.Proofs.DiameterRun
import WinRadius.Proofs.DiameterPairs
import WinRadius.Proofs.DiameterVisit
import WinRadius.Proofs.DiameterOrigin
import WinRadius.Proofs.DiameterRoundTrip
import WinRadius.Model.Eapsim
import WinRadius.Proofs.EapsimWalk
import WinRadius.Proofs.EapsimMac
import WinRadius.Proofs.EapsimExchange
import WinRadius.Model.EapTls
import WinRadius.Proofs.EapTls
import WinRadius.Model.Eap
import WinRadius.Proofs.EapMessage
import WinRadius.Proofs.EapTlsExtract
import WinRadius.Model.Eapaka
import WinRadius.Proofs.EapsimTiles
import WinRadius.Lib.Blocks
import WinRadius.Model.CryptLoops
import WinRadius.Proofs.CryptLoops
import WinRadius.Proofs.UserPassword
import WinRadius.Proofs.TunnelPassword
import WinRadius.Proofs.PacketOk
import WinRadius.Lib.Prefix
import WinRadius.Model.Client
import WinRadius.Proofs.ClientMask
import WinRadius.Proofs.Clients
import WinRadius.Model.ConfSection
import WinRadius.Lib.Linked
import WinRadius.Proofs.ConfTrees
import WinRadius.Proofs.ConfItems
import WinRadius.Proofs.ConfReplace
import WinRadius.Proofs.ConfRun
import WinRadius.Model.Conffile
import WinRadius.Proofs.ClientLifetime
import WinRadius.Model.Compare
import WinRadius.Proofs.CompareOrder
import WinRadius.Proofs.Paircompare
import WinRadius.Model.RadiusPairmove
import WinRadius.Proofs.RadiusPairmove
import WinRadius.Proofs.DiameterEap
import WinRadius.Proofs.IppoolExpiry
import WinRadius.Model.Realms
import WinRadius.Proofs.Realms
import WinRadius.Model.Soh
import WinRadius.Proofs.Soh
import WinRadius.Lib.Numeral
import WinRadius.Model.Print
import WinRadius.Model.ParseValue
import WinRadius.Proofs.PrintPrefix
import WinRadius.Proofs.PrintParse
import WinRadius.Proofs.Pairparsevalue
import WinRadius.Model.Pairmove
import WinRadius.Proofs.PairLists
import WinRadius.Proofs.PairmoveRun
import WinRadius.Proofs.Pairmove
import WinRadius.Model.Utf8
import WinRadius.Proofs.Utf8
import WinRadius.Model.Timestr
import WinRadius.Proofs.Timestr
import WinRadius.Model.CopyVariable
import WinRadius.Proofs.CopyVariable
import WinRadius.Model.Token
import WinRadius.Proofs.Token
import WinRadius.Model.Userparse
import WinRadius.Proofs.Userparse
import WinRadius.Model.DictCaches
import WinRadius.Proofs.DictCaches
import WinRadius.Proofs.Conffile
import WinRadius.Model.Xlat
import WinRadius.Proofs.XlatLiteral
import WinRadius.Model.PairmakeAny
import WinRadius.Proofs.PairmakeAny
import WinRadius.Lib.Region
import WinRadius.Model.XlatText
import WinRadius.Proofs.XlatContained
import WinRadius.Model.EventFds
import WinRadius.Proofs.EventFds
import WinRadius.Proofs.RbWalk
import WinRadius.Lib.CheckedInt
import WinRadius.Model.StatsEma
import WinRadius.Proofs.StatsEma
import WinRadius.Proofs.DetailDelay
import WinRadius.Model.CoaTimers
import WinRadius.Proofs.CoaTimers
import WinRadius.Proofs.DetailLeak
import WinRadius.Lib.Base64
import WinRadius.Model.Pap
import WinRadius.Proofs.Pap
import WinRadius.Lib.Cyclic
import WinRadius.Proofs.TimestrMatch
import WinRadius.Proofs.TaggedTrip
import WinRadius.Proofs.ContinuedTrip
import WinRadius.Lib.Calls
import WinRadius.Lib.Cells
import WinRadius.Model.Fifo
import WinRadius.Lib.ExchangeSort
import WinRadius.Model.PrintString
import WinRadius.Model.RequestData
import WinRadius.Model.Sortvp
import WinRadius.Proofs.Fifo
import WinRadius.Proofs.PrintString
import WinRadius.Proofs.RequestData
import WinRadius.Proofs.SocketAdd
import WinRadius.Proofs.Sortvp
import WinRadius.Model.EapList
import WinRadius.Proofs.EapList
import WinRadius.Proofs.EapSessions
import WinRadius.Model.Modcall
import WinRadius.Lib.LatestMax
import WinRadius.Proofs.Modcall
import WinRadius.Proofs.ModcallResult
import WinRadius.Proofs.ModcallScope
