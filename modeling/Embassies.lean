import Embassies.Crypto.ByteStream
import Embassies.Crypto.LabelChain
import Embassies.Crypto.NameGrammar
import Embassies.ElfLoader.XRFileNode
import Embassies.Hub.Dispatch
import Embassies.Hub.InternalIp
import Embassies.Hub.Migration
import Embassies.KeyVal.EncryptedClient
import Embassies.Monitor.CheckpointRuns
import Embassies.Monitor.GuestCalls
import Embassies.Monitor.NetBufferLaws
import Embassies.Monitor.ViewportLaws
import Embassies.Monitor.ZutexLaws
import Embassies.Net.UdpPacket
import Embassies.Sync.NoLostWakeup
import Embassies.Sync.ZMutex
import Embassies.Utils.AVLRuns
import Embassies.Utils.CQSort
import Embassies.Utils.CoalescingBestFit
import Embassies.Utils.CoalescingFree
import Embassies.Utils.CoalescingSpace
import Embassies.Utils.Comparisons
import Embassies.Utils.SnprintfLaws
import Embassies.Zarfile.FastMmapLaws
import Embassies.Zftp.CacheNetwork
import Embassies.Zftp.Confluence
import Embassies.Zftp.CopyElision
import Embassies.Zftp.RequestCodec
import Embassies.Zftp.RequestPlan
import Embassies.Zftp.TreeGeometry
import Embassies.Zftp.TruncatedReply
import Embassies.Zftp.Waiters
import Embassies.Worker.ProcessBase
