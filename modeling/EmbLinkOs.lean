import EmbLinkOs.Embkfs.FreeIndex
import EmbLinkOs.Embkfs.Contents
import EmbLinkOs.Embkfs.Live
import EmbLinkOs.Embkfs.Paths
import EmbLinkOs.Embkfs.CompressBounds
import EmbLinkOs.Update.AntiRollback
import EmbLinkOs.Update.PowerLoss
import EmbLinkOs.Update.Storage
import EmbLinkOs.Vfs.Resolve
import EmbLinkOs.Ipc.Pipe
import EmbLinkOs.Ipc.Channel
import EmbLinkOs.Mm.Frames
import EmbLinkOs.Tcp.Incoming
import EmbLinkOs.Tcp.Recovery
import EmbLinkOs.Tcp.TableSafety
import EmbLinkOs.Udp.Demux
import EmbLinkOs.Tls.Chain
import EmbLinkOs.Wifi.Ccmp
import EmbLinkOs.Wifi.ReplayCounter
import EmbLinkOs.Git.Extract
import EmbLinkOs.Git.PushSpec
import EmbLinkOs.Shell.Arith
import EmbLinkOs.Shell.Commands
import EmbLinkOs.Shell.RoundTrip
