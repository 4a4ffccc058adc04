import Bittorrent.Lib.Consecutive
import Bittorrent.Download.ConnectionMap
import Bittorrent.Download.Crash
import Bittorrent.Download.Integrity
import Bittorrent.Download.Picked
import Bittorrent.Download.Slots
import Bittorrent.Download.Stall
import Bittorrent.Download.Working
import Bittorrent.Files.Framing
import Bittorrent.Files.PeerList
import Bittorrent.Files.RejectedGet
import Bittorrent.Files.RoundTrip
import Bittorrent.Network.Draining
import Bittorrent.Network.Answers
import Bittorrent.Peer.Address
import Bittorrent.Peer.Answers
import Bittorrent.Peer.Delivery
import Bittorrent.Peer.Overread
import Bittorrent.Peer.Termination
import Bittorrent.Stream.Copy
import Bittorrent.Stream.Counter
import Bittorrent.Stream.Handshake
import Bittorrent.Stream.Progress
import Bittorrent.Stream.Recovery
import Bittorrent.Stream.Whohas
import Bittorrent.Upload.Avoidance
import Bittorrent.Upload.Chunk
import Bittorrent.Upload.FastRetransmit
import Bittorrent.Upload.Growth
import Bittorrent.Upload.Offsets
import Bittorrent.Upload.Reassembly
import Bittorrent.Upload.StaleAck
import Bittorrent.Upload.Window
import Bittorrent.Download.Room
