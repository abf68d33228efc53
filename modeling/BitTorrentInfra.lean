import BitTorrentInfra.Wire.Bytes
import BitTorrentInfra.Wire.Nom
import BitTorrentInfra.Peer.Standard
import BitTorrentInfra.Bencode.Value
import BitTorrentInfra.Bencode.Codec
import BitTorrentInfra.Dht.Message
import BitTorrentInfra.Dht.AnnouncePeer
import BitTorrentInfra.Dht.Response
import BitTorrentInfra.Tracker.Body
import BitTorrentInfra.Tracker.Request
import BitTorrentInfra.Metainfo.Builder
import BitTorrentInfra.Metainfo.Binary64
import BitTorrentInfra.Metainfo.PieceLength
import BitTorrentInfra.Metainfo.Build
import BitTorrentInfra.Umio.Buffer
import BitTorrentInfra.Umio.Dispatcher
import BitTorrentInfra.Umio.Runs
