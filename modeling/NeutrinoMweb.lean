import NeutrinoMweb.Index
import NeutrinoMweb.Layout
import NeutrinoMweb.Correspondence
import NeutrinoMweb.Subtrees
import NeutrinoMweb.Wire
import NeutrinoMweb.VerifyUtxos
import NeutrinoMweb.Traversal
import NeutrinoMweb.TreeVerifier
import NeutrinoMweb.Accounting
import NeutrinoMweb.SecondPass
import NeutrinoMweb.AcceptedBatch
import NeutrinoMweb.Soundness
import NeutrinoMweb.Differ
import NeutrinoMweb.HeaderVerifier
import NeutrinoMweb.HonestBatch
import NeutrinoMweb.Sync
import NeutrinoMweb.CoinStore
import NeutrinoMweb.CommittedCoins
import NeutrinoMweb.LeafsetView
import NeutrinoMweb.HonestSync
import NeutrinoMweb.MerkleBlock
import NeutrinoMweb.HonestHeader
