import Talkrypt.Lib.Bytes
import Talkrypt.Lib.Closure
import Talkrypt.Lib.Except
import Talkrypt.Lib.Run
import Talkrypt.Lib.Table
import Talkrypt.Wire
import Talkrypt.Crypto.Primitives
import Talkrypt.Crypto.Hybrid
import Talkrypt.Crypto.Ratchet.Session
import Talkrypt.Crypto.Ratchet.Chains
import Talkrypt.Crypto.Ratchet.Ledger
import Talkrypt.Crypto.Ratchet.Receive
import Talkrypt.Crypto.Ratchet.Send
import Talkrypt.Crypto.Ratchet.Ends
import Talkrypt.Crypto.Ratchet.Network
import Talkrypt.Crypto.Ratchet.Ideal
import Talkrypt.Crypto.Ratchet.Delivery
import Talkrypt.Crypto.TreeKem.Node
import Talkrypt.Crypto.TreeKem.Scheme
import Talkrypt.Crypto.TreeKem.Messages
import Talkrypt.Crypto.TreeKem.Group
import Talkrypt.Crypto.TreeKem.Tree
import Talkrypt.Crypto.TreeKem.UpdatePath
import Talkrypt.Crypto.TreeKem.Member
import Talkrypt.Crypto.TreeKem.Host
import Talkrypt.Crypto.TreeKem.World
import Talkrypt.Crypto.TreeKem.Agreement
import Talkrypt.Crypto.TreeKem.LeafKeys
import Talkrypt.Crypto.TreeKem.Knowledge
import Talkrypt.Crypto.TreeKem.Secrecy
import Talkrypt.Crypto.TreeKem.Copath
import Talkrypt.Crypto.Account
import Talkrypt.Core.Promote
import Talkrypt.Core.Engine
import Talkrypt.Core.Roster
import Talkrypt.Core.Seen
import Talkrypt.Crypto.TreeKem.GroupMessage
import Talkrypt.Core.Marking
import Talkrypt.Core.Gossip
import Talkrypt.Core.Node
import Talkrypt.Core.Consent
import Talkrypt.Core.Announce
import Talkrypt.Core.Retention
import Talkrypt.Core.LeafAccounts
import Talkrypt.Core.Commits
import Talkrypt.Core.CatchUp
import Talkrypt.Core.Joins
import Talkrypt.Core.Redelivery
import Talkrypt.Crypto.TreeKem.Epochs
import Talkrypt.Lib.KeyChain
import Talkrypt.Crypto.SenderKey
import Talkrypt.Crypto.Noise
import Talkrypt.Crypto.Mls.TreeMath
import Talkrypt.Crypto.SkippedKeys
import Talkrypt.Crypto.TreeKem.FailedDecrypt
import Talkrypt.Crypto.TreeKem.FailedCommit
import Talkrypt.Core.BadWelcome
import Talkrypt.Core.Frames
import Talkrypt.Lib.Shelf
import Talkrypt.Core.Outbox
import Talkrypt.Core.Keeper
import Talkrypt.Core.Access
import Talkrypt.Core.ReaderLoop
import Talkrypt.Core.Handshake
import Talkrypt.Core.Presence
import Talkrypt.Core.Vouch
import Talkrypt.Core.Transcripts
import Talkrypt.Core.Agreement
import Talkrypt.Core.VouchOverride
import Talkrypt.Core.Linkage
import Talkrypt.Core.VouchLedger
import Talkrypt.Core.VouchDelivery
import Talkrypt.Core.VouchFreshness
import Talkrypt.Core.GossipClock
import Talkrypt.Core.Payloads
import Talkrypt.Core.NameBook
import Talkrypt.Core.Descriptor
import Talkrypt.Core.ChatContext
import Talkrypt.Crypto.TreeKem.GroupDelivery
import Talkrypt.Core.Relay
import Talkrypt.Lib.Slots
import Talkrypt.Transport.Frag
import Talkrypt.Transport.Reassembler
import Talkrypt.Transport.Reassembly
import Talkrypt.Core.MeshMessaging
import Talkrypt.Crypto.TreeKem.Padding
import Talkrypt.Core.Lockout
import Talkrypt.Core.Sybil
import Talkrypt.Core.Reconnect
import Talkrypt.Core.Invite
import Talkrypt.Core.InviteCodec
import Talkrypt.Lib.SlidingWindow
import Talkrypt.Transport.Pacing
import Talkrypt.Helper.KeyStore
import Talkrypt.Helper.KeyCopies
import Talkrypt.Helper.KeyStoreCalls
import Talkrypt.Core.Linking
import Talkrypt.Core.Registry
import Talkrypt.Lib.Framing
import Talkrypt.Transport.Deframe
import Talkrypt.Lib.Varint
import Talkrypt.Transport.Meshtastic
import Talkrypt.Transport.MeshStream
import Talkrypt.Transport.MeshLink
import Talkrypt.Transport.MeshDial
import Talkrypt.Core.Pending
import Talkrypt.Transport.MeshFresh
