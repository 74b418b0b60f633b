import NovaChannel.Group.Attribution
import NovaChannel.Group.Equivocation
import NovaChannel.Group.Invitation
import NovaChannel.Group.Atomicity
import NovaChannel.Group.PanicFree
import NovaChannel.Group.Healing
import NovaChannel.Group.Reuse
import NovaChannel.Group.Ordered
import NovaChannel.Ratchet.Recovery
import NovaChannel.Ratchet.Delivery
import NovaChannel.Ratchet.Rejected
import NovaChannel.Ratchet.Reassembly
import NovaChannel.Ratchet.Compromise
import NovaChannel.MultiDevice.Sync
import NovaChannel.MultiDevice.Inbox
import NovaChannel.MultiDevice.OneTime
import NovaChannel.MultiDevice.Atomic
import NovaChannel.X3dh.Secrecy
import NovaChannel.X3dh.Deniability
import NovaChannel.SealedSender.Authenticity
import NovaChannel.Rln.Membership
import NovaChannel.Transport
import NovaChannel.Canonical
import NovaChannel.SignedBytes
import NovaChannel.Handshake.Agreement
import NovaChannel.Oram.Oblivious
import NovaChannel.Oram.Verified
import NovaChannel.Oram.Retry
import NovaChannel.Oram.Attack
import NovaChannel.Oram.Encrypting
import NovaChannel.Oram.Transparent
import NovaChannel.Group.Copath
import NovaChannel.Rln.Bijection
import NovaChannel.Rln.Binding
import NovaChannel.Mpc.ThresholdKem
import NovaChannel.Mpc.Frost
import NovaChannel.Mpc.Faulty
import NovaChannel.Mpc.Abort
import NovaChannel.Transport.Generic
import NovaChannel.Handshake.Generic
import NovaChannel.Handshake.Attacked
import NovaChannel.Handshake.Secure
import NovaChannel.Handshake.Channel
import NovaChannel.Dp.Scheduler
import NovaChannel.Dp.Privacy
import NovaChannel.Dp.SizeBucketer
