import LcClibs.Buffer.Encodings
import LcClibs.Packet.Cursors
import LcClibs.Packet.Frames
import LcClibs.Packet.Lengths
import LcClibs.Packet.Stream
import LcClibs.Memory.Safety
import LcClibs.Memory.Exhaustion
import LcClibs.Memory.Autorelease
import LcClibs.Memory.Sizes
import LcClibs.Memory.Sweep
import LcClibs.Mmo.Accounts
import LcClibs.Mmo.Compare
import LcClibs.Mmo.Dispatch
import LcClibs.Mmo.FiniteMap
import LcClibs.Mmo.Identity
import LcClibs.Mmo.Kinds
import LcClibs.Mmo.Leftovers
import LcClibs.Mmo.Unfinished
import LcClibs.Pack.Tables
import LcClibs.Pack.Acceptance
import LcClibs.Pack.HalfBuilt
import LcClibs.Pack.Refusal
import LcClibs.Pack.Canonicity
import LcClibs.Pack.Cleanup
import LcClibs.Hash.Guarantees
import LcClibs.Hash.MapTable
import LcClibs.Slots.Accounting
import LcClibs.Slots.MMList
import LcClibs.Mmo.Collection
import LcClibs.Pack.Repack
import LcClibs.Packet.Windows
