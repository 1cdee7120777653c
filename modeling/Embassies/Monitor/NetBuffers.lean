import Embassies.Lib.LittleEndian
import Embassies.Monitor.GuestMemory
import Embassies.Net.IpPacket

/-! The net buffers of a guest: `NetBufferTable` and the calls of `ZoogVCPU` that use it.

    A net buffer is a memory slot, whose first bytes say where in it the buffer that the guest knows starts.
    The slot belongs to the allocator, which deletes it with its last page; the table keeps a pointer to it.
    Following that pointer after the slot was deleted is a fault here. A long message comes from the
    coordinator in a mapping of its own size; its references, and the message that gives it back to the
    coordinator, are left out. -/

namespace Embassies.Monitor

open Utils Net Function

/-- `KvmNetBufferContainer::PADDING`. -/
def netBufferPadding : ℕ := 0x10

/-- `sizeof(ZoogNetBuffer)`. -/
def sizeofZoogNetBuffer : ℕ := 4

/-- `ZK_SMALL_MESSAGE_LIMIT`. -/
def zkSmallMessageLimit : ℕ := 70000

/-- `sizeof(CMDeliverPacket)`. -/
def sizeofCMDeliverPacket : ℕ := 8

/-- `sizeof(CMDeliverPacketLong)`. -/
def sizeofCMDeliverPacketLong : ℕ := 20

/-- `NetBuffer`; of the allocation of a long message, whether there is one. -/
structure NetBuffer where
  guestAddr : ℕ
  memSlot : ℕ
  lma : Bool
  deriving DecidableEq, Repr

/-- What `send_packet` meets outside the table: the memory of the monitor, where the guest has written what it
    likes into its own part, the longest message that the socket takes, and the length of the marshalled
    identifier of a long message. -/
structure Host where
  memory : ℕ → UInt8
  mapped : ℕ → Bool
  sendLimit : ℕ
  idLen : ℕ

namespace Host

/-- The bytes at an address. -/
def bytes (host : Host) (addr len : ℕ) : Bytes := (List.range len).map fun i => host.memory (addr + i)

def covers (host : Host) (addr len : ℕ) : Bool := (List.range len).all fun i => host.mapped (addr + i)

/-- A word at an address. -/
def word (host : Host) (addr : ℕ) : Checked ℕ :=
  if host.covers addr 4 = true then .ok (ofLE (host.bytes addr 4)) else .error .outOfRange

/-- `write` and `writev` to the socket, of a header and bytes from an address: the whole message, or nothing if
    some of the bytes are not there or the message is too long. -/
def writev (host : Host) (header addr len : ℕ) : ℤ :=
  if host.covers addr len = true ∧ header + len ≤ host.sendLimit then header + len else -1

end Host

/-- A packet from the coordinator: its size, or the size of the mapping of a long message and the padding
    that its sender wrote into it. -/
inductive Packet where
  | short (size : ℕ)
  | long (mappedSize padding : ℕ)
  deriving DecidableEq, Repr

/-- Guest memory, the table of net buffers by guest address, and the slots of those that were deleted. -/
structure NetBufferTable where
  vm : GuestMemory
  table : ℕ → Option NetBuffer
  deleted : List ℕ

namespace NetBufferTable

def new (vm : GuestMemory) : NetBufferTable := ⟨vm, fun _ => none, []⟩

/-- `update_with_mapped_data()` and `hash_table_insert(&ht, result)`: the table and the capacity. -/
def register (s : NetBufferTable) (memSlot padding : ℕ) (lma : Bool) : Checked (NetBufferTable × ℕ) := do
  let slot ← s.vm.memSlotAt memSlot
  let size ← slot.getSize
  let start ← slot.getGuestAddr
  let guestAddr := u32 (start + padding)
  liteAssert ((s.table guestAddr).isNone = true)
  pure ({ s with table := update s.table guestAddr (some ⟨guestAddr, memSlot, lma⟩) }, sub32 size padding)

/-- `NetBufferTable::alloc_net_buffer(payload_size)`: the capacity, or nothing when it returns `NULL`. -/
def allocNetBuffer (s : NetBufferTable) (payloadSize : ℕ) : Checked (NetBufferTable × Option ℕ) := do
  let memRequired := u32 (payloadSize + sizeofZoogNetBuffer + netBufferPadding)
  match ← s.vm.allocateGuestMemory memRequired with
  | (vm, none) => pure ({ s with vm }, none)
  | (vm, some memSlot) => do
    let (s, capacity) ← register { s with vm } memSlot netBufferPadding false
    pure (s, some capacity)

/-- `NetBufferTable::install_net_buffer(lma, is_new_buffer)`, for a mapping of that size with that padding in
    it, which is the right one in a new buffer. -/
def installNetBuffer (s : NetBufferTable) (mappedSize padding : ℕ) : Checked (NetBufferTable × ℕ) := do
  match ← s.vm.allocateGuestMemory mappedSize with
  | (_, none) => .error .liteAssert   -- now we're leaking the LMA
  | (vm, some memSlot) => do
    liteAssert (padding = netBufferPadding)
    register { s with vm } memSlot padding true

/-- `NetBufferTable::free_net_buffer(net_buffer)`. -/
def freeNetBuffer (s : NetBufferTable) (netBuffer : NetBuffer) : Checked NetBufferTable := do
  liteAssert ((s.table netBuffer.guestAddr).isSome = true)
  let slot ← s.vm.memSlotAt netBuffer.memSlot
  let start ← slot.getGuestAddr
  let size ← slot.getSize
  let vm ← s.vm.freeGuestMemory start size
  pure
    { vm
      table := update s.table netBuffer.guestAddr none
      deleted := s.deleted ++ [netBuffer.memSlot] }

/-- `CoordinatorConnection::send_packet(nb)`. The padding, the capacity and the packet are read from memory that
    the guest can write. A failed `SAFETY_CHECK` ends the call. -/
def sendPacket (s : NetBufferTable) (nb : NetBuffer) (fuel : ℕ) (host : Host) : Checked Unit := do
  let slot ← s.vm.memSlotAt nb.memSlot
  let container ← slot.getHostAddr
  let padding ← host.word container
  let znb := u32 (container + padding)
  let size ← slot.getSize
  let trustedCapacity := sub32 size padding
  let data := u32 (znb + sizeofZoogNetBuffer)
  let info ← decodeIpPacket fuel (host.bytes data trustedCapacity)
  if info.packetValid = false then pure () else do
  let capacity ← host.word znb
  if trustedCapacity < capacity then pure ()   -- something stomped!
  else if trustedCapacity < info.packetLength then pure ()   -- need to implement big-packet transfer
  else if nb.lma = true then
    let totalLen := host.idLen + sizeofCMDeliverPacketLong
    liteAssert (host.writev totalLen 0 0 = totalLen)
  else
    liteAssert (host.writev sizeofCMDeliverPacket data info.packetLength =
      int32 (u32 (sizeofCMDeliverPacket + info.packetLength)))

/-- A call of the guest. -/
inductive Call where
  | allocateMemory (length : ℕ)
  | freeMemory (pointer length : ℕ)
  | allocNetBuffer (payloadSize : ℕ)
  | receiveNetBuffer (packet : Packet)
  | sendNetBuffer (znb : ℕ) (release : Bool) (fuel : ℕ) (host : Host)
  | freeNetBuffer (znb : ℕ)

/-- `receive_net_buffer`, with the packet that is dequeued. -/
def receiveNetBuffer (s : NetBufferTable) : Packet → Checked NetBufferTable
  | .short size => do
    match ← s.allocNetBuffer size with
    | (_, none) => .error .liteAssert   -- handle this case -- what, un-dequeue the packet?
    | (s, some capacity) => do
      liteAssert (size ≤ capacity)
      pure s
  | .long mappedSize padding => do
    let (s, _) ← s.installNetBuffer mappedSize padding
    pure s

def call (s : NetBufferTable) : Call → Checked NetBufferTable
  | .allocateMemory length => do
    let (vm, _) ← s.vm.allocateGuestMemory length
    pure { s with vm }
  | .freeMemory pointer length => do
    let vm ← s.vm.freeGuestMemory pointer length
    pure { s with vm }
  | .allocNetBuffer requestSize =>
    if requestSize ≤ zkSmallMessageLimit then do
      match ← s.allocNetBuffer requestSize with
      | (s, none) => pure s
      | (s, some capacity) => do
        liteAssert (requestSize ≤ capacity)
        pure s
    else do
      let requiredSize := u32 (requestSize + sizeofZoogNetBuffer)
      let (s, capacity) ← s.installNetBuffer (u32 (requiredSize + netBufferPadding)) netBufferPadding
      liteAssert (requestSize ≤ capacity)
      pure s
  | .receiveNetBuffer packet => s.receiveNetBuffer packet
  | .sendNetBuffer znb release fuel host =>
    match s.table znb with
    | none => .error .liteAssert
    | some nb => do
      s.sendPacket nb fuel host
      if release = true then s.freeNetBuffer nb else pure s
  | .freeNetBuffer znb =>
    match s.table znb with
    | none => pure s
    | some nb => s.freeNetBuffer nb

end NetBufferTable

end Embassies.Monitor
