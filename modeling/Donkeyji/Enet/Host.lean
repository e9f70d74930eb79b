/-
Donkeyji.Enet.Host — the hosts and peers of `cs/my_enet` (list.c, peer.c,
host.c, protocol.c).

The list nodes lie in memory: the sentinels in the array of peers and in the
arrays of channels, the others at the beginning of what `enet_malloc` gave.
Which address it gives is an input. `none` is undefined behaviour: a node that
is not there, memory freed twice, an index outside a table.

Left out are the socket calls of `enet_host_create`, which are taken to
succeed, and `enet_packet_destroy`, which is empty. Packets are the caller's.
-/
import Mathlib.Tactic

namespace Donkeyji.Enet

/-- The lists of an `ENetPeer`. -/
inductive PeerList where
  | acknowledgements
  | outgoingReliableCommands
  | outgoingUnreliableCommands
  | sentReliableCommands
  | sentUnreliableCommands
deriving DecidableEq, Repr

/-- The lists of an `ENetChannel`. -/
inductive ChannelList where
  | incomingReliableCommands
  | incomingUnreliableCommands
deriving DecidableEq, Repr

/-- A pointer to an `ENetListNode`: a sentinel of a peer, a sentinel of the channel `i` in an array,
or the beginning of something else that is allocated. -/
inductive NodePtr where
  | peer (i : Nat) (l : PeerList)
  | channel (array i : Nat) (l : ChannelList)
  | block (addr : Nat)
deriving DecidableEq, Repr

/-- `ENetListNode`. -/
structure ListNode where
  next : NodePtr
  previous : NodePtr
deriving DecidableEq, Repr

/-- `ENetProtocolCommandHeader`. -/
structure ProtocolCommandHeader where
  command : UInt8
  channelID : UInt8
  reliableSequenceNumber : UInt16
deriving DecidableEq, Repr

/-- `ENetProtocol`, which has the fields of `ENetProtocolConnect`. -/
structure Protocol where
  header : ProtocolCommandHeader
  windowSize : UInt32
  channelCount : UInt32
  sessionID : UInt32
deriving DecidableEq, Repr

/-- `ENetOutgoingCommand` behind its list node. A packet is named by its address. -/
structure OutgoingCommand where
  reliableSequenceNumber : UInt16
  unreliableSequenceNumber : UInt16
  sentTime : UInt32
  roundTripTimeout : UInt32
  roundTripTimeoutLimit : UInt32
  fragmentOffset : UInt32
  fragmentLength : UInt32
  sendAttempts : UInt32
  command : Protocol
  packet : Option Nat
deriving DecidableEq, Repr

/-- `ENetChannel` without its lists. -/
structure Channel where
  outgoingReliableSequenceNumber : UInt16
  incomingReliableSequenceNumber : UInt16
deriving DecidableEq, Repr

/-- What `enet_malloc` was called for. An incoming command has a packet and fragments. -/
inductive Block where
  | acknowledgement
  | outgoingCommand (c : OutgoingCommand)
  | incomingCommand (packet fragments : Option Nat)
  | fragments
  | channels (cs : List Channel)
deriving DecidableEq, Repr

/-- `ENetPeerState`, as far as it is used. -/
inductive PeerState where
  | disconnected
  | connecting
deriving DecidableEq, Repr

/-- `ENetAddress`. -/
structure Address where
  host : UInt32
  port : UInt32
deriving DecidableEq, Repr

/-- `ENetPeer` without its lists. The array of peers is cleared at first. -/
structure Peer where
  outgoingPeerID : UInt16 := 0
  incomingPeerID : UInt16 := 0
  sessionID : UInt32 := 0
  address : Address := ⟨0, 0⟩
  state : PeerState := .disconnected
  channels : Option Nat := none
  channelCount : Nat := 0
  incomingDataTotal : UInt32 := 0
  outgoingDataTotal : UInt32 := 0
  lastSendTime : UInt32 := 0
  lastReceiveTime : UInt32 := 0
  nextTimeout : UInt32 := 0
  earliestTimeout : UInt32 := 0
  packetLossEpoch : UInt32 := 0
  packetSent : UInt32 := 0
  packetLost : UInt32 := 0
  packetLoss : UInt32 := 0
  packetLossVariance : UInt32 := 0
  lastRoundTripTime : UInt32 := 0
  lowestRoundTripTime : UInt32 := 0
  lastRoundTripTimeVariance : UInt32 := 0
  highestRoundTripTimeVariance : UInt32 := 0
  roundTripTime : UInt32 := 0
  roundTripTimeVariance : UInt32 := 0
  windowSize : UInt32 := 0
  reliableDataInTransit : UInt32 := 0
  outgoingReliableSequenceNumber : UInt16 := 0
deriving DecidableEq, Repr

/-- An `ENetHost` and the memory around it: the list nodes, what is allocated, and the
`referenceCount` of the packets. -/
structure Host where
  links : NodePtr → ListNode
  blocks : Nat → Option Block
  referenceCount : Nat → Nat
  peers : List Peer
  outgoingBandwidth : UInt32

/-- A list node is at the beginning of it. -/
def Block.isNode : Block → Bool
  | .acknowledgement | .outgoingCommand _ | .incomingCommand _ _ => true
  | .fragments | .channels _ => false

namespace Host

/-! ## Memory -/

/-- There is a list node. -/
def isNode (h : Host) : NodePtr → Bool
  | .peer i _ => i < h.peers.length
  | .channel array i _ =>
    match h.blocks array with
    | some (.channels cs) => i < cs.length
    | _ => false
  | .block addr => (h.blocks addr).any Block.isNode

/-- Read a node. -/
def load (h : Host) (p : NodePtr) : Option ListNode := if h.isNode p then some (h.links p) else none

/-- Write a node. -/
def store (h : Host) (p : NodePtr) (n : ListNode) : Option Host :=
  if h.isNode p then some { h with links := Function.update h.links p n } else none

/-- `p->next = v`. -/
def setNext (h : Host) (p v : NodePtr) : Option Host := do
  let n ← h.load p
  h.store p { n with next := v }

/-- `p->previous = v`. -/
def setPrevious (h : Host) (p v : NodePtr) : Option Host := do
  let n ← h.load p
  h.store p { n with previous := v }

/-- `enet_malloc` gave the address. -/
def malloc (h : Host) (addr : Nat) (b : Block) : Host :=
  { h with blocks := Function.update h.blocks addr (some b) }

/-- `enet_free`. -/
def free (h : Host) (addr : Nat) : Option Host :=
  match h.blocks addr with
  | some _ => some { h with blocks := Function.update h.blocks addr none }
  | none => none

/-- `enet_free` of what `enet_list_remove` returned. -/
def freeNode (h : Host) : NodePtr → Option Host
  | .block addr => h.free addr
  | _ => none

/-! ## list.c -/

/-- `enet_list_clear`. -/
def listClear (h : Host) (list : NodePtr) : Option Host := do
  let h ← h.setNext list list
  h.setPrevious list list

/-- `enet_list_remove`. -/
def listRemove (h : Host) (position : NodePtr) : Option (NodePtr × Host) := do
  let n ← h.load position
  let h ← h.setNext n.previous n.next
  let n ← h.load position
  let h ← h.setPrevious n.next n.previous
  return (position, h)

/-- `enet_list_insert`. -/
def listInsert (h : Host) (position data : NodePtr) : Option Host := do
  let n ← h.load position
  let h ← h.setPrevious data n.previous
  let h ← h.setNext data position
  let r ← h.load data
  let h ← h.setNext r.previous data
  h.setPrevious position data

/-! ## peer.c -/

/-- `--packet->referenceCount`. At 0 the packet is destroyed, which does nothing. -/
def release (h : Host) : Option Nat → Host
  | none => h
  | some packet =>
    let count := (h.referenceCount packet + (2 ^ 64 - 1)) % 2 ^ 64
    { h with referenceCount := Function.update h.referenceCount packet count }

/-- `++packet->referenceCount`. -/
def hold (h : Host) : Option Nat → Host
  | none => h
  | some packet =>
    let count := (h.referenceCount packet + 1) % 2 ^ 64
    { h with referenceCount := Function.update h.referenceCount packet count }

/-- The loop `while (!enet_list_empty(queue))` with `enet_list_remove(enet_list_begin(queue))` in
front of its body. -/
def untilEmpty (body : Host → NodePtr → Option Host) (queue : NodePtr) : Nat → Host → Option Host
  | 0, _ => none
  | fuel + 1, h => do
    let n ← h.load queue
    if n.next = queue then some h
    else
      let (node, h) ← h.listRemove n.next
      let h ← body h node
      untilEmpty body queue fuel h

/-- The body of `enet_peer_reset_outgoing_commands`. -/
def dropOutgoing (h : Host) (node : NodePtr) : Option Host :=
  match node with
  | .block addr =>
    match h.blocks addr with
    | some (.outgoingCommand c) => (h.release c.packet).free addr
    | _ => none
  | _ => none

/-- The body of `enet_peer_reset_incoming_commands`. -/
def dropIncoming (h : Host) (node : NodePtr) : Option Host :=
  match node with
  | .block addr =>
    match h.blocks addr with
    | some (.incomingCommand packet fragments) => do
      let h ← match fragments with
        | none => some (h.release packet)
        | some fragments => (h.release packet).free fragments
      h.free addr
    | _ => none
  | _ => none

/-- `enet_peer_reset_outgoing_commands`. -/
def resetOutgoingCommands (fuel : Nat) (h : Host) (queue : NodePtr) : Option Host :=
  untilEmpty dropOutgoing queue fuel h

/-- `enet_peer_reset_incoming_commands`. -/
def resetIncomingCommands (fuel : Nat) (h : Host) (queue : NodePtr) : Option Host :=
  untilEmpty dropIncoming queue fuel h

/-- The peer `i` is changed. -/
def setPeer (h : Host) (i : Nat) (p : Peer) : Host := { h with peers := h.peers.set i p }

/-- The lists of a channel in `enet_peer_reset_queues`. -/
def resetChannel (fuel array : Nat) (h : Host) (i : Nat) : Option Host := do
  let h ← h.resetIncomingCommands fuel (.channel array i .incomingReliableCommands)
  h.resetIncomingCommands fuel (.channel array i .incomingUnreliableCommands)

/-- The channels in `enet_peer_reset_queues`: their lists, then the array. -/
def resetChannels (fuel : Nat) (h : Host) (p : Peer) : Option Host :=
  match p.channels with
  | some array =>
    if 0 < p.channelCount then do
      let h ← (List.range p.channelCount).foldlM (resetChannel fuel array) h
      h.free array
    else some h
  | none => some h

/-- `enet_peer_reset_queues`. -/
def peerResetQueues (fuel : Nat) (h : Host) (i : Nat) : Option Host := do
  let h ← untilEmpty freeNode (.peer i .acknowledgements) fuel h
  let h ← h.resetOutgoingCommands fuel (.peer i .sentReliableCommands)
  let h ← h.resetOutgoingCommands fuel (.peer i .sentUnreliableCommands)
  let h ← h.resetOutgoingCommands fuel (.peer i .outgoingReliableCommands)
  let h ← h.resetOutgoingCommands fuel (.peer i .outgoingUnreliableCommands)
  let p ← h.peers[i]?
  let h ← h.resetChannels fuel p
  return h.setPeer i { p with channels := none, channelCount := 0 }

/-- `ENET_PROTOCOL_MAXIMUM_PEER_ID`. -/
def maximumPeerId : Nat := 0x7FFF

/-- What `enet_peer_reset` sets before it calls `enet_peer_reset_queues`. -/
def resetFields (p : Peer) : Peer :=
  { p with
    outgoingPeerID := maximumPeerId.toUInt16
    state := .disconnected
    incomingDataTotal := 0
    outgoingDataTotal := 0
    lastSendTime := 0
    lastReceiveTime := 0
    nextTimeout := 0
    earliestTimeout := 0
    packetLossEpoch := 0
    packetSent := 0
    packetLost := 0
    packetLoss := 0
    packetLossVariance := 0
    lastRoundTripTime := 500
    lowestRoundTripTime := 500
    lastRoundTripTimeVariance := 0
    highestRoundTripTimeVariance := 0
    roundTripTime := 500
    roundTripTimeVariance := 0
    reliableDataInTransit := 0 }

/-- `enet_peer_reset`. -/
def peerReset (fuel : Nat) (h : Host) (i : Nat) : Option Host := do
  let p ← h.peers[i]?
  (h.setPeer i (resetFields p)).peerResetQueues fuel i

/-- `commandSize`, with the size of an `ENetProtocolConnect` behind a single 0. -/
def commandSize : List UInt32 := [0, 16, 0, 0, 0, 0, 0, 0, 0, 0, 0, 0]

/-- `enet_protocol_command_size`. -/
def protocolCommandSize (commandNumber : UInt8) : Option UInt32 :=
  commandSize[(commandNumber &&& 0x0f).toNat]?

/-- `htons`, where the low byte comes first. -/
def hostToNet16 (x : UInt16) : UInt16 := x <<< 8 ||| x >>> 8

/-- `htonl`. -/
def hostToNet32 (x : UInt32) : UInt32 :=
  let low := (x <<< 24 : UInt32) ||| ((x <<< 8 : UInt32) &&& (0xff0000 : UInt32))
  low ||| ((x >>> 8 : UInt32) &&& (0xff00 : UInt32)) ||| (x >>> 24 : UInt32)

/-- The command that `enet_peer_queue_outgoing_command` makes in memory that held `raw`, when the
peer's sequence number is `number` already. -/
def makeCommand (raw : OutgoingCommand) (number : UInt16) (command : Protocol)
    (packet : Option Nat) (offset : UInt32) (length : UInt16) : OutgoingCommand :=
  let reliable := if command.header.channelID = 0xff then number else raw.reliableSequenceNumber
  { raw with
    reliableSequenceNumber := reliable
    unreliableSequenceNumber :=
      if command.header.channelID = 0xff then 0 else raw.unreliableSequenceNumber
    sentTime := 0
    roundTripTimeout := 0
    roundTripTimeoutLimit := 0
    fragmentOffset := offset
    fragmentLength := length.toUInt32
    packet := packet
    command := { command with
      header := { command.header with reliableSequenceNumber := hostToNet16 reliable } } }

/-- The list for a command: `ENET_PROTOCOL_COMMAND_FLAG_ACKNOWLEDGE` decides. -/
def listOf (command : Protocol) : PeerList :=
  if command.header.command &&& 0x80 ≠ 0 then .outgoingReliableCommands
  else .outgoingUnreliableCommands

/-- The peer with the next sequence number and the new total. -/
def countCommand (p : Peer) (command : Protocol) (size : UInt32) (length : UInt16) : Peer :=
  { p with
    outgoingDataTotal := p.outgoingDataTotal + (size + length.toUInt32)
    outgoingReliableSequenceNumber :=
      if command.header.channelID = 0xff then p.outgoingReliableSequenceNumber + 1
      else p.outgoingReliableSequenceNumber }

/-- `enet_peer_queue_outgoing_command`; what it returns is not used. -/
def queueOutgoingCommand (h : Host) (i : Nat) (command : Protocol) (packet : Option Nat)
    (offset : UInt32) (length : UInt16) (addr : Nat) (raw : OutgoingCommand) : Option Host := do
  let p ← h.peers[i]?
  let size ← protocolCommandSize command.header.command
  let p := countCommand p command size length
  let c := makeCommand raw p.outgoingReliableSequenceNumber command packet offset length
  let h := ((h.setPeer i p).malloc addr (.outgoingCommand c)).hold packet
  h.listInsert (.peer i (listOf command)) (.block addr)

/-! ## host.c -/

/-- The fields and lists that the loop of `enet_host_create` sets in a peer. -/
def createPeer (h : Host) (i : Nat) : Option Host := do
  let p ← h.peers[i]?
  let h := h.setPeer i { p with incomingPeerID := i.toUInt16 }
  let h ← h.listClear (.peer i .acknowledgements)
  let h ← h.listClear (.peer i .outgoingReliableCommands)
  let h ← h.listClear (.peer i .outgoingUnreliableCommands)
  let h ← h.listClear (.peer i .sentReliableCommands)
  let h ← h.listClear (.peer i .sentUnreliableCommands)
  h.peerReset 1 i

/-- `enet_host_create`, in a memory without anything: `none` inside is NULL. -/
def create (links : NodePtr → ListNode) (referenceCount : Nat → Nat) (peerCount : Nat)
    (outgoingBandwidth : UInt32) : Option (Option Host) :=
  if maximumPeerId < peerCount then some none
  else
    let host : Host :=
      ⟨links, fun _ => none, referenceCount, List.replicate peerCount {}, outgoingBandwidth⟩
    ((List.range peerCount).foldlM createPeer host).map some

/-- The window size of a peer that `enet_host_connect` connects. -/
def windowSizeFor (outgoingBandwidth : UInt32) : UInt32 :=
  let size := if outgoingBandwidth = 0 then 32768 else outgoingBandwidth / 65536 * 4096
  if size < 4096 then 4096 else if 32768 < size then 32768 else size

/-- The command that `enet_host_connect` queues. -/
def connectCommand (p : Peer) (channelCount : Nat) : Protocol where
  header := ⟨2, 0xff, 0⟩
  windowSize := hostToNet32 p.windowSize
  channelCount := hostToNet32 channelCount.toUInt32
  sessionID := p.sessionID

/-- `channelCount` within its bounds. -/
def clampChannels (channelCount : Nat) : Nat :=
  if channelCount < 1 then 1 else if 255 < channelCount then 255 else channelCount

/-- The peer that `enet_host_connect` takes. -/
def connecting (p : Peer) (outgoingBandwidth : UInt32) (address : Address) (channelCount : Nat)
    (rand : UInt32) (channels : Nat) : Peer :=
  { p with
    state := .connecting
    address := address
    channels := some channels
    channelCount := channelCount
    sessionID := rand
    windowSize := windowSizeFor outgoingBandwidth }

/-- The lists of a new channel are cleared. -/
def clearChannel (channels : Nat) (h : Host) (i : Nat) : Option Host := do
  let h ← h.listClear (.channel channels i .incomingReliableCommands)
  h.listClear (.channel channels i .incomingUnreliableCommands)

/-- The loop over the new channels; the numbers in them are 0. -/
def clearChannels (h : Host) (channels channelCount : Nat) : Option Host :=
  (List.range channelCount).foldlM (clearChannel channels) h

/-- `enet_host_connect`: the peer, or `none` inside for NULL. -/
def connect (h : Host) (address : Address) (channelCount : Nat) (rand : UInt32)
    (channels command : Nat) (raw : OutgoingCommand) : Option (Option Nat × Host) :=
  let channelCount := clampChannels channelCount
  match h.peers.findIdx? (·.state = .disconnected) with
  | none => some (none, h)
  | some i => do
    let p ← h.peers[i]?
    let p := connecting p h.outgoingBandwidth address channelCount rand channels
    let h := (h.malloc channels (.channels (List.replicate channelCount ⟨0, 0⟩))).setPeer i p
    let h ← h.clearChannels channels channelCount
    let h ← h.queueOutgoingCommand i (connectCommand p channelCount) none 0 0 command raw
    return (some i, h)

end Host

/-! ## Runs -/

/-- A command in a list, with the peer and the list it was queued in and its address. -/
structure Queued where
  peer : Nat
  list : PeerList
  addr : Nat
  command : OutgoingCommand

/-- It is in that list. -/
def Queued.isIn (c : Queued) (i : Nat) (l : PeerList) : Bool := c.peer = i ∧ c.list = l

/-- A program on a host, and the commands queued since the last reset of their peers. -/
structure HostRun where
  host : Host
  queued : List Queued

/-- The calls that a program makes, with the answers of `enet_malloc` and `enet_rand`. -/
inductive HostAct where
  | connect (address : Address) (channelCount : Nat) (rand : UInt32) (channels command : Nat)
      (raw : OutgoingCommand)
  | queue (i : Nat) (command : Protocol) (packet : Option Nat) (offset : UInt32) (length : UInt16)
      (addr : Nat) (raw : OutgoingCommand)
  | reset (i fuel : Nat)

/-- What a call of `enet_peer_queue_outgoing_command` queues. -/
def Host.queuedBy (h : Host) (i : Nat) (command : Protocol) (packet : Option Nat) (offset : UInt32)
    (length : UInt16) (addr : Nat) (raw : OutgoingCommand) : List Queued :=
  match h.peers[i]? with
  | none => []
  | some p =>
    let number := (Host.countCommand p command 0 length).outgoingReliableSequenceNumber
    [⟨i, Host.listOf command, addr, Host.makeCommand raw number command packet offset length⟩]

/-- A call. -/
def hostStep (s : HostRun) : HostAct → Option HostRun
  | .connect address channelCount rand channels command raw => do
    let (r, host) ← s.host.connect address channelCount rand channels command raw
    match r with
    | none => return { s with host }
    | some i =>
      let p ← host.peers[i]?
      return { host, queued := s.queued ++
        [⟨i, .outgoingUnreliableCommands, command, Host.makeCommand raw
          p.outgoingReliableSequenceNumber (Host.connectCommand p p.channelCount) none 0 0⟩] }
  | .queue i command packet offset length addr raw => do
    let host ← s.host.queueOutgoingCommand i command packet offset length addr raw
    return { host, queued := s.queued ++
      s.host.queuedBy i command packet offset length addr raw }
  | .reset i fuel => do
    let host ← s.host.peerReset fuel i
    return { host, queued := s.queued.filter (·.peer ≠ i) }

/-- `enet_malloc` gives what is free, a peer is one of the host, a command has an entry in
`commandSize`, and a reset has turns for all that is queued. -/
def HostOk (s : HostRun) : HostAct → Prop
  | .connect _ _ _ channels command _ =>
    s.host.blocks channels = none ∧ s.host.blocks command = none ∧ channels ≠ command
  | .queue i command _ _ _ addr _ =>
    i < s.host.peers.length ∧ (command.header.command &&& 0x0f).toNat < 12 ∧
      s.host.blocks addr = none
  | .reset i fuel => i < s.host.peers.length ∧ s.queued.length < fuel

instance (s : HostRun) (a : HostAct) : Decidable (HostOk s a) := by
  cases a <;> unfold HostOk <;> infer_instance

end Donkeyji.Enet
