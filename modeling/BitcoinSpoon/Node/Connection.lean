/-
  BitcoinSpoon.Node.Connection — the connection of a node: packets, buffers, close and
  reconnect (`code/Node.c`, `code/NodeConstants.h`).

  A run is a sequence of calls, each with what the socket answers (`sendResults`). `log` is
  a ghost: what has been built, passed to the socket, delivered and closed, oldest first.
  The callbacks are a parameter (`Environment.delegate`), and so is what a read of a
  released buffer finds (`Environment.released`); those of "addr" and "reject" hand their
  data to the database and to a queue and do nothing to the node. Fields that only record
  what a peer says (its version, its user agent, counts of pongs, errors) are left out.
-/

import BitcoinSpoon.Util.Keys

namespace BitcoinSpoon.Connection

open Wire

/-! ## Packets -/

def MAX_ALLOWED_BUFFER_BACKLOG : Nat := 10 * 1024 * 1024
def PACKETS_PER_PROCESS : Nat := 1000

def mainMagic : Bytes := [0xf9, 0xbe, 0xb4, 0xd9]
def test3Magic : Bytes := [0x0b, 0x11, 0x09, 0x07]

def magicOf (testnet : Bool) : Bytes := if testnet then test3Magic else mainMagic

/-- "version" -/
def versionCommand : Bytes := [0x76, 0x65, 0x72, 0x73, 0x69, 0x6f, 0x6e]
/-- "verack" -/
def verackCommand : Bytes := [0x76, 0x65, 0x72, 0x61, 0x63, 0x6b]
/-- "ping" -/
def pingCommand : Bytes := [0x70, 0x69, 0x6e, 0x67]
/-- "pong" -/
def pongCommand : Bytes := [0x70, 0x6f, 0x6e, 0x67]
/-- "inv", "headers", "merkleblock" and "tx": the commands whose callbacks act on the node. -/
def callbackCommands : List Bytes :=
  [[0x69, 0x6e, 0x76], [0x68, 0x65, 0x61, 0x64, 0x65, 0x72, 0x73],
    [0x6d, 0x65, 0x72, 0x6b, 0x6c, 0x65, 0x62, 0x6c, 0x6f, 0x63, 0x6b], [0x74, 0x78]]

/-- `strncpy(header.command, str, 12)` on a zeroed header. -/
def strncpy12 (str : Bytes) : Bytes := (str ++ List.replicate 12 0).take 12

/-- The characters up to the first NUL. -/
def cString (buf : Bytes) : Bytes := buf.takeWhile (· ≠ 0)

variable (c : Crypto)

/-- The first four bytes of `hash256`. -/
def checksum (payload : Bytes) : Bytes := (c.sha256 (c.sha256 payload)).take 4

def packetHeader (testnet : Bool) (str payload : Bytes) : Bytes :=
  magicOf testnet ++ (strncpy12 str ++ (uint32D payload.length ++ checksum c payload))

/-- What `nodeSend` builds. -/
def packet (testnet : Bool) (str payload : Bytes) : Bytes := packetHeader c testnet str payload ++ payload

/-! ## The node -/

inductive Happening where
  | connect
  | built (str packet : Bytes)
  | passed (ofVersionPacket : Bool) (bytes : Bytes)
  | delivered (command payload : Bytes)
  /-- The header behind the cursor was read after the buffer had been released. -/
  | readReleased
  | closed
  deriving DecidableEq

/-- What a call of `send` returns: an error other than EAGAIN, EAGAIN, or a number of bytes
    (0: the connection is closed). -/
inductive SendResult where
  | error
  | again
  | sent (bytes : Nat)

structure Node where
  testnet : Bool
  connected : Bool
  connectionReady : Bool
  verackSent : Bool
  connectAttemptCount : Nat
  /-- The attempt number of the thread that is connecting. -/
  connectThread : Option Nat
  inputBuffer : Data
  outputBuffer : Data
  versionPacket : Data
  sendResults : List SendResult
  log : List Happening

def Node.happen (node : Node) (h : Happening) : Node := { node with log := node.log ++ [h] }

/-- `NodeNew`, on the main network or not. -/
def nodeNew (testnet : Bool) : Node :=
  ⟨testnet, false, false, false, 0, none, none, none, none, [], []⟩

/-! ## Close and connect -/

def nodeReset (node : Node) : Node := { node with inputBuffer := none, outputBuffer := none, versionPacket := none }

def nodeClose (node : Node) : Node :=
  (nodeReset
    { node with
      connected := false
      connectionReady := false
      connectAttemptCount := node.connectAttemptCount + 1
      connectThread := none }).happen .closed

def nodeConnect (node : Node) : Node :=
  let node := nodeReset node
  { node with
    inputBuffer := some []
    outputBuffer := some []
    versionPacket := some []
    connectAttemptCount := node.connectAttemptCount + 1
    connectThread := some (node.connectAttemptCount + 1) }.happen .connect

/-- The end of `connectionThread`, whatever `openConnection` returned. -/
def connectionThread (node : Node) : Node :=
  match node.connectThread with
  | none => node
  | some attemptNumber =>
    if attemptNumber = node.connectAttemptCount then { node with connected := true, connectThread := none }
    else { node with connectThread := none }

/-! ## Sending -/

/-- The loop over `send`: the bytes passed, those that are left, whether the node is to be
    closed, and the results that are left. A list that has come to its end answers
    EAGAIN. -/
def sendLoop : List SendResult → Bytes → Bytes × Bytes × Bool × List SendResult
  | results, [] => ([], [], false, results)
  | [], buffer => ([], buffer, false, [])
  | .again :: results, buffer => ([], buffer, false, results)
  | .error :: results, buffer => ([], buffer, true, results)
  | .sent 0 :: results, buffer => ([], buffer, true, results)
  | .sent (n + 1) :: results, buffer =>
    let (passed, rest, close, results) := sendLoop results (buffer.drop (n + 1))
    (buffer.take (n + 1) ++ passed, rest, close, results)

/-- The first loop: `versionPacket`. -/
def sendVersionPacket (node : Node) : Node × Bool :=
  let (passed, rest, close, results) := sendLoop node.sendResults node.versionPacket.toBytes
  ({ node with versionPacket := node.versionPacket.map fun _ => rest, sendResults := results }.happen (.passed true passed),
    close)

/-- The second loop: `outputBuffer`. -/
def sendOutputBuffer (node : Node) : Node × Bool :=
  let (passed, rest, close, results) := sendLoop node.sendResults node.outputBuffer.toBytes
  ({ node with outputBuffer := node.outputBuffer.map fun _ => rest, sendResults := results }.happen (.passed false passed),
    close)

def processVersionAndOutputBuffer (node : Node) : Node :=
  if !node.connected then node
  else
    let (node, close) := sendVersionPacket node
    if close then nodeClose node
    else if node.versionPacket.length ≠ 0 || !node.verackSent then node
    else
      let (node, close) := sendOutputBuffer node
      if close then nodeClose node else node

/-- The packet put into its buffer. -/
def queuePacket (node : Node) (str payload : Bytes) : Node :=
  let header := packetHeader c node.testnet str payload
  let node := node.happen (.built str (packet c node.testnet str payload))
  -- verack jumps to the front of the line
  if str = verackCommand then
    { node with outputBuffer := some (header ++ (payload ++ node.outputBuffer.toBytes)), verackSent := true }
  else if str = versionCommand then
    { node with versionPacket := some (node.versionPacket.toBytes ++ header ++ payload) }
  else { node with outputBuffer := some (node.outputBuffer.toBytes ++ header ++ payload) }

def nodeSend (node : Node) (str : Bytes) (payload : Data) : Node :=
  if 12 < str.length then node else processVersionAndOutputBuffer (queuePacket c node str payload.toBytes)

/-! ## Receiving -/

/-- What a callback does with the node. A `Data` has a 32-bit length. -/
inductive Action where
  | send (str : Bytes) (payload : Data) (sized : payload.length < 2 ^ 32)
  | close

structure Environment where
  delegate : Node → Bytes → Bytes → List Action
  released : Bytes → Bytes
  released_length : ∀ bytes, (released bytes).length = bytes.length

/-- Callbacks that do nothing. -/
def silent : Environment := ⟨fun _ _ _ => [], id, fun _ => rfl⟩

def act (node : Node) : Action → Node
  | .send str payload _ => nodeSend c node str payload
  | .close => nodeClose node

/-- Behind the `VersionHeader` and the user agent there are 5 bytes for the
    `VersionPayload`. -/
def versionComplete (payload : Bytes) : Bool :=
  let (length, ptr) := readVarInt (payload.drop 80)
  let ptr := if ptr.length < length then ptr else ptr.drop length
  decide (5 ≤ ptr.length)

/-- What the node itself sends in reply. -/
def reply (command payload : Bytes) : Option (Bytes × Data) :=
  if command = versionCommand && 80 < payload.length then
    if versionComplete payload then some (verackCommand, none) else none
  else if command = pingCommand && 8 ≤ payload.length then some (pongCommand, some (payload.take 8))
  else none

def received (env : Environment) (node : Node) (command payload : Bytes) : Node :=
  match reply command payload with
  | some (str, data) => nodeSend c node str data
  | none =>
    if command = verackCommand then { node with connectionReady := true }
    else if command ∈ callbackCommands then (env.delegate node command payload).foldl (act c) node
    else node

/-- The loop of `processInputBuffer`, with the bytes from `ptr` to `end`. `ptr` and `end` stay
    when the buffer is released. -/
def processPackets (env : Environment) : Nat → Node → Bytes → Node × Bytes
  | 0, node, ptr => (node, ptr)
  | rounds + 1, node, ptr =>
    if ptr.length < 24 then (node, ptr)
    else
      let (node, ptr) := if node.inputBuffer = none then (node.happen .readReleased, env.released ptr) else (node, ptr)
      if ptr.take 4 ≠ magicOf node.testnet then processPackets env rounds node (ptr.drop 1)
      else
        let length := leNat ((ptr.drop 16).take 4)
        if ptr.length < 24 + length then (node, ptr)
        else
          let payload := (ptr.drop 24).take length
          let command := cString ((ptr.drop 4).take 12)
          let rest := ptr.drop (24 + length)
          if (ptr.drop 20).take 4 ≠ checksum c payload then processPackets env rounds node rest
          else processPackets env rounds (received c env (node.happen (.delivered command payload)) command payload) rest

def processInputBuffer (env : Environment) (node : Node) : Node :=
  let (node', rest) := processPackets c env PACKETS_PER_PROCESS node node.inputBuffer.toBytes
  let usedBytes := node.inputBuffer.length - rest.length
  { node' with inputBuffer := node'.inputBuffer.map (List.drop usedBytes) }

/-- What `recv` gives: bytes, the end of the stream, or an error. -/
inductive RecvResult where
  | bytes (chunk : Bytes)
  | ended
  | error

def nodeProcessRead (env : Environment) (node : Node) : RecvResult → Node
  | .bytes chunk =>
    if MAX_ALLOWED_BUFFER_BACKLOG < node.inputBuffer.length + chunk.length then nodeClose node
    else processInputBuffer c env { node with inputBuffer := some (node.inputBuffer.toBytes ++ chunk) }
  | .ended => nodeClose node
  | .error => nodeClose node

end BitcoinSpoon.Connection
