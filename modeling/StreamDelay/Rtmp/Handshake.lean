import Mathlib.Tactic.Common
import StreamDelay.Rtmp.Chunk

/-! # The simple RTMP handshake

Each side sends a version byte and a random packet, and echoes the other's packet. Bytes come in pieces of any
size; those behind the handshake belong to the chunk stream.
-/

namespace StreamDelay.Rtmp

def RTMP_VERSION : UInt8 := 3

def HANDSHAKE_SIZE : ℕ := 1536

/-- The version byte is not one that is supported. -/
inductive HandshakeError where
  | unsupportedVersion (version : UInt8)
deriving DecidableEq, Repr

/-- What comes of feeding bytes into a handshake. -/
inductive Progress where
  | needMore
  /-- The handshake is over; the rest belongs to the chunk stream. -/
  | done (rest : Bytes)
deriving DecidableEq, Repr

/-- What has come behind the handshake. -/
def Progress.rest : Progress → Bytes
  | needMore => []
  | done rest => rest

/-- A handshake packet. -/
abbrev Packet := { p : Bytes // p.length = HANDSHAKE_SIZE }

/-- What a call of `feed` returns, what it puts out and the handshake then. -/
abbrev HandshakeFed (σ : Type) := Except HandshakeError (Progress × Bytes × σ)

inductive ServerHandshakeState where
  | waitC0C1
  | waitC2
  | done
deriving DecidableEq, Repr

/-- The server's side: takes the client's version and packet, answers with its own and the echo, and waits for
the echo of its packet. -/
structure ServerHandshake where
  state : ServerHandshakeState
  buf : Bytes
deriving DecidableEq, Repr

namespace ServerHandshake

def new : ServerHandshake := ⟨.waitC0C1, []⟩

/-- The turn of the loop once the handshake is over. -/
def finished (buf out : Bytes) : HandshakeFed ServerHandshake := .ok (.done buf, out, ⟨.done, []⟩)

/-- The turns of the loop from the echo on. -/
def fromC2 (buf out : Bytes) : HandshakeFed ServerHandshake :=
  if buf.length < HANDSHAKE_SIZE then .ok (.needMore, out, ⟨.waitC2, buf⟩)
  else finished (buf.drop HANDSHAKE_SIZE) out

/-- All turns of the loop; `packet` is drawn in the first. -/
def fromC0C1 (packet : Packet) (buf : Bytes) : HandshakeFed ServerHandshake :=
  if buf.length < 1 + HANDSHAKE_SIZE then .ok (.needMore, [], ⟨.waitC0C1, buf⟩)
  else
    let c0c1 := buf.take (1 + HANDSHAKE_SIZE)
    let version := c0c1.headD 0
    if version ≠ RTMP_VERSION then .error (.unsupportedVersion version)
    else
      -- The second packet echoes the client's.
      fromC2 (buf.drop (1 + HANDSHAKE_SIZE)) (RTMP_VERSION :: packet.1 ++ c0c1.drop 1)

def feed (packet : Packet) (input : Bytes) (h : ServerHandshake) : HandshakeFed ServerHandshake :=
  match h.state with
  | .waitC0C1 => fromC0C1 packet (h.buf ++ input)
  | .waitC2 => fromC2 (h.buf ++ input) []
  | .done => finished (h.buf ++ input) []

end ServerHandshake

/-- The client's side: starts, and answers the server's packet with the echo. -/
structure ClientHandshake where
  done : Bool
  buf : Bytes
deriving DecidableEq, Repr

namespace ClientHandshake

def new : ClientHandshake := ⟨false, []⟩

def start (packet : Packet) : Bytes := RTMP_VERSION :: packet.1

def feed (input : Bytes) (h : ClientHandshake) : HandshakeFed ClientHandshake :=
  let buf := h.buf ++ input
  if h.done then .ok (.done buf, [], ⟨true, []⟩)
  else if buf.length < 1 + 2 * HANDSHAKE_SIZE then .ok (.needMore, [], ⟨false, buf⟩)
  else
    let s := buf.take (1 + 2 * HANDSHAKE_SIZE)
    let version := s.headD 0
    if version ≠ RTMP_VERSION then .error (.unsupportedVersion version)
    else .ok (.done (buf.drop (1 + 2 * HANDSHAKE_SIZE)), (s.drop 1).take HANDSHAKE_SIZE, ⟨true, []⟩)

end ClientHandshake

/-! ## The two sides connected -/

/-- The two ends of a new connection: each runs its side of the handshake (`server_handshake`,
`client_handshake`), and hands what comes behind it to its session. -/
structure Greeting where
  client : ClientHandshake
  server : ServerHandshake
  /-- Bytes the client has written that have not arrived. -/
  toServer : Bytes
  toClient : Bytes
  /-- What has come for each session. -/
  clientHeard : Bytes
  serverHeard : Bytes
deriving DecidableEq, Repr

namespace Greeting

inductive Op where
  /-- The next bytes arrive at the server. -/
  | arriveServer (n : ℕ)
  | arriveClient (n : ℕ)
  /-- The client's session writes, once there is one. -/
  | clientSays (bytes : Bytes)
  | serverSays (bytes : Bytes)
deriving DecidableEq, Repr

inductive Note where
  | clientSaid (bytes : Bytes)
  | serverSaid (bytes : Bytes)
  /-- A handshake has failed, at either end. -/
  | failed (e : HandshakeError)
deriving DecidableEq, Repr

variable (clientPacket serverPacket : Packet)

def begin : Greeting := ⟨.new, .new, ClientHandshake.start clientPacket, [], [], []⟩

def step (x : Greeting) : Op → Greeting × List Note
  | .arriveServer n =>
    let input := x.toServer.take n
    let x := { x with toServer := x.toServer.drop n }
    if x.server.state = .done then ({ x with serverHeard := x.serverHeard ++ input }, [])
    else
      match x.server.feed serverPacket input with
      | .error e => (x, [.failed e])
      | .ok (progress, out, server) =>
        ({ x with
            server := server
            toClient := x.toClient ++ out
            serverHeard := x.serverHeard ++ progress.rest }, [])
  | .arriveClient n =>
    let input := x.toClient.take n
    let x := { x with toClient := x.toClient.drop n }
    if x.client.done then ({ x with clientHeard := x.clientHeard ++ input }, [])
    else
      match x.client.feed input with
      | .error e => (x, [.failed e])
      | .ok (progress, out, client) =>
        ({ x with
            client := client
            toServer := x.toServer ++ out
            clientHeard := x.clientHeard ++ progress.rest }, [])
  | .clientSays bytes =>
    if x.client.done then ({ x with toServer := x.toServer ++ bytes }, [.clientSaid bytes]) else (x, [])
  | .serverSays bytes =>
    if x.server.state = .done then ({ x with toClient := x.toClient ++ bytes }, [.serverSaid bytes]) else (x, [])

/-- What the client's session has written. -/
def clientSaid (notes : List Note) : Bytes :=
  notes.flatMap fun
    | .clientSaid bytes => bytes
    | _ => []

def serverSaid (notes : List Note) : Bytes :=
  notes.flatMap fun
    | .serverSaid bytes => bytes
    | _ => []

end Greeting

end StreamDelay.Rtmp
