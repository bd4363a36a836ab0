import Mathlib.Tactic.Common
import StreamDelay.Rtmp.Client
import StreamDelay.Rtmp.Server

/-! # A client and a server session connected

Two sessions and the two byte streams between them. Each stream arrives in pieces of any size, at any
time, in any order with what is done at either end.
-/

namespace StreamDelay.Rtmp

/-- An audio or video message. -/
structure Media where
  kind : MediaKind
  timestamp : UInt32
  payload : Bytes
deriving DecidableEq, Repr

structure Duplex where
  client : ClientSession
  server : ServerSession
  /-- Bytes the client has put out that have not arrived. -/
  toServer : Bytes
  /-- Bytes the server has put out that have not arrived. -/
  toClient : Bytes

namespace Duplex

/-- What is done at either end of a publish that neither end gives up, and on which no data messages are sent. -/
inductive Op where
  | sendMedia (media : Media)
  | acceptPublish
  /-- The output of the client is sent. -/
  | flushClient
  | flushServer
  /-- The next bytes arrive at the server. -/
  | arriveServer (n : ℕ)
  | arriveClient (n : ℕ)
deriving DecidableEq

inductive Note where
  /-- The client has queued a message. -/
  | sent (media : Media)
  /-- The server has reported an event. -/
  | reported (e : ServerEvent)
  /-- A call of `feed` has failed, at either end. -/
  | failed (e : SessionError)

def start (config : ClientConfig) (serverConfig : ServerConfig) : Duplex :=
  ⟨.new config, .new serverConfig, [], []⟩

def notes (result : Except SessionError (List ServerEvent)) : List Note :=
  match result with
  | .error e => [.failed e]
  | .ok events => events.map .reported

def clientNotes (result : Except SessionError (List ClientEvent)) : List Note :=
  match result with
  | .error e => [.failed e]
  | .ok _ => []

def step (x : Duplex) : Op → Duplex × List Note
  | .sendMedia media =>
    ({ x with client := x.client.sendMedia media.kind media.timestamp media.payload },
      if x.client.state = .publishing then [.sent media] else [])
  | .acceptPublish => ({ x with server := x.server.acceptPublish }, [])
  | .flushClient =>
    let (out, client) := x.client.takeOutput
    ({ x with client := client, toServer := x.toServer ++ out }, [])
  | .flushServer =>
    let (out, server) := x.server.takeOutput
    ({ x with server := server, toClient := x.toClient ++ out }, [])
  | .arriveServer n =>
    let fed := x.server.feed (x.toServer.take n)
    ({ x with server := fed.session, toServer := x.toServer.drop n }, notes fed.result)
  | .arriveClient n =>
    let fed := x.client.feed (x.toClient.take n)
    ({ x with client := fed.session, toClient := x.toClient.drop n }, clientNotes fed.result)

/-- The messages the client has queued. -/
def sent (notes : List Note) : List Media :=
  notes.filterMap fun
    | .sent media => some media
    | _ => none

/-- The media events the server has reported. -/
def delivered (notes : List Note) : List Media :=
  notes.filterMap fun
    | .reported (.media kind timestamp payload) => some ⟨kind, timestamp, payload⟩
    | _ => none

/-- The messages the client was asked to send. -/
def calls (ops : List Op) : List Media :=
  ops.filterMap fun
    | .sendMedia media => some media
    | _ => none

def Note.fails : Note → Bool
  | .failed _ => true
  | _ => false

end Duplex

end StreamDelay.Rtmp
