import Mathlib.Tactic.Common
import StreamDelay.Foundations.Machine
import StreamDelay.Rtmp.Handshake

/-! # The handshake goes through

However the two byte streams are cut up, neither side fails, none of what the sessions write is lost or taken for
the handshake, and once everything has arrived both sides have finished.
-/

namespace StreamDelay.Rtmp

open Foundations

namespace Greeting

/-- Two ways to cut a list, the second after the first. -/
theorem append_eq_append_of_le {α : Type} {first second third fourth : List α}
    (same : first ++ second = third ++ fourth) (le : third.length ≤ first.length) :
    first.take third.length = third ∧ first.drop third.length ++ second = fourth := by
  have early := congrArg (List.take third.length) same
  have late := congrArg (List.drop third.length) same
  rw [List.take_append_of_le_length le, List.take_left] at early
  rw [List.drop_append_of_le_length le, List.drop_left] at late
  exact ⟨early, late⟩

variable {clientPacket serverPacket : Packet} {x : Greeting} {said answered : Bytes}

/-- The client's first flight. -/
def hello (clientPacket : Packet) : Bytes := RTMP_VERSION :: clientPacket.1

/-- The server's only flight. -/
def reply (clientPacket serverPacket : Packet) : Bytes := RTMP_VERSION :: serverPacket.1 ++ clientPacket.1

private theorem hello_length : (hello clientPacket).length = 1 + HANDSHAKE_SIZE := by
  rw [hello, List.length_cons, clientPacket.2, Nat.add_comm]

private theorem reply_length : (reply clientPacket serverPacket).length = 1 + 2 * HANDSHAKE_SIZE := by
  rw [reply, List.cons_append, List.length_cons, List.length_append, clientPacket.2, serverPacket.2]
  omega

private theorem size_pos : 0 < HANDSHAKE_SIZE := Nat.succ_pos _

/-- What the client has written behind its first flight, `said` by its session. -/
def echoed (serverPacket : Packet) (said : Bytes) (x : Greeting) : Bytes :=
  if x.client.done then serverPacket.1 ++ said else []

/-- What the server has written, `answered` by its session. -/
def answers (clientPacket serverPacket : Packet) (answered : Bytes) (x : Greeting) : Bytes :=
  match x.server.state with
  | .waitC0C1 => []
  | .waitC2 | .done => reply clientPacket serverPacket ++ answered

/-- What the server has taken in. -/
def taken (clientPacket serverPacket : Packet) (x : Greeting) : Bytes :=
  match x.server.state with
  | .waitC0C1 => x.server.buf
  | .waitC2 => hello clientPacket ++ x.server.buf
  | .done => hello clientPacket ++ (serverPacket.1 ++ x.serverHeard)

/-- What the client has taken in. -/
def clientTaken (clientPacket serverPacket : Packet) (x : Greeting) : Bytes :=
  if x.client.done then reply clientPacket serverPacket ++ x.clientHeard else x.client.buf

/-- A server that waits has too little, and has handed nothing on. -/
def ServerWaits (x : Greeting) : Prop :=
  match x.server.state with
  | .waitC0C1 => x.server.buf.length < 1 + HANDSHAKE_SIZE ∧ x.serverHeard = []
  | .waitC2 => x.server.buf.length < HANDSHAKE_SIZE ∧ x.serverHeard = []
  | .done => x.server.buf = []

def ClientWaits (x : Greeting) : Prop :=
  if x.client.done then x.client.buf = []
  else x.client.buf.length < 1 + 2 * HANDSHAKE_SIZE ∧ x.clientHeard = []

/-- What has been written by each side has been taken in by the other, or is on the way. -/
structure Sound (clientPacket serverPacket : Packet) (said answered : Bytes) (x : Greeting) : Prop where
  rising : taken clientPacket serverPacket x ++ x.toServer = hello clientPacket ++ echoed serverPacket said x
  falling : clientTaken clientPacket serverPacket x ++ x.toClient = answers clientPacket serverPacket answered x
  server : ServerWaits x
  client : ClientWaits x
  unsaid : x.client.done = false → said = []
  unanswered : x.server.state ≠ .done → answered = []

private theorem begin_sound : Sound clientPacket serverPacket [] [] (begin clientPacket) where
  rising := (List.append_nil _).symm
  falling := rfl
  server := ⟨Nat.succ_pos _, rfl⟩
  client := ⟨Nat.succ_pos _, rfl⟩
  unsaid := fun _ => rfl
  unanswered := fun _ => rfl

/-- The server goes on behind the client's first flight: `b` has come, and `rest` is on the way. -/
theorem fromC2_sound {b rest out : Bytes} (behind : b ++ rest = echoed serverPacket said x)
    (falling : clientTaken clientPacket serverPacket x ++ (x.toClient ++ out) = reply clientPacket serverPacket)
    (client : ClientWaits x) (unsaid : x.client.done = false → said = []) (heard : x.serverHeard = []) :
    ∃ progress server, ServerHandshake.fromC2 b out = .ok (progress, out, server) ∧
      Sound clientPacket serverPacket said []
        { x with
          server := server
          toServer := rest
          toClient := x.toClient ++ out
          serverHeard := x.serverHeard ++ progress.rest } := by
  have whole : reply clientPacket serverPacket ++ [] = reply clientPacket serverPacket := List.append_nil _
  by_cases short : b.length < HANDSHAKE_SIZE
  · refine ⟨.needMore, ⟨.waitC2, b⟩, if_pos short, ?_⟩
    constructor
    · show hello clientPacket ++ b ++ rest = _
      rw [List.append_assoc, behind]
      rfl
    · exact falling.trans whole.symm
    · exact ⟨short, (List.append_nil _).trans heard⟩
    · exact client
    · exact unsaid
    · exact fun _ => rfl
  · have on : x.client.done = true := by
      by_contra waits
      rw [echoed, if_neg waits] at behind
      have none := (List.append_eq_nil_iff.mp behind).1
      rw [none] at short
      exact short size_pos
    rw [echoed, if_pos on] at behind
    have enough : serverPacket.1.length ≤ b.length := by
      rw [serverPacket.2]
      omega
    obtain ⟨-, later⟩ := append_eq_append_of_le behind enough
    rw [serverPacket.2] at later
    refine ⟨.done (b.drop HANDSHAKE_SIZE), ⟨.done, []⟩, if_neg short, ?_⟩
    constructor
    · show hello clientPacket ++ (serverPacket.1 ++ (x.serverHeard ++ b.drop HANDSHAKE_SIZE)) ++ rest =
        hello clientPacket ++ if x.client.done then serverPacket.1 ++ said else []
      rw [if_pos on, heard, List.nil_append, List.append_assoc, List.append_assoc, later]
    · exact falling.trans whole.symm
    · exact rfl
    · exact client
    · exact unsaid
    · exact fun _ => rfl

/-- Bytes come to the server. -/
theorem arriveServer_sound (sound : Sound clientPacket serverPacket said answered x) (n : ℕ) :
    Sound clientPacket serverPacket said answered (step serverPacket x (.arriveServer n)).1 ∧
      (step serverPacket x (.arriveServer n)).2 = [] := by
  have parts : x.toServer.take n ++ x.toServer.drop n = x.toServer := List.take_append_drop n _
  obtain ⟨rising, falling, server, client, unsaid, unanswered⟩ := sound
  unfold step
  cases state : x.server.state with
  | done =>
    dsimp only
    rw [if_pos state]
    refine ⟨?_, rfl⟩
    constructor
    · rw [taken, state, ← parts] at rising
      show taken clientPacket serverPacket { x with serverHeard := _, toServer := _ } ++ x.toServer.drop n = _
      rw [taken]
      dsimp only
      rw [state]
      dsimp only at rising ⊢
      simp only [List.append_assoc] at rising ⊢
      exact rising
    · exact falling
    · rw [ServerWaits, state] at server ⊢
      exact server
    · exact client
    · exact unsaid
    · exact unanswered
  | waitC2 =>
    obtain rfl := unanswered (by rw [state]; exact ServerHandshakeState.noConfusion)
    rw [ServerWaits, state] at server
    rw [taken, state, ← parts] at rising
    rw [answers, state] at falling
    dsimp only at rising falling server
    have behind : x.server.buf ++ x.toServer.take n ++ x.toServer.drop n = echoed serverPacket said x := by
      rw [List.append_assoc] at rising ⊢
      exact List.append_cancel_left rising
    have fell : clientTaken clientPacket serverPacket x ++ (x.toClient ++ []) = reply clientPacket serverPacket := by
      rwa [List.append_nil, ← List.append_nil (reply clientPacket serverPacket)]
    obtain ⟨progress, next, fed, sound⟩ := fromC2_sound behind fell client unsaid server.2
    have same : x.server.feed serverPacket (x.toServer.take n) = .ok (progress, [], next) := by
      unfold ServerHandshake.feed
      rw [state]
      exact fed
    dsimp only
    rw [if_neg (by rw [state]; exact ServerHandshakeState.noConfusion), same]
    exact ⟨sound, rfl⟩
  | waitC0C1 =>
    obtain rfl := unanswered (by rw [state]; exact ServerHandshakeState.noConfusion)
    rw [ServerWaits, state] at server
    rw [taken, state, ← parts] at rising
    rw [answers, state] at falling
    dsimp only at rising falling server
    rw [← List.append_assoc] at rising
    obtain ⟨untaken, unsent⟩ := List.append_eq_nil_iff.mp falling
    by_cases short : (x.server.buf ++ x.toServer.take n).length < 1 + HANDSHAKE_SIZE
    · have same : x.server.feed serverPacket (x.toServer.take n) =
          .ok (.needMore, [], ⟨.waitC0C1, x.server.buf ++ x.toServer.take n⟩) := by
        unfold ServerHandshake.feed
        rw [state]
        exact if_pos short
      dsimp only
      rw [if_neg (by rw [state]; exact ServerHandshakeState.noConfusion), same]
      refine ⟨?_, rfl⟩
      constructor
      · exact rising
      · show clientTaken clientPacket serverPacket x ++ (x.toClient ++ []) = []
        rw [List.append_nil]
        exact falling
      · exact ⟨short, (List.append_nil _).trans server.2⟩
      · exact client
      · exact unsaid
      · exact fun _ => rfl
    · obtain ⟨early, behind⟩ := append_eq_append_of_le rising (by rw [hello_length]; omega)
      rw [hello_length] at early behind
      have fell : clientTaken clientPacket serverPacket x ++ (x.toClient ++ reply clientPacket serverPacket) =
          reply clientPacket serverPacket := by
        rw [untaken, unsent]
        rfl
      obtain ⟨progress, next, fed, sound⟩ := fromC2_sound behind fell client unsaid server.2
      have same : x.server.feed serverPacket (x.toServer.take n) =
          .ok (progress, reply clientPacket serverPacket, next) := by
        unfold ServerHandshake.feed
        rw [state]
        dsimp only
        rw [ServerHandshake.fromC0C1, if_neg short, early]
        exact (if_neg (not_not_intro rfl)).trans fed
      dsimp only
      rw [if_neg (by rw [state]; exact ServerHandshakeState.noConfusion), same]
      exact ⟨sound, rfl⟩

/-- Bytes come to the client. -/
theorem arriveClient_sound (sound : Sound clientPacket serverPacket said answered x) (n : ℕ) :
    Sound clientPacket serverPacket said answered (step serverPacket x (.arriveClient n)).1 ∧
      (step serverPacket x (.arriveClient n)).2 = [] := by
  have parts : x.toClient.take n ++ x.toClient.drop n = x.toClient := List.take_append_drop n _
  obtain ⟨rising, falling, server, client, unsaid, unanswered⟩ := sound
  unfold step
  cases done : x.client.done with
  | true =>
    rw [clientTaken, if_pos done, ← parts] at falling
    dsimp only
    rw [if_pos done]
    rw [ClientWaits, if_pos done] at client
    refine ⟨⟨rising, ?_, server, ?_, unsaid, unanswered⟩, rfl⟩
    rotate_left
    · rw [ClientWaits, if_pos done]
      exact client
    show (if x.client.done then reply clientPacket serverPacket ++ (x.clientHeard ++ x.toClient.take n)
      else x.client.buf) ++ x.toClient.drop n = answers clientPacket serverPacket answered x
    rw [if_pos done]
    simp only [List.append_assoc] at falling ⊢
    exact falling
  | false =>
    obtain rfl := unsaid done
    have waits : ¬x.client.done = true := by rw [done]; exact Bool.false_ne_true
    rw [ClientWaits, if_neg waits] at client
    rw [clientTaken, if_neg waits, ← parts, ← List.append_assoc] at falling
    dsimp only
    rw [if_neg waits]
    by_cases short : (x.client.buf ++ x.toClient.take n).length < 1 + 2 * HANDSHAKE_SIZE
    · have same : x.client.feed (x.toClient.take n) =
          .ok (.needMore, [], ⟨false, x.client.buf ++ x.toClient.take n⟩) := by
        unfold ClientHandshake.feed
        rw [if_neg waits, if_pos short]
      rw [same]
      refine ⟨⟨?_, falling, server, ⟨short, (List.append_nil _).trans client.2⟩, fun _ => rfl, unanswered⟩, rfl⟩
      show taken clientPacket serverPacket x ++ (x.toServer ++ []) = hello clientPacket ++ []
      rw [List.append_nil, rising, echoed, if_neg waits]
    · -- The whole of the server's flight has come, so it has been written.
      have replied : answers clientPacket serverPacket answered x = reply clientPacket serverPacket ++ answered := by
        unfold answers at falling ⊢
        cases state : x.server.state with
        | waitC0C1 =>
          rw [state] at falling
          rw [(List.append_eq_nil_iff.mp falling).1] at short
          exact absurd (Nat.succ_pos _) short
        | waitC2 => rfl
        | done => rfl
      rw [replied] at falling
      obtain ⟨early, behind⟩ := append_eq_append_of_le falling (by rw [reply_length]; omega)
      rw [reply_length] at early behind
      have echo : ((reply clientPacket serverPacket).drop 1).take HANDSHAKE_SIZE = serverPacket.1 := by
        show (serverPacket.1 ++ clientPacket.1).take HANDSHAKE_SIZE = _
        exact List.take_left' serverPacket.2
      have same : x.client.feed (x.toClient.take n) =
          .ok (.done ((x.client.buf ++ x.toClient.take n).drop (1 + 2 * HANDSHAKE_SIZE)), serverPacket.1,
            ⟨true, []⟩) := by
        unfold ClientHandshake.feed
        dsimp only
        rw [if_neg waits, if_neg short, early, echo]
        exact if_neg (not_not_intro rfl)
      rw [same]
      refine ⟨⟨?_, ?_, server, rfl, fun on => Bool.noConfusion on, unanswered⟩, rfl⟩
      · show taken clientPacket serverPacket x ++ (x.toServer ++ serverPacket.1) =
          hello clientPacket ++ (serverPacket.1 ++ [])
        rw [← List.append_assoc, rising, echoed, if_neg waits, List.append_nil, List.append_nil]
      · show reply clientPacket serverPacket ++
            (x.clientHeard ++ (x.client.buf ++ x.toClient.take n).drop (1 + 2 * HANDSHAKE_SIZE)) ++
            x.toClient.drop n = answers clientPacket serverPacket answered x
        rw [client.2, List.nil_append, List.append_assoc, behind, replied]

private theorem clientSays_sound (sound : Sound clientPacket serverPacket said answered x) (bytes : Bytes) :
    Sound clientPacket serverPacket (said ++ clientSaid (step serverPacket x (.clientSays bytes)).2) answered
      (step serverPacket x (.clientSays bytes)).1 := by
  unfold step
  dsimp only
  split
  · next done =>
    have written : clientSaid [.clientSaid bytes] = bytes := List.append_nil _
    refine ⟨?_, sound.falling, sound.server, sound.client, fun waits => ?_, sound.unanswered⟩
    · show taken clientPacket serverPacket x ++ (x.toServer ++ bytes) =
        hello clientPacket ++ if x.client.done then serverPacket.1 ++ (said ++ clientSaid [.clientSaid bytes]) else []
      rw [← List.append_assoc, sound.rising, echoed, if_pos done, if_pos done, written]
      simp only [List.append_assoc]
    · rw [done] at waits
      contradiction
  · rw [show clientSaid [] = [] from rfl, List.append_nil]
    exact sound

private theorem serverSays_sound (sound : Sound clientPacket serverPacket said answered x) (bytes : Bytes) :
    Sound clientPacket serverPacket said (answered ++ serverSaid (step serverPacket x (.serverSays bytes)).2)
      (step serverPacket x (.serverSays bytes)).1 := by
  unfold step
  dsimp only
  split
  · next done =>
    have written : serverSaid [.serverSaid bytes] = bytes := List.append_nil _
    refine ⟨sound.rising, ?_, sound.server, sound.client, sound.unsaid, fun waits => absurd done waits⟩
    have falling := sound.falling
    rw [answers, done] at falling
    show clientTaken clientPacket serverPacket x ++ (x.toClient ++ bytes) =
      answers clientPacket serverPacket (answered ++ serverSaid [.serverSaid bytes]) x
    rw [answers, done, ← List.append_assoc, falling, written]
    exact List.append_assoc ..
  · rw [show serverSaid [] = [] from rfl, List.append_nil]
    exact sound

/-! ## Runs -/

private theorem clientSaid_append (first second : List Note) :
    clientSaid (first ++ second) = clientSaid first ++ clientSaid second :=
  List.flatMap_append ..

private theorem serverSaid_append (first second : List Note) :
    serverSaid (first ++ second) = serverSaid first ++ serverSaid second :=
  List.flatMap_append ..

theorem step_sound (sound : Sound clientPacket serverPacket said answered x) (op : Op) :
    Sound clientPacket serverPacket (said ++ clientSaid (step serverPacket x op).2)
        (answered ++ serverSaid (step serverPacket x op).2) (step serverPacket x op).1 ∧
      ∀ e, .failed e ∉ (step serverPacket x op).2 := by
  cases op with
  | arriveServer n =>
    obtain ⟨sound, silent⟩ := arriveServer_sound sound n
    rw [silent]
    refine ⟨?_, fun e => List.not_mem_nil⟩
    rw [show clientSaid [] = [] from rfl, show serverSaid [] = [] from rfl, List.append_nil, List.append_nil]
    exact sound
  | arriveClient n =>
    obtain ⟨sound, silent⟩ := arriveClient_sound sound n
    rw [silent]
    refine ⟨?_, fun e => List.not_mem_nil⟩
    rw [show clientSaid [] = [] from rfl, show serverSaid [] = [] from rfl, List.append_nil, List.append_nil]
    exact sound
  | clientSays bytes =>
    have none : serverSaid (step serverPacket x (.clientSays bytes)).2 = [] ∧
        ∀ e, .failed e ∉ (step serverPacket x (.clientSays bytes)).2 := by
      unfold step
      dsimp only
      split
      · exact ⟨rfl, fun e failed => Note.noConfusion (List.mem_singleton.mp failed)⟩
      · exact ⟨rfl, fun e => List.not_mem_nil⟩
    rw [none.1, List.append_nil]
    exact ⟨clientSays_sound sound bytes, none.2⟩
  | serverSays bytes =>
    have none : clientSaid (step serverPacket x (.serverSays bytes)).2 = [] ∧
        ∀ e, .failed e ∉ (step serverPacket x (.serverSays bytes)).2 := by
      unfold step
      dsimp only
      split
      · exact ⟨rfl, fun e failed => Note.noConfusion (List.mem_singleton.mp failed)⟩
      · exact ⟨rfl, fun e => List.not_mem_nil⟩
    rw [none.1, List.append_nil]
    exact ⟨serverSays_sound sound bytes, none.2⟩

theorem run_sound (sound : Sound clientPacket serverPacket said answered x) (ops : List Op) :
    Sound clientPacket serverPacket (said ++ clientSaid (Machine.outputs (step serverPacket) x ops))
        (answered ++ serverSaid (Machine.outputs (step serverPacket) x ops))
        (Machine.after (step serverPacket) x ops) ∧
      ∀ e, .failed e ∉ Machine.outputs (step serverPacket) x ops := by
  induction ops generalizing x said answered with
  | nil =>
    refine ⟨?_, fun e => List.not_mem_nil⟩
    rw [Machine.outputs_nil, show clientSaid [] = [] from rfl, show serverSaid [] = [] from rfl, List.append_nil,
      List.append_nil]
    exact sound
  | cons op rest ih =>
    obtain ⟨next, unfailing⟩ := step_sound sound op
    obtain ⟨last, later⟩ := ih next
    rw [Machine.outputs_cons, clientSaid_append, serverSaid_append, ← List.append_assoc, ← List.append_assoc]
    refine ⟨last, fun e failed => ?_⟩
    exact (List.mem_append.mp failed).elim (unfailing e) (later e)

/-- What has come for the server's session is the beginning of what the client's has written, and once it has
finished the rest is on the way. -/
theorem Sound.server_heard (sound : Sound clientPacket serverPacket said answered x) :
    x.serverHeard <+: said ∧ (x.server.state = .done → said = x.serverHeard ++ x.toServer) := by
  obtain ⟨rising, falling, server, client, unsaid, unanswered⟩ := sound
  cases state : x.server.state with
  | waitC0C1 | waitC2 =>
    rw [ServerWaits, state] at server
    rw [server.2]
    exact ⟨List.nil_prefix, fun done => ServerHandshakeState.noConfusion done⟩
  | done =>
    rw [taken, state] at rising
    dsimp only at rising
    rw [List.append_assoc, List.append_cancel_left_eq, List.append_assoc, echoed] at rising
    split at rising
    · have same := (List.append_cancel_left rising).symm
      exact ⟨⟨_, same.symm⟩, fun _ => same⟩
    · have none := (List.append_eq_nil_iff.mp rising).1
      have size := serverPacket.2
      rw [none] at size
      exact absurd size.symm (Nat.ne_of_gt size_pos)

private theorem Sound.client_heard (sound : Sound clientPacket serverPacket said answered x) :
    x.clientHeard <+: answered ∧ (x.client.done = true → answered = x.clientHeard ++ x.toClient) := by
  obtain ⟨rising, falling, server, client, unsaid, unanswered⟩ := sound
  rw [clientTaken] at falling
  cases done : x.client.done with
  | false =>
    rw [ClientWaits, if_neg (by rw [done]; exact Bool.false_ne_true)] at client
    rw [client.2]
    exact ⟨List.nil_prefix, fun on => Bool.noConfusion on⟩
  | true =>
    rw [if_pos done, List.append_assoc, answers] at falling
    have replied {rest : Bytes} (same : reply clientPacket serverPacket ++ rest =
        reply clientPacket serverPacket ++ answered) : rest = answered := List.append_cancel_left same
    cases state : x.server.state with
    | waitC0C1 =>
      rw [state] at falling
      have size : (reply clientPacket serverPacket).length = 1 + 2 * HANDSHAKE_SIZE := reply_length
      rw [(List.append_eq_nil_iff.mp falling).1] at size
      exact absurd size (by rw [List.length_nil]; omega)
    | waitC2 | done =>
      rw [state] at falling
      have same := replied falling
      exact ⟨⟨_, same⟩, fun _ => same.symm⟩

/-- Both sides have finished once everything written has come. -/
theorem Sound.finished (sound : Sound clientPacket serverPacket said answered x) (arrived : x.toServer = [])
    (answeredAll : x.toClient = []) : x.client.done = true ∧ x.server.state = .done := by
  obtain ⟨rising, falling, server, client, unsaid, unanswered⟩ := sound
  rw [arrived, List.append_nil] at rising
  rw [answeredAll, List.append_nil] at falling
  have greeted : x.server.state ≠ .waitC0C1 := by
    intro state
    rw [ServerWaits, state] at server
    rw [taken, state] at rising
    have size := congrArg List.length rising
    rw [List.length_append, hello_length] at size
    dsimp only at size server
    omega
  have done : x.client.done = true := by
    by_contra waits
    rw [ClientWaits, if_neg waits] at client
    have size := congrArg List.length falling
    rw [clientTaken, if_neg waits, answers] at size
    cases state : x.server.state with
    | waitC0C1 => exact greeted state
    | waitC2 | done =>
      rw [state] at size
      dsimp only at size
      rw [List.length_append, reply_length] at size
      omega
  refine ⟨done, ?_⟩
  cases state : x.server.state with
  | waitC0C1 => exact absurd state greeted
  | done => rfl
  | waitC2 =>
    rw [ServerWaits, state] at server
    rw [taken, state, echoed, if_pos done] at rising
    have size := congrArg List.length (List.append_cancel_left rising)
    rw [List.length_append, serverPacket.2] at size
    dsimp only at size server
    omega

/-- However the two streams are cut up and whatever the sessions write, no handshake fails; what comes for each
session is the beginning of what the other has written, in order, and of nothing else. Once nothing is on the
way, both handshakes are over and all of it has come. -/
theorem handshake_goes_through (clientPacket serverPacket : Packet) (ops : List Op) :
    let x := Machine.after (step serverPacket) (begin clientPacket) ops
    let notes := Machine.outputs (step serverPacket) (begin clientPacket) ops
    (∀ e, .failed e ∉ notes) ∧ x.serverHeard <+: clientSaid notes ∧ x.clientHeard <+: serverSaid notes ∧
      (x.toServer = [] → x.toClient = [] → x.client.done = true ∧ x.server.state = .done ∧
        x.serverHeard = clientSaid notes ∧ x.clientHeard = serverSaid notes) := by
  intro x notes
  have started : Sound clientPacket serverPacket [] [] (begin clientPacket) := begin_sound
  obtain ⟨sound, unfailing⟩ := run_sound started ops
  rw [List.nil_append, List.nil_append] at sound
  refine ⟨unfailing, sound.server_heard.1, sound.client_heard.1, fun arrived answeredAll => ?_⟩
  obtain ⟨done, state⟩ := sound.finished arrived answeredAll
  refine ⟨done, state, ?_, ?_⟩
  · have all := sound.server_heard.2 state
    rw [show (Machine.after (step serverPacket) (begin clientPacket) ops).toServer = [] from arrived,
      List.append_nil] at all
    exact all.symm
  · have all := sound.client_heard.2 done
    rw [show (Machine.after (step serverPacket) (begin clientPacket) ops).toClient = [] from answeredAll,
      List.append_nil] at all
    exact all.symm

end Greeting

end StreamDelay.Rtmp
