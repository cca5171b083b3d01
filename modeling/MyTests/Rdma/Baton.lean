/-
MyTests/Rdma/Baton.lean

Client and server pass a baton.  At any time one of the parties, one of the
send queues or one of the completion queues has it, and everything else rests:
no other request or message is on its way, and a party without the baton waits
for a completion or is about to post the receive for it.

`Place` says where the baton is, and `Place.At` what then holds of the state.
One lemma for each place says where the baton can go from there.
-/
import MyTests.Rdma.FileTransfer

namespace MyTests.Rdma

open Lib

variable {job : Job} {s t : State} {e : List Event} {c : Client} {v : Server}

/-! ### What a step does -/

/-- A step, with what it needs. -/
inductive Move (job : Job) (s : State) : List Event → State → Prop
  | establish : s.server.established = false →
      Move job s [] { s with server := s.server.onConnection }
  | client {r e c} : s.client.step job r = some (e, c) → Move job s e { s with client := c }
  | server {r e v} : s.server.step r = some (e, v) → Move job s e { s with server := v }
  | write {wr rest} : s.client.sends = wr :: rest → 0 < s.server.receives →
      wr.remote = s.server.bufferMr →
      Move job s []
        { client := { s.client with sends := rest }
          server := { s.server with
            buffer := splice s.server.buffer 0 (s.client.buffer.take wr.len)
            receives := s.server.receives - 1
            completions := s.server.completions ++ [wr.len] } }
  | badKey {wr rest} : s.client.sends = wr :: rest → wr.remote ≠ s.server.bufferMr →
      Move job s [] { s with client := { s.client with pc := .died } }
  | message : s.connected = true → 0 < s.server.sends → 0 < s.client.receives →
      Move job s []
        { client := { s.client with
            msg := s.server.msg
            receives := s.client.receives - 1
            completions := s.client.completions + 1 }
          server := { s.server with sends := s.server.sends - 1 } }
  | close : s.client.pc = .disconnected → s.server.closed = false →
      Move job s [] { s with server := { s.server with closed := true } }
  | flushClient : s.client.pc = .disconnected → 0 < s.client.receives →
      Move job s [] { s with client := { s.client with pc := .died } }
  | flushServer : s.client.pc = .disconnected → 0 < s.server.receives →
      Move job s [] { s with server := { s.server with pc := .died } }

theorem deliverWrite_move (hs : s.deliverWrite = some (e, t)) : Move job s e t := by
  unfold State.deliverWrite at hs
  cases hsends : s.client.sends with
  | nil =>
      rw [hsends] at hs
      cases hs
  | cons wr rest =>
      rw [hsends] at hs
      simp only at hs
      split at hs
      · rename_i hgo
        split at hs
        · rename_i hkey
          obtain ⟨rfl, rfl⟩ := Prod.mk.inj (Option.some.inj hs)
          exact .write hsends hgo.2 hkey
        · rename_i hkey
          obtain ⟨rfl, rfl⟩ := Prod.mk.inj (Option.some.inj hs)
          exact .badKey hsends hkey
      · cases hs

theorem Step.move (hs : Step job s e t) : Move job s e t := by
  obtain ⟨a, ha⟩ := hs
  cases a with
  | establish =>
      simp only [act] at ha
      split at ha
      · cases ha
      · rename_i hest
        obtain ⟨rfl, rfl⟩ := Prod.mk.inj (Option.some.inj ha)
        exact .establish (by simpa using hest)
  -- a party's step depends on its own state alone
  | client r =>
      obtain ⟨⟨e', c⟩, hc, heq⟩ := Option.map_eq_some_iff.mp ha
      obtain ⟨rfl, rfl⟩ := Prod.mk.inj heq
      exact .client hc
  | server r =>
      obtain ⟨⟨e', v⟩, hv, heq⟩ := Option.map_eq_some_iff.mp ha
      obtain ⟨rfl, rfl⟩ := Prod.mk.inj heq
      exact .server hv
  | deliverWrite => exact deliverWrite_move ha
  | deliverMessage =>
      simp only [act, State.deliverMessage] at ha
      split at ha
      · rename_i hgo
        obtain ⟨rfl, rfl⟩ := Prod.mk.inj (Option.some.inj ha)
        exact .message hgo.1 hgo.2.1 hgo.2.2
      · cases ha
  | close =>
      simp only [act] at ha
      split at ha
      · rename_i hgo
        obtain ⟨rfl, rfl⟩ := Prod.mk.inj (Option.some.inj ha)
        exact .close hgo.1 hgo.2
      · cases ha
  | flushClient =>
      simp only [act] at ha
      split at ha
      · rename_i hgo
        obtain ⟨rfl, rfl⟩ := Prod.mk.inj (Option.some.inj ha)
        exact .flushClient hgo.1 hgo.2
      · cases ha
  | flushServer =>
      simp only [act] at ha
      split at ha
      · rename_i hgo
        obtain ⟨rfl, rfl⟩ := Prod.mk.inj (Option.some.inj ha)
        exact .flushServer hgo.1 hgo.2.1
      · cases ha

/-! ### A party at rest -/

structure Client.At (c : Client) (pc : ClientPc) (receives : ℕ) (sends : List WriteRequest)
    (completions : ℕ) : Prop where
  pc : c.pc = pc
  receives : c.receives = receives
  sends : c.sends = sends
  completions : c.completions = completions

structure Server.At (v : Server) (pc : ServerPc) (receives sends : ℕ)
    (completions : List ℕ) : Prop where
  established : v.established = true
  pc : v.pc = pc
  receives : v.receives = receives
  sends : v.sends = sends
  completions : v.completions = completions

/-- The client waits for a message, or is about to post the receive for it. -/
def Client.Waits (c : Client) (sends : List WriteRequest) : Prop :=
  c.At .poll 1 sends 0 ∨ c.At .postReceive 0 sends 0

theorem Client.Waits.sends {sends : List WriteRequest} (h : c.Waits sends) : c.sends = sends := by
  rcases h with h | h <;> exact h.sends

theorem Client.Waits.pc_ne {sends : List WriteRequest} (h : c.Waits sends) :
    c.pc ≠ .disconnected ∧ c.pc ≠ .died := by
  rcases h with h | h <;> simp [h.pc]

/-- A client that waits can post the receive, no more. -/
theorem Client.Waits.step {sends : List WriteRequest} {r : Option ℕ} {c' : Client}
    (h : c.Waits sends) (hs : c.step job r = some (e, c')) :
    e = [] ∧ c.pc = .postReceive ∧ c.receives = 0 ∧
      c' = { c with receives := 1, pc := .poll } ∧ c'.Waits sends := by
  rcases h with h | h
  · simp [Client.step, h.pc, h.completions] at hs
  · simp only [Client.step, h.pc, h.receives, Option.some.injEq, Prod.mk.injEq] at hs
    obtain ⟨rfl, rfl⟩ := hs
    exact ⟨rfl, h.pc, h.receives, rfl, .inl ⟨rfl, rfl, h.sends, h.completions⟩⟩

/-- A client that has received a message waited for it. -/
theorem Client.Waits.polls {sends : List WriteRequest} (h : c.Waits sends)
    (hpos : 0 < c.receives) : c.At .poll 1 sends 0 := by
  rcases h with h | h
  · exact h
  · exact absurd h.receives hpos.ne'

/-- A server with nothing to poll does nothing. -/
theorem Server.At.step_poll {receives sends : ℕ} (h : v.At .poll receives sends [])
    (r : Option ℕ) : v.step r = none := by
  simp only [Server.step, h.pc, h.completions]

/-! ### What has been transferred -/

/-- The server has no name yet. -/
def Fresh (s : State) : Prop :=
  s.server.file = none ∧ s.server.fileName.headD 0 = 0 ∧ s.client.offset = 0

/-- The server has stored `d`. -/
def Stored (job : Job) (s : State) (d : List Byte) : Prop :=
  s.server.file = some (job.fileName, d) ∧ s.server.fileName.headD 0 ≠ 0 ∧
    s.client.peer = s.server.bufferMr

/-- What a message of the server says. -/
def Says (job : Job) (s : State) (m : Message) : Prop :=
  match m.id with
  | .mr => Fresh s ∧ m.mr = s.server.bufferMr
  | .ready => Stored job s (job.file.take s.client.offset)
  | .done => Stored job s job.file
  | .invalid => False

/-- The first `len` bytes of `buf` are the name. -/
def NameIn (job : Job) (s : State) (buf : List Byte) (len : ℕ) : Prop :=
  Fresh s ∧ s.client.peer = s.server.bufferMr ∧ buf.take len = job.fileName ++ [0] ∧
    len = job.fileName.length + 1

/-- The first `len` bytes of `buf` are what follows `d` in the file. -/
def DataIn (job : Job) (s : State) (buf : List Byte) (len : ℕ) (d : List Byte) : Prop :=
  Stored job s d ∧ d ++ buf.take len = job.file.take s.client.offset ∧
    (buf.take len).length = len ∧ (len = 0 → d = job.file)

/-- What is on its way to the server. -/
def Chunk (job : Job) (s : State) (buf : List Byte) (len : ℕ) : Prop :=
  NameIn job s buf len ∨ ∃ d, DataIn job s buf len d

theorem Chunk.peer {buf : List Byte} {len : ℕ} (h : Chunk job s buf len) :
    s.client.peer = s.server.bufferMr := by
  rcases h with ⟨-, hpeer, -⟩ | ⟨d, ⟨-, -, hpeer⟩, -⟩ <;> exact hpeer

/-- After `MSG_DONE` the server has no receive posted. -/
def armed (m : Message) : ℕ := if m.id = .done then 0 else 1

/-! ### Where the baton is -/

inductive Place where
  | start
  /-- a message is in the send queue of the server -/
  | queued
  /-- it is in the completion queue of the client -/
  | arrived
  | reading
  | posting (len : ℕ)
  /-- a request is in the send queue of the client -/
  | sent (len : ℕ)
  /-- it is in the completion queue of the server -/
  | landed (len : ℕ)
  | opening
  | writing (len : ℕ)
  | arming
  | answering
  | leaving
  | left
  /-- a party has ended -/
  | lost

def Place.At (job : Job) (s : State) : Place → Prop
  | .start => s.client.Waits [] ∧ Fresh s ∧ s.server.established = false ∧ s.server.pc = .poll ∧
      s.server.receives = 1 ∧ s.server.sends = 0 ∧ s.server.completions = []
  | .queued => s.client.Waits [] ∧ s.server.At .poll (armed s.server.msg) 1 [] ∧
      Says job s s.server.msg
  | .arrived => s.client.At .poll 0 [] 1 ∧ s.server.At .poll (armed s.client.msg) 0 [] ∧
      Says job s s.client.msg
  | .reading => s.client.At .read 0 [] 0 ∧ s.server.At .poll 1 0 [] ∧
      Stored job s (job.file.take s.client.offset)
  | .posting len => s.client.At (.write len) 0 [] 0 ∧ s.server.At .poll 1 0 [] ∧
      Chunk job s s.client.buffer len
  | .sent len => s.client.Waits [⟨s.server.bufferMr, len⟩] ∧ s.server.At .poll 1 0 [] ∧
      Chunk job s s.client.buffer len
  | .landed len => s.client.Waits [] ∧ s.server.At .poll 0 0 [len] ∧ Chunk job s s.server.buffer len
  | .opening => s.client.Waits [] ∧ s.server.At .open 0 0 [] ∧ s.server.file = none ∧
      s.client.offset = 0 ∧ s.client.peer = s.server.bufferMr ∧
      cstring s.server.fileName = job.fileName
  | .writing len => s.client.Waits [] ∧ s.server.At (.write len) 0 0 [] ∧ 0 < len ∧
      ∃ d, DataIn job s s.server.buffer len d
  | .arming => s.client.Waits [] ∧ s.server.At .postReceive 0 0 [] ∧
      Stored job s (job.file.take s.client.offset)
  | .answering => s.client.Waits [] ∧ s.server.At .send (armed s.server.msg) 0 [] ∧
      s.server.msg.id ≠ .mr ∧ Says job s s.server.msg
  | .leaving => s.client.At .disconnect 0 [] 0 ∧ s.server.At .poll 0 0 [] ∧ Stored job s job.file
  | .left => s.client.At .disconnected 0 [] 0 ∧ s.server.At .poll 0 0 [] ∧ Stored job s job.file
  | .lost => ((s.client.At .died 0 [] 0 ∧ s.server.At .poll 1 0 []) ∨
      (s.client.Waits [] ∧ s.server.At .died 0 0 [])) ∧
      ∀ f, s.server.file = some f → f.1 = job.fileName ∧ f.2 <+: job.file

/-- How long the baton is still on its way, at most. -/
def distance (job : Job) (s : State) : Place → ℕ
  | .start => 24 * (job.file.length - s.client.offset) + 40
  | .queued =>
      match s.server.msg.id with
      | .mr => 24 * (job.file.length - s.client.offset) + 39
      | .done => 6
      | _ => 24 * (job.file.length - s.client.offset) + 18
  | .arrived =>
      match s.client.msg.id with
      | .mr => 24 * (job.file.length - s.client.offset) + 38
      | .done => 5
      | _ => 24 * (job.file.length - s.client.offset) + 17
  | .reading => 24 * (job.file.length - s.client.offset) + 16
  | .posting len => if len = 0 then 10 else 24 * (job.file.length - s.client.offset) + 37
  | .sent len => if len = 0 then 9 else 24 * (job.file.length - s.client.offset) + 36
  | .landed len => if len = 0 then 8 else 24 * (job.file.length - s.client.offset) + 35
  | .opening | .writing _ => 24 * (job.file.length - s.client.offset) + 34
  | .arming => 24 * (job.file.length - s.client.offset) + 20
  | .answering => if s.server.msg.id = .done then 7
      else 24 * (job.file.length - s.client.offset) + 19
  | .leaving => 4
  | .left => if s.server.closed then 2 else 3
  | .lost => 0

/-- The receive that the client is about to post counts for a half. -/
def rank (job : Job) (s : State) (p : Place) : ℕ :=
  2 * distance job s p + if s.client.pc = .postReceive then 1 else 0

/-! ### The purpose -/

/-- What happens to the file of the server: it is created under the name of the client's
file, and grows along its contents. -/
inductive Delivery (job : Job) :
    Option (List Byte × List Byte) → List Event → Option (List Byte × List Byte) → Prop
  | created : Delivery job none [.created job.fileName] (some (job.fileName, []))
  | wrote {d data} : d ++ data <+: job.file →
      Delivery job (some (job.fileName, d)) [.wrote data] (some (job.fileName, d ++ data))
  | done : Delivery job (some (job.fileName, job.file)) [.done] (some (job.fileName, job.file))
  | failed {f} : Delivery job f [.failed] f

/-- The baton moves on from `p`, and the file of the server with it.  It is lost only where
a call of the system fails. -/
def Advances (job : Job) (s : State) (p : Place) (e : List Event) (t : State) : Prop :=
  ∃ q, q.At job t ∧ rank job t q < rank job s p ∧ (q = .lost → p = .lost ∨ .failed ∈ e) ∧
    Run (Delivery job) s.server.file e t.server.file

end MyTests.Rdma
