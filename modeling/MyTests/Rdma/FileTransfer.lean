/-
MyTests/Rdma/FileTransfer.lean

The file transfer of `src/rdma/03_file-transfer/rdma-file-transfer`: the client
of `client.c` writes the name and then the chunks of a file into the memory of
the server of `server.c`, which answers every write with a message.

A step of a party is one call of the verbs library or of the system, and what
follows it up to the next one.  The two adapters take steps of their own: a
posted request is carried out later, with what the memory then holds, and it
waits until the peer has posted a receive.  The connection is reliable and
keeps the order; a receive that is still posted when the connection goes down
is flushed, and `poll_cq` ends the process for it.

Completions of sends are left out: both `on_completion` ignore them, and a send is
taken to complete with success.  So are failures of `ibv_post_send` and
`ibv_post_recv`; the code would end the process (`rc_die`, `TEST_NZ`).
-/
import MyTests.Lib.Transfer
import MyTests.Lib.Transition

namespace MyTests.Rdma

open Lib

abbrev Byte := BitVec 8

/-! ### Messages -/

/-- `BUFFER_SIZE` -/
def bufferSize : ℕ := 10 * 1024 * 1024

/-- `MAX_FILE_NAME` -/
def maxFileName : ℕ := 256

/-- A number that is stored in an `uint32_t`. -/
def uint32 (n : ℕ) : ℕ := n % 2 ^ 32

/-- The string that starts at the front of `mem`. -/
def cstring (mem : List Byte) : List Byte := mem.takeWhile (· ≠ 0)

/-- `message_id` -/
inductive MessageId where
  | invalid
  | mr
  | ready
  | done
deriving DecidableEq

/-- Where the buffer of the server is, and the key to it. -/
structure Mr where
  addr : BitVec 64
  rkey : BitVec 32
deriving DecidableEq

structure Message where
  id : MessageId
  /-- `data.mr` -/
  mr : Mr
deriving DecidableEq

/-- An `IBV_WR_RDMA_WRITE_WITH_IMM` of the first `len` bytes of the buffer; `len` is the
immediate data as well. -/
structure WriteRequest where
  remote : Mr
  len : ℕ
deriving DecidableEq

/-! ### States -/

/-- What the client is called with: the last part of the path, and what `fd` reads. -/
structure Job where
  fileName : List Byte
  file : List Byte
  /-- it is a string -/
  terminated : 0 ∉ fileName
  /-- `basename` returns at least `"."` -/
  nonempty : fileName ≠ []

/-- The next call of the thread `poll_cq`. -/
inductive ClientPc where
  | poll
  | read
  /-- `write_remote(id, len)` -/
  | write (len : ℕ)
  | postReceive
  | disconnect
  | disconnected
  /-- `rc_die` -/
  | died
deriving DecidableEq

structure Client where
  pc : ClientPc
  buffer : List Byte
  msg : Message
  /-- `peer_addr` and `peer_rkey` -/
  peer : Mr
  /-- the offset of `fd` -/
  offset : ℕ
  /-- the receives that are posted -/
  receives : ℕ
  /-- the send queue -/
  sends : List WriteRequest
  /-- the completions of receives that are to be polled -/
  completions : ℕ
deriving DecidableEq

inductive ServerPc where
  | poll
  | open
  | write (size : ℕ)
  | postReceive
  | send
  | died
  /-- `file_name[size - 1]` lies behind the array. -/
  | overrun
deriving DecidableEq

structure Server where
  pc : ServerPc
  /-- `on_connection` has run -/
  established : Bool
  /-- `on_disconnect` has run -/
  closed : Bool
  buffer : List Byte
  bufferMr : Mr
  msg : Message
  /-- `file_name` -/
  fileName : List Byte
  /-- the name and the contents of the file behind `fd` -/
  file : Option (List Byte × List Byte)
  receives : ℕ
  /-- the messages in the send queue, which all lie in `msg` -/
  sends : ℕ
  /-- the immediate data of the completions that are to be polled -/
  completions : List ℕ
deriving DecidableEq

structure State where
  client : Client
  server : Server
deriving DecidableEq

inductive Event where
  | created (name : List Byte)
  | wrote (data : List Byte)
  /-- the client receives `MSG_DONE` -/
  | done
  /-- a call of the system fails -/
  | failed
deriving DecidableEq

/-- What `posix_memalign` and `malloc` leave in the memory of the two. -/
structure Memory where
  clientBuffer : List Byte
  clientMsg : Message
  clientPeer : Mr
  serverBuffer : List Byte
  serverMsg : Message
  /-- `file_name`, behind its first byte -/
  fileName : List Byte
  /-- where the buffer of the server lies -/
  bufferMr : Mr

/-- Both `on_pre_conn` have run, and the connection is accepted. -/
def State.init (m : Memory) : State where
  client :=
    { pc := .poll
      buffer := m.clientBuffer
      msg := m.clientMsg
      peer := m.clientPeer
      offset := 0
      receives := 1
      sends := []
      completions := 0 }
  server :=
    { pc := .poll
      established := false
      closed := false
      buffer := m.serverBuffer
      bufferMr := m.bufferMr
      msg := m.serverMsg
      fileName := 0 :: m.fileName
      file := none
      receives := 1
      sends := 0
      completions := [] }

/-! ### The client -/

/-- `send_file_name`, up to `write_remote`. -/
def Client.sendFileName (job : Job) (c : Client) : Client :=
  { c with
    buffer := splice c.buffer 0 (job.fileName ++ [0])
    pc := .write (uint32 (job.fileName.length + 1)) }

/-- `on_completion` of a receive, up to its first call. -/
def Client.onCompletion (job : Job) (c : Client) : List Event × Client :=
  match c.msg.id with
  | .mr => ([], { c with peer := c.msg.mr }.sendFileName job)
  | .ready => ([], { c with pc := .read })
  | .done => ([.done], { c with pc := .disconnect })
  | .invalid => ([], { c with pc := .postReceive })

/-- `read(ctx->fd, ctx->buffer, BUFFER_SIZE)` in `send_next_chunk`, which returns `r`.  A
count may be short, but it is 0 at the end of the file only. -/
def Client.sendNextChunk (job : Job) (r : Option ℕ) (c : Client) :
    Option (List Event × Client) :=
  match r with
  | none => some ([.failed], { c with pc := .died })
  | some k =>
      let rest := job.file.drop c.offset
      if k ≤ min bufferSize rest.length ∧ (k = 0 → rest = []) then
        some ([], { c with
          buffer := splice c.buffer 0 (rest.take k)
          offset := c.offset + k
          pc := .write (uint32 k) })
      else none

/-- The thread `poll_cq` of the client; `r` is for `read`. -/
def Client.step (job : Job) (r : Option ℕ) (c : Client) : Option (List Event × Client) :=
  match c.pc with
  | .poll =>
      if c.completions = 0 then none
      else some ({ c with completions := c.completions - 1 }.onCompletion job)
  | .read => c.sendNextChunk job r
  | .write len =>
      some ([], { c with sends := c.sends ++ [⟨c.peer, len⟩], pc := .postReceive })
  | .postReceive => some ([], { c with receives := c.receives + 1, pc := .poll })
  | .disconnect => some ([], { c with pc := .disconnected })
  | .disconnected | .died => none

/-! ### The server -/

/-- `on_connection` -/
def Server.onConnection (v : Server) : Server :=
  { v with established := true, msg := ⟨.mr, v.bufferMr⟩, sends := v.sends + 1 }

/-- The `memcpy` to `file_name`, and the byte that ends it. -/
def Server.takeFileName (v : Server) (size : ℕ) : Server :=
  if size ≤ maxFileName then
    { v with
      fileName := (splice v.fileName 0 (v.buffer.take size)).set (size - 1) 0
      pc := .open }
  else { v with pc := .overrun }

/-- `on_completion` of a receive, up to its first call. -/
def Server.onCompletion (v : Server) (size : ℕ) : Server :=
  if size = 0 then { v with msg := { v.msg with id := .done }, pc := .send }
  else if v.fileName.headD 0 ≠ 0 then { v with pc := .write size }
  else v.takeFileName size

/-- `open` with `O_CREAT | O_EXCL`, which returns a descriptor or fails. -/
def Server.openFile (r : Option ℕ) (v : Server) : List Event × Server :=
  match r with
  | none => ([.failed], { v with pc := .died })
  | some _ =>
      ([.created (cstring v.fileName)],
        { v with file := some (cstring v.fileName, []), pc := .postReceive })

/-- `write(ctx->fd, ctx->buffer, size)`, which writes `k` bytes; none when it fails. -/
def Server.writeChunk (r : Option ℕ) (size : ℕ) (v : Server) : Option (List Event × Server) :=
  match r with
  | none => some ([.failed], { v with pc := .died })
  | some k =>
      if k ≤ size then
        let data := v.buffer.take k
        let w := { v with file := v.file.map (Prod.map id (· ++ data)) }
        if k = size then some ([.wrote data], { w with pc := .postReceive })
        else some ([.wrote data, .failed], { w with pc := .died })
      else none

/-- The thread `poll_cq` of the server; `r` is for `open` and `write`. -/
def Server.step (r : Option ℕ) (v : Server) : Option (List Event × Server) :=
  match v.pc with
  | .poll =>
      match v.completions with
      | [] => none
      | size :: rest => some ([], { v with completions := rest }.onCompletion size)
  | .open => some (v.openFile r)
  | .write size => v.writeChunk r size
  | .postReceive =>
      some ([], { v with
        receives := v.receives + 1
        msg := { v.msg with id := .ready }
        pc := .send })
  | .send => some ([], { v with sends := v.sends + 1, pc := .poll })
  | .died | .overrun => none

/-! ### The adapters -/

/-- Both queue pairs are there. -/
def State.connected (s : State) : Bool :=
  s.client.pc != .disconnected && s.client.pc != .died && s.server.pc != .died &&
    s.server.pc != .overrun

/-- The first request of the client is carried out.  A wrong key completes with an error,
for which the client ends. -/
def State.deliverWrite (s : State) : Option (List Event × State) :=
  match s.client.sends with
  | [] => none
  | wr :: rest =>
      if s.connected ∧ 0 < s.server.receives then
        if wr.remote = s.server.bufferMr then
          some ([],
            { client := { s.client with sends := rest }
              server := { s.server with
                buffer := splice s.server.buffer 0 (s.client.buffer.take wr.len)
                receives := s.server.receives - 1
                completions := s.server.completions ++ [wr.len] } })
        else some ([], { s with client := { s.client with pc := .died } })
      else none

/-- The first message of the server arrives. -/
def State.deliverMessage (s : State) : Option (List Event × State) :=
  if s.connected ∧ 0 < s.server.sends ∧ 0 < s.client.receives then
    some ([],
      { client := { s.client with
          msg := s.server.msg
          receives := s.client.receives - 1
          completions := s.client.completions + 1 }
        server := { s.server with sends := s.server.sends - 1 } })
  else none

/-! ### Steps -/

inductive Action where
  /-- the server learns that the connection is there -/
  | establish
  | client (r : Option ℕ)
  | server (r : Option ℕ)
  | deliverWrite
  | deliverMessage
  /-- the server learns that the client has disconnected -/
  | close
  /-- a posted receive of a party is flushed after that -/
  | flushClient
  | flushServer
deriving DecidableEq

def act (job : Job) : Action → State → Option (List Event × State)
  | .establish, s =>
      if s.server.established then none
      else some ([], { s with server := s.server.onConnection })
  | .client r, s => (s.client.step job r).map fun p => (p.1, { s with client := p.2 })
  | .server r, s => (s.server.step r).map fun p => (p.1, { s with server := p.2 })
  | .deliverWrite, s => s.deliverWrite
  | .deliverMessage, s => s.deliverMessage
  | .close, s =>
      if s.client.pc = .disconnected ∧ s.server.closed = false then
        some ([], { s with server := { s.server with closed := true } })
      else none
  | .flushClient, s =>
      if s.client.pc = .disconnected ∧ 0 < s.client.receives then
        some ([], { s with client := { s.client with pc := .died } })
      else none
  | .flushServer, s =>
      if s.client.pc = .disconnected ∧ 0 < s.server.receives ∧ s.server.pc ≠ .died then
        some ([], { s with server := { s.server with pc := .died } })
      else none

/-- The parties and the adapters interleave as they like. -/
def Step (job : Job) (s : State) (e : List Event) (t : State) : Prop :=
  StepOf (act job) s e t

end MyTests.Rdma
