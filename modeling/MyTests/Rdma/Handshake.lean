/-
MyTests/Rdma/Handshake.lean

The exchange of `src/rdma/02_read-write`: two processes send each other the
key of a memory region, write to the region of the peer (or read from it, by
the mode), tell each other that it is done, and show what has come.

Both sides run the same `on_completion` (`rdma-common.c`); they differ in who
sends first (`rdma-client.c`, `rdma-server.c`).  A step is one event of the
connection, one completion that is polled and handled, or one request that an
adapter carries out.  The connection is reliable and keeps the order of the
requests, and a message waits until the peer has posted a receive.

Completions of sends and of receives share a queue, and the code counts on
their order.  With `prompt` the completion of a message is in the queue of its
sender when the receiver has the message; without it, it comes at any time
later.

A side that has shown the text disconnects.  From then on the event of the
disconnection can come to either side; `on_disconnect` frees the connection, on
the event thread, whether or not the other thread has polled what is in the
completion queue (`Fate`).  It comes before or after a completion is handled,
never in the middle.  At the client `main` returns after that.  When the other
thread still polls a completion of a connection that has been freed, what the
program does is undefined, and the side takes no further step here.

Left out: the set-up of the verbs objects, and requests that fail.
-/
import MyTests.Lib.Transition

namespace MyTests.Rdma.Handshake

open Lib

/-! ### States -/

inductive Side where
  | client
  | server
deriving DecidableEq

def Side.peer : Side → Side
  | client => server
  | server => client

/-- `M_WRITE` and `M_READ` -/
inductive Mode where
  | write
  | read
deriving DecidableEq

/-- `struct message`; an `ibv_mr` is the side whose `rdma_remote_region` it is about. -/
inductive Message where
  | mr (owner : Side)
  | done
deriving DecidableEq

/-- A work request in the send queue. -/
inductive Request where
  /-- the message in `send_msg` -/
  | send
  /-- `IBV_WR_RDMA_WRITE` or `IBV_WR_RDMA_READ`, at the address in `peer_mr` -/
  | rdma
deriving DecidableEq

/-- A completion. -/
inductive Wc where
  | recv
  | send
deriving DecidableEq

/-- `struct connection`, with what the adapter holds for it; memory is `none` until it is
written.  `SS_INIT`, ... and `RS_INIT`, ... are 0, 1, ... -/
structure Conn (T : Type) where
  connected : Bool
  sendState : ℕ
  recvState : ℕ
  peerMr : Option Side
  recvMsg : Option Message
  sendMsg : Option Message
  localRegion : Option T
  remoteRegion : Option T
  /-- the thread is in `while (!conn->connected)` -/
  spinning : Bool
  /-- the receives that are posted -/
  receives : ℕ
  queue : List Request
  /-- requests that are carried out and not yet completed -/
  unacked : ℕ
  cq : List Wc
  /-- the lines `remote buffer: ...` -/
  printed : List (Option T)
  disconnected : Bool
deriving DecidableEq

/-- What has become of a connection. -/
inductive Fate where
  | live
  /-- `destroy_connection` has been called -/
  | freed
  /-- a completion of it has been polled after that -/
  | touched
  /-- `main` of the client has returned -/
  | exited
deriving DecidableEq

structure State (T : Type) where
  conn : Side → Conn T
  fate : Side → Fate

variable {T : Type}

def State.set (s : State T) (side : Side) (c : Conn T) : State T :=
  { s with conn := Function.update s.conn side c }

def State.turn (s : State T) (side : Side) (f : Fate) : State T :=
  { s with fate := Function.update s.fate side f }

/-! ### The code -/

/-- `build_connection`, and the `sprintf` to `get_local_message_region` after it. -/
def buildConnection (mode : Mode) (text : T) : Conn T where
  connected := false
  sendState := 0
  recvState := 0
  peerMr := none
  recvMsg := none
  sendMsg := none
  localRegion := if mode = .write then some text else none
  remoteRegion := if mode = .write then none else some text
  spinning := false
  receives := 1
  queue := []
  unacked := 0
  cq := []
  printed := []
  disconnected := false

/-- `send_message(conn)`, which waits for `connected`. -/
def sendMessage (c : Conn T) : Conn T :=
  if c.connected then { c with queue := c.queue ++ [.send] } else { c with spinning := true }

/-- `send_mr(conn)` -/
def sendMr (side : Side) (c : Conn T) : Conn T :=
  sendMessage { c with sendMsg := some (.mr side) }

def postReceives (c : Conn T) : Conn T := { c with receives := c.receives + 1 }

/-- `get_peer_message_region(conn)` -/
def getPeerMessageRegion (mode : Mode) (c : Conn T) : Option T :=
  if mode = .write then c.remoteRegion else c.localRegion

/-- The first part of `on_completion`. -/
def onWc (side : Side) (wc : Wc) (c : Conn T) : Conn T :=
  match wc with
  | .recv =>
      let c := { c with recvState := c.recvState + 1 }
      match c.recvMsg with
      | some (.mr owner) =>
          let c := postReceives { c with peerMr := some owner }
          if c.sendState = 0 then sendMr side c else c
      | _ => c
  | .send => { c with sendState := c.sendState + 1 }

/-- The second part of `on_completion`. -/
def proceed (mode : Mode) (c : Conn T) : Conn T :=
  if c.sendState = 1 ∧ c.recvState = 1 then
    sendMessage { c with queue := c.queue ++ [.rdma], sendMsg := some .done }
  else if c.sendState = 3 ∧ c.recvState = 2 then
    { c with printed := c.printed ++ [getPeerMessageRegion mode c], disconnected := true }
  else c

/-- `on_completion(wc)`.  While it spins in its first part, `send_state` is `SS_INIT`, and the
second part does nothing. -/
def onCompletion (mode : Mode) (side : Side) (wc : Wc) (c : Conn T) : Conn T :=
  proceed mode (onWc side wc c)

/-- `on_connection`: the client goes on to send its key. -/
def onConnection (side : Side) (c : Conn T) : Conn T :=
  let c := { c with connected := true }
  match side with
  | .client => sendMr .client c
  | .server => c

/-! ### Steps -/

inductive Action where
  /-- `RDMA_CM_EVENT_ESTABLISHED` -/
  | establish (side : Side)
  /-- the thread that spins sees `connected` -/
  | resume (side : Side)
  /-- `ibv_poll_cq` and `on_completion` -/
  | poll (side : Side)
  /-- the adapter carries out the next request -/
  | execute (side : Side)
  /-- the adapter completes a request that is carried out -/
  | complete (side : Side)
  /-- `RDMA_CM_EVENT_DISCONNECTED` -/
  | disconnect (side : Side)
  /-- `ibv_poll_cq` and `on_completion`, on a connection that has been freed -/
  | touch (side : Side)
  /-- `on_disconnect` of the client has returned 1 -/
  | exit
deriving DecidableEq

inductive Event (T : Type) where
  | message (sender : Side) (msg : Message)
  | access (side : Side)
  | shown (side : Side) (line : Option T)
deriving DecidableEq

/-- The completion of a request of `c`. -/
def finish (prompt : Bool) (c : Conn T) : Conn T :=
  if prompt then { c with cq := c.cq ++ [.send] } else { c with unacked := c.unacked + 1 }

def establish (side : Side) (s : State T) : Option (List (Event T) × State T) :=
  if (s.conn side).connected then none
  else some ([], s.set side (onConnection side (s.conn side)))

def resume (side : Side) (s : State T) : Option (List (Event T) × State T) :=
  let c := s.conn side
  if c.spinning ∧ c.connected then
    some ([], s.set side { c with spinning := false, queue := c.queue ++ [.send] })
  else none

def poll (mode : Mode) (side : Side) (s : State T) : Option (List (Event T) × State T) :=
  let c := s.conn side
  if c.spinning ∨ s.fate side ≠ .live then none
  else match c.cq with
    | [] => none
    | wc :: rest =>
        let c' := onCompletion mode side wc { c with cq := rest }
        some ((c'.printed.drop c.printed.length).map (.shown side), s.set side c')

def execute (mode : Mode) (prompt : Bool) (side : Side) (s : State T) :
    Option (List (Event T) × State T) :=
  let c := s.conn side
  let p := s.conn side.peer
  if c.disconnected ∨ p.disconnected then none
  else match c.queue, c.sendMsg, c.peerMr with
    | .send :: rest, some msg, _ =>
        if p.receives = 0 then none
        else
          let p' := { p with
            recvMsg := some msg
            receives := p.receives - 1
            cq := p.cq ++ [.recv] }
          some ([.message side msg],
            (s.set side.peer p').set side (finish prompt { c with queue := rest }))
    | .rdma :: rest, _, some owner =>
        let s := s.set side (finish prompt { c with queue := rest })
        match mode with
        | .write =>
            let o := s.conn owner
            some ([.access side], s.set owner { o with remoteRegion := c.localRegion })
        | .read =>
            let c := s.conn side
            some ([.access side], s.set side { c with localRegion := (s.conn owner).remoteRegion })
    | _, _, _ => none

def complete (side : Side) (s : State T) : Option (List (Event T) × State T) :=
  let c := s.conn side
  if c.unacked = 0 then none
  else some ([], s.set side { c with unacked := c.unacked - 1, cq := c.cq ++ [.send] })

/-- `on_disconnect`, which frees the connection.  The event comes to both sides, to the one that
has not disconnected and to the one that has. -/
def disconnect (side : Side) (s : State T) : Option (List (Event T) × State T) :=
  if s.fate side = .live ∧ ((s.conn side).disconnected ∨ (s.conn side.peer).disconnected) then
    some ([], s.turn side .freed)
  else none

def touch (side : Side) (s : State T) : Option (List (Event T) × State T) :=
  if s.fate side = .freed ∧ (s.conn side).cq ≠ [] then some ([], s.turn side .touched) else none

def exit (s : State T) : Option (List (Event T) × State T) :=
  if s.fate .client = .freed then some ([], s.turn .client .exited) else none

def act (mode : Mode) (prompt : Bool) : Action → State T → Option (List (Event T) × State T)
  | .establish side => establish side
  | .resume side => resume side
  | .poll side => poll mode side
  | .execute side => execute mode prompt side
  | .complete side => complete side
  | .disconnect side => disconnect side
  | .touch side => touch side
  | .exit => exit

def Step (mode : Mode) (prompt : Bool) (s : State T) (es : List (Event T)) (t : State T) : Prop :=
  StepOf (act mode prompt) s es t

/-- Both connections are built; `text` is what each side has to say. -/
def init (mode : Mode) (text : Side → T) : State T :=
  ⟨fun side => buildConnection mode (text side), fun _ => .live⟩

end MyTests.Rdma.Handshake
