/-
MyTests/VioBench/Handlers.lean

The two handlers of `src/mysql/vio-bench`: the client of `vio-client.cc` sends
a request and reads a response, over and over, and the server of
`vio-server.cc` answers.

A step of a side is one system call and what follows it up to the next one.
The kernel picks the outcome of the call: a count, `EINTR`, `EAGAIN` or another
error.  A connection is a reliable stream of bytes in each direction.  An octet
carries where it comes from, which no step looks at.  The times that the server
prints are left out.
-/
import MyTests.Lib.Transfer
import MyTests.Lib.Transition

namespace MyTests.VioBench

open Lib

/-! ### Messages -/

/-- `_c2s_size` -/
def c2sSize : ℕ := 141

/-- `_s2c_size` -/
def s2cSize : ℕ := 24

structure Octet where
  value : BitVec 8
  /-- the number of the message and the place in it; none in cleared memory -/
  origin : Option (ℕ × ℕ)
deriving DecidableEq

/-- The message number `n`, read from the memory `buf`. -/
def stamp (n : ℕ) (buf : List (BitVec 8)) : List Octet := buf.mapIdx fun i v => ⟨v, some (n, i)⟩

/-- The `buf_send` of the client, `memset` to `'c'`. -/
def request (n : ℕ) : List Octet := stamp n (List.replicate c2sSize 0x63)

/-- The `buf_send` of the server, `memset` to `'s'`. -/
def response (n : ℕ) : List Octet := stamp n (List.replicate s2cSize 0x73)

/-- `memset(buf, 0, size)` -/
def cleared (size : ℕ) : List Octet := List.replicate size ⟨0, none⟩

@[simp] theorem length_request (n : ℕ) : (request n).length = c2sSize := by
  simp [request, stamp]

@[simp] theorem length_response (n : ℕ) : (response n).length = s2cSize := by
  simp [response, stamp]

@[simp] theorem length_cleared (size : ℕ) : (cleared size).length = size := by
  simp [cleared]

theorem request_ne_nil (n : ℕ) : request n ≠ [] :=
  List.ne_nil_of_length_pos (by rw [length_request]; decide)

theorem response_ne_nil (n : ℕ) : response n ≠ [] :=
  List.ne_nil_of_length_pos (by rw [length_response]; decide)

theorem value_of_mem_request {n : ℕ} {o : Octet} (h : o ∈ request n) : o.value = 0x63 := by
  obtain ⟨i, hi, rfl⟩ := List.mem_mapIdx.mp h
  exact List.getElem_replicate ..

/-! ### States -/

/-- What a system call returns: a count, or -1 with the `errno`. -/
inductive Outcome where
  | count (k : ℕ)
  | eintr
  | eagain
  | error
deriving DecidableEq

/-- The arguments of the next `send` are the rest of the buffer and `size`.  The
next `recv` reads `size` bytes to the offset `off`; `taken` is what this
`vio_read` has taken from the stream. -/
inductive ClientPc where
  | write (buf : List Octet) (size : ℕ)
  | read (off size : ℕ) (taken : List Octet)
  | closed
deriving DecidableEq

/-- `polling` in `vio_wait`. -/
inductive ServerPc where
  | write (polling : Bool) (buf : List Octet) (size : ℕ)
  | read (polling : Bool) (off size : ℕ) (taken : List Octet)
  | closed
deriving DecidableEq

structure State where
  client : ClientPc
  server : ServerPc
  /-- `buf_recv` of the client -/
  clientBuf : List Octet
  /-- `buf_recv` of the server -/
  serverBuf : List Octet
  /-- `_s_counts[idx].v` -/
  counter : BitVec 64
  errorFlag : Bool
  /-- the calls of `vio_write` so far -/
  requests : ℕ
  responses : ℕ
  /-- the streams -/
  c2s : List Octet
  s2c : List Octet
deriving DecidableEq

inductive Event where
  /-- a successful `vio_read`: what it took from the stream, and the buffer -/
  | serverRead (taken buf : List Octet)
  | clientRead (taken buf : List Octet)
  /-- the lines on `stderr` -/
  | readMismatch
  | clientClosed
  | serverReadError
  | serverWriteError
  | clientReadError
  | clientWriteError
deriving DecidableEq

/-- Both handlers at their first system call. -/
def State.init : State where
  client := .write (request 0) c2sSize
  server := .read false 0 c2sSize []
  clientBuf := cleared s2cSize
  serverBuf := cleared c2sSize
  counter := 0
  errorFlag := false
  requests := 1
  responses := 0
  c2s := []
  s2c := []

/-! ### The client -/

/-- `vio_write(s, buf_send, _send_size)` of the next pass. -/
def State.clientNext (s : State) : State :=
  { s with client := .write (request s.requests) c2sSize, requests := s.requests + 1 }

/-- The handler leaves its loop. -/
def State.closeClient (s : State) (errorFlag : Bool) : State :=
  { s with client := .closed, errorFlag := errorFlag }

/-- `vio_write`: the loop after `send`. -/
def clientWriteStep (s : State) (buf : List Octet) (size : ℕ) :
    Outcome → Option (List Event × State)
  | .count k =>
      if k ≤ size then
        let t := { s with c2s := s.c2s ++ buf.take k }
        if k = size then some ([], { t with client := .read 0 s2cSize [] })
        else some ([], { t with client := .write (buf.drop k) (size - k) })
      else none
  | .eintr => some ([], s)
  | .eagain | .error => some ([.clientWriteError], s.closeClient s.errorFlag)

/-- `vio_read`: the loop after `recv`. -/
def clientReadStep (s : State) (off size : ℕ) (taken : List Octet) :
    Outcome → Option (List Event × State)
  | .count k =>
      if k ≤ size ∧ k ≤ s.s2c.length then
        let data := s.s2c.take k
        let t := { s with s2c := s.s2c.drop k, clientBuf := splice s.clientBuf off data }
        if k = size then
          some ([.clientRead (taken ++ data) t.clientBuf],
            { t with counter := s.counter + 1 }.clientNext)
        else if k = 0 then some ([.clientReadError], t.closeClient true)
        else some ([], { t with client := .read (off + k) (size - k) (taken ++ data) })
      else none
  | .eintr => some ([], s)
  | .eagain | .error => some ([.clientReadError], s.closeClient true)

/-- `handler` of `vio-client.cc`. -/
def clientStep (o : Outcome) (s : State) : Option (List Event × State) :=
  match s.client with
  | .write buf size => clientWriteStep s buf size o
  | .read off size taken => clientReadStep s off size taken o
  | .closed => none

/-! ### The server -/

/-- `vio_wait`: the loop after `poll`.  The call goes on at `ready`, or fails. -/
def pollStep (s : State) (ready : ServerPc) (failed : Event) :
    Outcome → Option (List Event × State)
  | .count k =>
      if 0 < k then some ([], { s with server := ready })
      else some ([failed], { s with server := .closed })
  | .eintr => some ([], s)
  | .eagain | .error => some ([failed], { s with server := .closed })

/-- The check of the bytes read. -/
def checkRead (buf : List Octet) : List Event :=
  if buf.any fun o => o.value != 0x63 then [.readMismatch] else []

/-- `vio_write(s, buf_send, _send_size)`, after the `memset` of `buf_recv`. -/
def State.serverNext (s : State) : State :=
  { s with
    serverBuf := cleared c2sSize
    server := .write false (response s.responses) s2cSize
    responses := s.responses + 1 }

/-- `vio_read`: the loop after `recv`. -/
def serverReadStep (s : State) (off size : ℕ) (taken : List Octet) :
    Outcome → Option (List Event × State)
  | .count k =>
      if k ≤ size ∧ k ≤ s.c2s.length then
        let data := s.c2s.take k
        let t := { s with c2s := s.c2s.drop k, serverBuf := splice s.serverBuf off data }
        if k = size then
          some (.serverRead (taken ++ data) t.serverBuf :: checkRead t.serverBuf, t.serverNext)
        else if k = 0 then some ([.clientClosed], { t with server := .closed })
        else some ([], { t with server := .read false (off + k) (size - k) (taken ++ data) })
      else none
  | .eintr => some ([], s)
  | .eagain => some ([], { s with server := .read true off size taken })
  | .error => some ([.serverReadError], { s with server := .closed })

/-- `vio_write`: the loop after `send`. -/
def serverWriteStep (s : State) (buf : List Octet) (size : ℕ) :
    Outcome → Option (List Event × State)
  | .count k =>
      if k ≤ size then
        let t := { s with s2c := s.s2c ++ buf.take k }
        if k = size then some ([], { t with server := .read false 0 c2sSize [] })
        else some ([], { t with server := .write false (buf.drop k) (size - k) })
      else none
  | .eintr => some ([], s)
  | .eagain => some ([], { s with server := .write true buf size })
  | .error => some ([.serverWriteError], { s with server := .closed })

/-- `handler` of `vio-server.cc`. -/
def serverStep (o : Outcome) (s : State) : Option (List Event × State) :=
  match s.server with
  | .read false off size taken => serverReadStep s off size taken o
  | .read true off size taken => pollStep s (.read false off size taken) .serverReadError o
  | .write false buf size => serverWriteStep s buf size o
  | .write true buf size => pollStep s (.write false buf size) .serverWriteError o
  | .closed => none

/-! ### Both sides -/

/-- A system call of one side returns. -/
inductive Step : State → List Event → State → Prop
  | client {s es t} (o : Outcome) : clientStep o s = some (es, t) → Step s es t
  | server {s es t} (o : Outcome) : serverStep o s = some (es, t) → Step s es t

end MyTests.VioBench
