/-
MyTests/VioBench/Lockstep.lean

The two handlers go in lockstep.  The conversation alternates between two
phases: a request is under way, or a response is.  In each, one side writes the
message or has written it, the other reads it and has not read it all, and the
message is split between them as in `Transfer`; the other direction is empty.
A side turns to the next message only when its `vio_read` has counted down to
zero, and by then nothing of the old one is left.
-/
import MyTests.VioBench.Handlers

namespace MyTests.VioBench

open Lib

variable {s t : State} {es e : List Event} {o : Outcome}

/-! ### What a step does -/

/-- A step of one side.  `shut` is any step after which a side is closed. -/
inductive Move (s : State) : List Event → State → Prop
  | stay : Move s [] s
  | shut {es : List Event} {t : State} : t.client = .closed ∨ t.server = .closed → Move s es t
  | pollRead {p q off size taken} : s.server = .read p off size taken →
      Move s [] { s with server := .read q off size taken }
  | pollWrite {p q buf size} : s.server = .write p buf size →
      Move s [] { s with server := .write q buf size }
  | clientSend {buf size k} : s.client = .write buf size → k < size →
      Move s [] { s with c2s := s.c2s ++ buf.take k, client := .write (buf.drop k) (size - k) }
  | clientSent {buf size} : s.client = .write buf size →
      Move s [] { s with c2s := s.c2s ++ buf.take size, client := .read 0 s2cSize [] }
  | clientRecv {off size taken k} : s.client = .read off size taken → 0 < k → k < size →
      k ≤ s.s2c.length →
      Move s [] { s with
        s2c := s.s2c.drop k
        clientBuf := splice s.clientBuf off (s.s2c.take k)
        client := .read (off + k) (size - k) (taken ++ s.s2c.take k) }
  | clientGot {off size taken} : s.client = .read off size taken → size ≤ s.s2c.length →
      Move s [.clientRead (taken ++ s.s2c.take size) (splice s.clientBuf off (s.s2c.take size))]
        { s with
          s2c := s.s2c.drop size
          clientBuf := splice s.clientBuf off (s.s2c.take size)
          counter := s.counter + 1
          client := .write (request s.requests) c2sSize
          requests := s.requests + 1 }
  | serverSend {p buf size k} : s.server = .write p buf size → k < size →
      Move s [] { s with s2c := s.s2c ++ buf.take k, server := .write false (buf.drop k) (size - k) }
  | serverSent {p buf size} : s.server = .write p buf size →
      Move s [] { s with s2c := s.s2c ++ buf.take size, server := .read false 0 c2sSize [] }
  | serverRecv {p off size taken k} : s.server = .read p off size taken → 0 < k → k < size →
      k ≤ s.c2s.length →
      Move s [] { s with
        c2s := s.c2s.drop k
        serverBuf := splice s.serverBuf off (s.c2s.take k)
        server := .read false (off + k) (size - k) (taken ++ s.c2s.take k) }
  | serverGot {p off size taken} : s.server = .read p off size taken → size ≤ s.c2s.length →
      Move s (.serverRead (taken ++ s.c2s.take size) (splice s.serverBuf off (s.c2s.take size)) ::
          checkRead (splice s.serverBuf off (s.c2s.take size)))
        { s with
          c2s := s.c2s.drop size
          serverBuf := cleared c2sSize
          server := .write false (response s.responses) s2cSize
          responses := s.responses + 1 }

theorem clientWriteStep_move {buf : List Octet} {size : ℕ} (hpc : s.client = .write buf size)
    (hs : clientWriteStep s buf size o = some (es, t)) : Move s es t := by
  cases o with
  | count k =>
      simp only [clientWriteStep] at hs
      split at hs
      · rename_i hle
        split at hs
        · rename_i heq
          obtain ⟨rfl, rfl⟩ := Prod.mk.inj (Option.some.inj hs)
          rw [heq]
          exact .clientSent hpc
        · obtain ⟨rfl, rfl⟩ := Prod.mk.inj (Option.some.inj hs)
          exact .clientSend hpc (by omega)
      · cases hs
  | eintr =>
      obtain ⟨rfl, rfl⟩ := Prod.mk.inj (Option.some.inj hs)
      exact .stay
  | eagain =>
      obtain ⟨rfl, rfl⟩ := Prod.mk.inj (Option.some.inj hs)
      exact .shut (Or.inl rfl)
  | error =>
      obtain ⟨rfl, rfl⟩ := Prod.mk.inj (Option.some.inj hs)
      exact .shut (Or.inl rfl)

theorem clientReadStep_move {off size : ℕ} {taken : List Octet}
    (hpc : s.client = .read off size taken)
    (hs : clientReadStep s off size taken o = some (es, t)) : Move s es t := by
  cases o with
  | count k =>
      simp only [clientReadStep] at hs
      split at hs
      · rename_i hle
        split at hs
        -- the whole message is there
        · rename_i heq
          obtain ⟨rfl, rfl⟩ := Prod.mk.inj (Option.some.inj hs)
          rw [heq]
          exact .clientGot hpc (by omega)
        · split at hs
          · obtain ⟨rfl, rfl⟩ := Prod.mk.inj (Option.some.inj hs)
            -- `read` has returned 0, the end of the stream
            exact .shut (Or.inl rfl)
          · obtain ⟨rfl, rfl⟩ := Prod.mk.inj (Option.some.inj hs)
            exact .clientRecv hpc (by omega) (by omega) hle.2
      · cases hs
  | eintr =>
      obtain ⟨rfl, rfl⟩ := Prod.mk.inj (Option.some.inj hs)
      exact .stay
  | eagain =>
      obtain ⟨rfl, rfl⟩ := Prod.mk.inj (Option.some.inj hs)
      exact .shut (Or.inl rfl)
  | error =>
      obtain ⟨rfl, rfl⟩ := Prod.mk.inj (Option.some.inj hs)
      exact .shut (Or.inl rfl)

theorem clientStep_move (hs : clientStep o s = some (es, t)) : Move s es t := by
  unfold clientStep at hs
  cases hpc : s.client with
  | write buf size =>
      rw [hpc] at hs
      exact clientWriteStep_move hpc hs
  | read off size taken =>
      rw [hpc] at hs
      exact clientReadStep_move hpc hs
  | closed =>
      rw [hpc] at hs
      cases hs

theorem serverReadStep_move {p : Bool} {off size : ℕ} {taken : List Octet}
    (hpc : s.server = .read p off size taken)
    (hs : serverReadStep s off size taken o = some (es, t)) : Move s es t := by
  cases o with
  | count k =>
      simp only [serverReadStep] at hs
      split at hs
      · rename_i hle
        split at hs
        · rename_i heq
          obtain ⟨rfl, rfl⟩ := Prod.mk.inj (Option.some.inj hs)
          rw [heq]
          exact .serverGot hpc (by omega)
        · split at hs
          · obtain ⟨rfl, rfl⟩ := Prod.mk.inj (Option.some.inj hs)
            exact .shut (Or.inr rfl)
          · obtain ⟨rfl, rfl⟩ := Prod.mk.inj (Option.some.inj hs)
            exact .serverRecv hpc (by omega) (by omega) hle.2
      · cases hs
  | eintr =>
      obtain ⟨rfl, rfl⟩ := Prod.mk.inj (Option.some.inj hs)
      exact .stay
  | eagain =>
      obtain ⟨rfl, rfl⟩ := Prod.mk.inj (Option.some.inj hs)
      -- the server's socket does not block: it polls and tries again
      exact .pollRead hpc
  | error =>
      obtain ⟨rfl, rfl⟩ := Prod.mk.inj (Option.some.inj hs)
      exact .shut (Or.inr rfl)

theorem serverWriteStep_move {p : Bool} {buf : List Octet} {size : ℕ}
    (hpc : s.server = .write p buf size)
    (hs : serverWriteStep s buf size o = some (es, t)) : Move s es t := by
  cases o with
  | count k =>
      simp only [serverWriteStep] at hs
      split at hs
      · rename_i hle
        split at hs
        · rename_i heq
          obtain ⟨rfl, rfl⟩ := Prod.mk.inj (Option.some.inj hs)
          rw [heq]
          exact .serverSent hpc
        · obtain ⟨rfl, rfl⟩ := Prod.mk.inj (Option.some.inj hs)
          exact .serverSend hpc (by omega)
      · cases hs
  | eintr =>
      obtain ⟨rfl, rfl⟩ := Prod.mk.inj (Option.some.inj hs)
      exact .stay
  | eagain =>
      obtain ⟨rfl, rfl⟩ := Prod.mk.inj (Option.some.inj hs)
      exact .pollWrite hpc
  | error =>
      obtain ⟨rfl, rfl⟩ := Prod.mk.inj (Option.some.inj hs)
      exact .shut (Or.inr rfl)

/-- `vio_wait` goes back to the call, waits on, or gives up. -/
theorem pollStep_move {ready : ServerPc} {failed : Event}
    (hready : Move s [] { s with server := ready })
    (hs : pollStep s ready failed o = some (es, t)) : Move s es t := by
  cases o with
  | count k =>
      simp only [pollStep] at hs
      split at hs
      · obtain ⟨rfl, rfl⟩ := Prod.mk.inj (Option.some.inj hs)
        exact hready
      · obtain ⟨rfl, rfl⟩ := Prod.mk.inj (Option.some.inj hs)
        exact .shut (Or.inr rfl)
  | eintr =>
      obtain ⟨rfl, rfl⟩ := Prod.mk.inj (Option.some.inj hs)
      exact .stay
  | eagain =>
      obtain ⟨rfl, rfl⟩ := Prod.mk.inj (Option.some.inj hs)
      exact .shut (Or.inr rfl)
  | error =>
      obtain ⟨rfl, rfl⟩ := Prod.mk.inj (Option.some.inj hs)
      exact .shut (Or.inr rfl)

theorem serverStep_move (hs : serverStep o s = some (es, t)) : Move s es t := by
  unfold serverStep at hs
  cases hpc : s.server with
  | read polling off size taken =>
      rw [hpc] at hs
      cases polling with
      | false => exact serverReadStep_move hpc hs
      | true => exact pollStep_move (.pollRead hpc) hs
  | write polling buf size =>
      rw [hpc] at hs
      cases polling with
      | false => exact serverWriteStep_move hpc hs
      | true => exact pollStep_move (.pollWrite hpc) hs
  | closed =>
      rw [hpc] at hs
      cases hs

theorem Step.move (hs : Step s e t) : Move s e t := by
  cases hs with
  | client o hs => exact clientStep_move hs
  | server o hs => exact serverStep_move hs

/-! ### Events -/

def Event.isServerRead : Event → Bool
  | .serverRead _ _ => true
  | _ => false

def Event.isClientRead : Event → Bool
  | .clientRead _ _ => true
  | _ => false

/-- The server has read `m` requests, the client `p` responses, each as it was
sent. -/
structure Log (m p : ℕ) (es : List Event) : Prop where
  server : es.filter Event.isServerRead
    = (List.range m).map fun k => .serverRead (request k) (request k)
  client : es.filter Event.isClientRead
    = (List.range p).map fun k => .clientRead (response k) (response k)
  mismatch : Event.readMismatch ∉ es

variable {m p k : ℕ} {got rest : List Octet}

theorem Log.quiet (h : Log m p es) : Log m p (es ++ []) := by rwa [List.append_nil]

theorem checkRead_request (n : ℕ) : checkRead (request n) = [] := by
  have hall : ((request n).any fun o => o.value != 0x63) = false := by
    refine List.any_eq_false.mpr fun o ho => ?_
    rw [value_of_mem_request ho]
    decide
  rw [checkRead, hall]
  rfl

theorem Log.serverRead (h : Log m p es) :
    Log (m + 1) p (es ++ .serverRead (request m) (request m) :: checkRead (request m)) := by
  rw [checkRead_request]
  refine ⟨?_, ?_, ?_⟩
  · rw [List.filter_append, h.server, List.range_succ, List.map_append]
    rfl
  · rw [List.filter_append, h.client]
    exact List.append_nil _
  · rw [List.mem_append, not_or]
    exact ⟨h.mismatch, by simp⟩

theorem Log.clientRead (h : Log m p es) :
    Log m (p + 1) (es ++ [.clientRead (response p) (response p)]) := by
  refine ⟨?_, ?_, ?_⟩
  · rw [List.filter_append, h.server]
    exact List.append_nil _
  · rw [List.filter_append, h.client, List.range_succ, List.map_append]
    rfl
  · rw [List.mem_append, not_or]
    exact ⟨h.mismatch, by simp⟩

/-! ### The two phases -/

/-- The client has `rest` of its request to write, and then reads. -/
def ClientPc.Holds (pc : ClientPc) (rest : List Octet) : Prop :=
  pc = .write rest rest.length ∧ rest ≠ [] ∨ pc = .read 0 s2cSize [] ∧ rest = []

/-- The server has `rest` of its response to write, and then reads. -/
def ServerPc.Holds (pc : ServerPc) (rest : List Octet) : Prop :=
  (∃ p, pc = .write p rest rest.length) ∧ rest ≠ [] ∨
    (∃ p, pc = .read p 0 c2sSize []) ∧ rest = []

/-- The request number `k` is under way, and the server has read `got`. -/
structure Requesting (k : ℕ) (got rest : List Octet) (s : State) : Prop where
  transfer : Transfer (request k) got s.c2s rest
  client : s.client.Holds rest
  server : ∃ p, s.server = .read p got.length (c2sSize - got.length) got
  lt : got.length < c2sSize
  s2c : s.s2c = []
  filled : s.serverBuf.take got.length = got
  serverBuf : s.serverBuf.length = c2sSize
  clientBuf : s.clientBuf.length = s2cSize
  requests : s.requests = k + 1
  responses : s.responses = k
  counter : s.counter = BitVec.ofNat 64 k

/-- The response number `k` is under way, and the client has read `got`. -/
structure Responding (k : ℕ) (got rest : List Octet) (s : State) : Prop where
  transfer : Transfer (response k) got s.s2c rest
  server : s.server.Holds rest
  client : s.client = .read got.length (s2cSize - got.length) got
  lt : got.length < s2cSize
  c2s : s.c2s = []
  filled : s.clientBuf.take got.length = got
  serverBuf : s.serverBuf.length = c2sSize
  clientBuf : s.clientBuf.length = s2cSize
  requests : s.requests = k + 1
  responses : s.responses = k + 1
  counter : s.counter = BitVec.ofNat 64 k

/-- The invariant of the conversation. -/
inductive Inv (es : List Event) (s : State) : Prop
  | request {k : ℕ} {got rest : List Octet} : Requesting k got rest s → Log k k es → Inv es s
  | response {k : ℕ} {got rest : List Octet} : Responding k got rest s → Log (k + 1) k es → Inv es s
  | shut : s.client = .closed ∨ s.server = .closed → Inv es s

theorem Inv.init : Inv [] State.init := by
  refine .request (k := 0) ⟨.start rfl, Or.inl ⟨?_, ?_⟩, ⟨false, rfl⟩, by decide, rfl, rfl,
    length_cleared _, length_cleared _, rfl, rfl, rfl⟩ ⟨rfl, rfl, nofun⟩
  · rw [length_request]
    rfl
  · apply List.ne_nil_of_length_pos
    rw [length_request]
    decide

/-! ### Steps -/

theorem ClientPc.Holds.of_write {pc : ClientPc} {buf : List Octet} {size : ℕ} (h : pc.Holds rest)
    (hpc : pc = .write buf size) : buf = rest ∧ size = rest.length := by
  obtain ⟨hwrite, -⟩ | ⟨hread, -⟩ := h
  · cases hpc.symm.trans hwrite
    exact ⟨rfl, rfl⟩
  · cases hpc.symm.trans hread

/-- A side that has not written its message all does not read, and one that has
is to read a whole message. -/
theorem ClientPc.Holds.of_read {pc : ClientPc} {off size : ℕ} {taken : List Octet}
    (h : pc.Holds rest) (hpc : pc = .read off size taken) : size = s2cSize ∧ rest = [] := by
  obtain ⟨hwrite, -⟩ | ⟨hread, hrest⟩ := h
  · cases hpc.symm.trans hwrite
  · cases hpc.symm.trans hread
    exact ⟨rfl, hrest⟩

theorem ClientPc.Holds.of_nil {pc : ClientPc} (h : pc.Holds []) : pc = .read 0 s2cSize [] := by
  obtain ⟨-, hne⟩ | ⟨hread, -⟩ := h
  · exact absurd rfl hne
  · exact hread

theorem ServerPc.Holds.of_write {pc : ServerPc} {q : Bool} {buf : List Octet} {size : ℕ}
    (h : pc.Holds rest) (hpc : pc = .write q buf size) :
    buf = rest ∧ size = rest.length ∧ rest ≠ [] := by
  obtain ⟨⟨_, hwrite⟩, hne⟩ | ⟨⟨_, hread⟩, -⟩ := h
  · cases hpc.symm.trans hwrite
    exact ⟨rfl, rfl, hne⟩
  · cases hpc.symm.trans hread

theorem ServerPc.Holds.of_read {pc : ServerPc} {q : Bool} {off size : ℕ} {taken : List Octet}
    (h : pc.Holds rest) (hpc : pc = .read q off size taken) :
    off = 0 ∧ size = c2sSize ∧ taken = [] ∧ rest = [] := by
  obtain ⟨⟨_, hwrite⟩, -⟩ | ⟨⟨_, hread⟩, hrest⟩ := h
  · cases hpc.symm.trans hwrite
  · cases hpc.symm.trans hread
    exact ⟨rfl, rfl, rfl, hrest⟩

/-- What is left after a partial write. -/
theorem drop_ne_nil_of_lt (h : k < rest.length) : rest.drop k ≠ [] :=
  List.ne_nil_of_length_pos (by rw [List.length_drop]; omega)

/-- A message is under way until its reader has counted down to zero. -/
theorem Requesting.move (h : Requesting k got rest s) (hlog : Log k k es) (hm : Move s e t) :
    Inv (es ++ e) t := by
  cases hm with
  | stay => exact .request h hlog.quiet
  | shut hclosed => exact .shut hclosed
  | @pollRead _ q _ _ _ hpc =>
      obtain ⟨p, hserver⟩ := h.server
      cases hpc.symm.trans hserver
      exact .request { h with server := ⟨q, rfl⟩ } hlog.quiet
  | pollWrite hpc =>
      obtain ⟨p, hserver⟩ := h.server
      cases hpc.symm.trans hserver
  | @clientSend buf _ j hpc hlt =>
      obtain ⟨rfl, rfl⟩ := h.client.of_write hpc
      refine .request { h with transfer := h.transfer.send j, client := ?_ } hlog.quiet
      exact Or.inl ⟨by rw [List.length_drop], drop_ne_nil_of_lt hlt⟩
  | @clientSent buf _ hpc =>
      obtain ⟨rfl, rfl⟩ := h.client.of_write hpc
      refine .request { h with transfer := ?_, client := Or.inr ⟨rfl, rfl⟩ } hlog.quiet
      have htransfer := h.transfer.send buf.length
      rwa [List.drop_length] at htransfer
  | clientRecv hpc hpos hlt hle =>
      -- there is nothing to read
      rw [h.s2c, List.length_nil] at hle
      omega
  | clientGot hpc hle =>
      rw [(h.client.of_read hpc).1, h.s2c] at hle
      exact absurd hle (by decide)
  | serverSend hpc =>
      obtain ⟨p, hserver⟩ := h.server
      cases hpc.symm.trans hserver
  | serverSent hpc =>
      obtain ⟨p, hserver⟩ := h.server
      cases hpc.symm.trans hserver
  | @serverRecv _ _ _ _ j hpc hpos hlt hle =>
      obtain ⟨p, hserver⟩ := h.server
      cases hpc.symm.trans hserver
      have hlen : (got ++ s.c2s.take j).length = got.length + j := by
        rw [List.length_append, List.length_take, Nat.min_eq_left hle]
      refine .request { h with
        transfer := h.transfer.recv j
        server := ⟨false, by rw [hlen, Nat.sub_sub]⟩
        lt := by omega
        filled := take_splice h.filled
        serverBuf := ?_ } hlog.quiet
      refine (length_splice ?_).trans h.serverBuf
      rw [h.serverBuf, List.length_take, Nat.min_eq_left hle]
      omega
  | serverGot hpc hle =>
      obtain ⟨p, hserver⟩ := h.server
      cases hpc.symm.trans hserver
      obtain ⟨htaken, hbuf, hflight, rfl⟩ := h.transfer.finish h.filled
        (h.serverBuf.trans (length_request k).symm) (by rw [length_request]; exact h.lt.le)
        (by rw [length_request]; exact hle)
      rw [length_request] at htaken hbuf hflight
      rw [htaken, hbuf]
      refine @Inv.response _ _ k [] (response k) ?_ hlog.serverRead
      exact {
        transfer := .start h.s2c
        server := Or.inl ⟨⟨false, by rw [h.responses, length_response]⟩, response_ne_nil k⟩
        client := h.client.of_nil
        lt := by decide
        c2s := hflight
        filled := rfl
        serverBuf := length_cleared _
        clientBuf := h.clientBuf
        requests := h.requests
        responses := congrArg (· + 1) h.responses
        counter := h.counter }

theorem ServerPc.Holds.of_nil {pc : ServerPc} (h : pc.Holds []) :
    ∃ p, pc = .read p 0 c2sSize [] := by
  obtain ⟨-, hne⟩ | ⟨hread, -⟩ := h
  · exact absurd rfl hne
  · exact hread

theorem Responding.move (h : Responding k got rest s) (hlog : Log (k + 1) k es)
    (hm : Move s e t) : Inv (es ++ e) t := by
  cases hm with
  | stay => exact .response h hlog.quiet
  | shut hclosed => exact .shut hclosed
  | @pollRead _ q _ _ _ hpc =>
      obtain ⟨rfl, rfl, rfl, rfl⟩ := h.server.of_read hpc
      exact .response { h with server := Or.inr ⟨⟨q, rfl⟩, rfl⟩ } hlog.quiet
  | @pollWrite _ q _ _ hpc =>
      obtain ⟨rfl, rfl, hne⟩ := h.server.of_write hpc
      exact .response { h with server := Or.inl ⟨⟨q, rfl⟩, hne⟩ } hlog.quiet
  -- the client reads while the server responds
  | clientSend hpc => cases hpc.symm.trans h.client
  | clientSent hpc => cases hpc.symm.trans h.client
  | @clientRecv _ _ _ j hpc hpos hlt hle =>
      cases hpc.symm.trans h.client
      have hlen : (got ++ s.s2c.take j).length = got.length + j := by
        rw [List.length_append, List.length_take, Nat.min_eq_left hle]
      refine .response { h with
        transfer := h.transfer.recv j
        client := by rw [hlen, Nat.sub_sub]
        lt := by omega
        filled := take_splice h.filled
        clientBuf := ?_ } hlog.quiet
      refine (length_splice ?_).trans h.clientBuf
      rw [h.clientBuf, List.length_take, Nat.min_eq_left hle]
      omega
  | clientGot hpc hle =>
      -- the response is complete, so all of it is in `buf` and none of it is in flight
      cases hpc.symm.trans h.client
      obtain ⟨htaken, hbuf, hflight, rfl⟩ := h.transfer.finish h.filled
        (h.clientBuf.trans (length_response k).symm) (by rw [length_response]; exact h.lt.le)
        (by rw [length_response]; exact hle)
      rw [length_response] at htaken hbuf hflight
      rw [htaken, hbuf]
      refine @Inv.request _ _ (k + 1) [] (request (k + 1)) ?_ hlog.clientRead
      exact {
        transfer := .start h.c2s
        client := Or.inl ⟨by rw [h.requests, length_request], request_ne_nil (k + 1)⟩
        server := h.server.of_nil
        lt := by decide
        s2c := hflight
        filled := rfl
        serverBuf := h.serverBuf
        clientBuf := by simp only [length_response]
        requests := congrArg (· + 1) h.requests
        responses := h.responses
        counter := by
          show s.counter + 1 = BitVec.ofNat 64 (k + 1)
          rw [h.counter, BitVec.ofNat_add]
          rfl }
  | @serverSend _ buf _ j hpc hlt =>
      obtain ⟨rfl, rfl, -⟩ := h.server.of_write hpc
      refine .response { h with transfer := h.transfer.send j, server := ?_ } hlog.quiet
      exact Or.inl ⟨⟨false, by rw [List.length_drop]⟩, drop_ne_nil_of_lt hlt⟩
  | @serverSent _ buf _ hpc =>
      obtain ⟨rfl, rfl, -⟩ := h.server.of_write hpc
      refine .response { h with transfer := ?_, server := Or.inr ⟨⟨false, rfl⟩, rfl⟩ } hlog.quiet
      have htransfer := h.transfer.send buf.length
      rwa [List.drop_length] at htransfer
  -- the server may be back in its read already, but nothing is there to read
  | serverRecv hpc hpos hlt hle =>
      rw [h.c2s, List.length_nil] at hle
      omega
  | serverGot hpc hle =>
      obtain ⟨-, rfl, -, -⟩ := h.server.of_read hpc
      rw [h.c2s] at hle
      exact absurd hle (by decide)

/-- A closed side stays closed. -/
theorem Move.closed (hm : Move s e t) (hclosed : s.client = .closed ∨ s.server = .closed) :
    t.client = .closed ∨ t.server = .closed := by
  have hserver : ∀ {pc : ClientPc}, s.client = pc → pc ≠ .closed → s.server = .closed :=
    fun hpc hne => hclosed.resolve_left fun h => hne (hpc.symm.trans h)
  have hclient : ∀ {pc : ServerPc}, s.server = pc → pc ≠ .closed → s.client = .closed :=
    fun hpc hne => hclosed.resolve_right fun h => hne (hpc.symm.trans h)
  cases hm with
  | stay => exact hclosed
  | shut h => exact h
  | clientSend hpc | clientSent hpc | clientRecv hpc | clientGot hpc =>
      exact Or.inr (hserver hpc nofun)
  | pollRead hpc | pollWrite hpc | serverSend hpc | serverSent hpc | serverRecv hpc
  | serverGot hpc => exact Or.inl (hclient hpc nofun)

theorem Inv.step (h : Inv es s) (hs : Step s e t) : Inv (es ++ e) t := by
  cases h with
  | request h hlog => exact h.move hlog hs.move
  | response h hlog => exact h.move hlog hs.move
  | shut hclosed => exact .shut (hs.move.closed hclosed)

theorem inv_of_run (hrun : Run Step State.init es s) : Inv es s :=
  hrun.invariant Inv.init fun _ _ _ _ h hs => h.step hs

/-! ### The main result -/

/-- Both sides are in a `vio_read`, and no byte is under way. -/
def State.stuck (s : State) : Prop :=
  (∃ off size taken, s.client = .read off size taken) ∧
    (∃ p off size taken, s.server = .read p off size taken) ∧ s.c2s = [] ∧ s.s2c = []

theorem Requesting.not_stuck (h : Requesting k got rest s) : ¬ s.stuck := by
  rintro ⟨⟨off, size, taken, hpc⟩, -, hc2s, -⟩
  have htransfer := h.transfer
  rw [(h.client.of_read hpc).2] at htransfer
  exact htransfer.flight_ne_nil (by rw [length_request]; exact h.lt) hc2s

theorem Responding.not_stuck (h : Responding k got rest s) : ¬ s.stuck := by
  rintro ⟨-, ⟨p, off, size, taken, hpc⟩, -, hs2c⟩
  have htransfer := h.transfer
  rw [(h.server.of_read hpc).2.2.2] at htransfer
  exact htransfer.flight_ne_nil (by rw [length_response]; exact h.lt) hs2c

/-- **Lockstep.**  In every run of the two handlers in which no side has closed:
the server has read the first `m` requests and the client the first `p`
responses, each exactly and into the whole buffer, and no mismatch is reported;
what is on the streams belongs to one message, the next one to be read, and of
all messages whose `vio_write` was called at most one is not yet read; the
counter is the number of pairs; and the sides do not both wait for bytes while
there are none. -/
theorem lockstep (hrun : Run Step State.init es s) (hclient : s.client ≠ .closed)
    (hserver : s.server ≠ .closed) :
    ∃ m p, es.filter Event.isServerRead
          = (List.range m).map (fun k => .serverRead (request k) (request k)) ∧
      es.filter Event.isClientRead
          = (List.range p).map (fun k => .clientRead (response k) (response k)) ∧
      Event.readMismatch ∉ es ∧
      (s.c2s = [] ∨ s.s2c = []) ∧ s.c2s <:+: request m ∧ s.s2c <:+: response p ∧
      p ≤ m ∧ m ≤ s.requests ∧ p ≤ s.responses ∧ s.requests + s.responses ≤ m + p + 1 ∧
      s.counter = BitVec.ofNat 64 p ∧ ¬ s.stuck := by
  cases inv_of_run hrun with
  -- a request is on its way, after `k` pairs
  | @request k got rest h hlog =>
      refine ⟨k, k, hlog.server, hlog.client, hlog.mismatch, Or.inr h.s2c, h.transfer.flight_infix,
        ?_, le_rfl, ?_, ?_, ?_, h.counter, h.not_stuck⟩
      · rw [h.s2c]
        exact List.nil_infix
      · rw [h.requests]
        exact Nat.le_succ k
      · exact h.responses.ge
      · rw [h.requests, h.responses]
        omega
  -- its response is
  | @response k got rest h hlog =>
      refine ⟨k + 1, k, hlog.server, hlog.client, hlog.mismatch, Or.inl h.c2s, ?_,
        h.transfer.flight_infix, Nat.le_succ k, h.requests.ge, ?_, ?_, h.counter, h.not_stuck⟩
      · rw [h.c2s]
        exact List.nil_infix
      · rw [h.responses]
        exact Nat.le_succ k
      · rw [h.requests, h.responses]
        omega
  | shut hclosed => exact (hclosed.elim hclient hserver).elim

/-- A call returns, on the client for `true`. -/
def callStep (call : Bool × Outcome) (s : State) : Option (List Event × State) :=
  if call.1 then clientStep call.2 s else serverStep call.2 s

theorem step_of_callStep (call : Bool × Outcome) (s : State) (es : List Event) (t : State)
    (h : callStep call s = some (es, t)) : Step s es t := by
  unfold callStep at h
  split at h
  · exact .client _ h
  · exact .server _ h

/-- A round trip in pieces, with calls that are interrupted and a server that
waits. -/
theorem lockstep_roundTrip :
    ∃ es s, Run Step State.init es s ∧ s.counter = 1 ∧ Event.readMismatch ∉ es ∧ ¬ s.stuck := by
  obtain ⟨es, s, hrun, hgood⟩ := exists_run_of_schedule step_of_callStep (s := State.init)
    [(false, .eagain), (true, .count 100), (false, .eintr), (false, .count 1), (false, .count 60),
      (true, .eintr), (true, .count 41), (false, .count 81), (false, .eagain), (false, .count 1),
      (false, .count 10), (true, .count 5), (false, .count 14), (true, .eintr), (true, .count 19)]
    (fun _ s => decide (s.client ≠ .closed ∧ s.server ≠ .closed ∧ s.counter = 1)) (by decide +kernel)
  obtain ⟨hclient, hserver, hcounter⟩ := of_decide_eq_true hgood
  obtain ⟨_, _, _, _, hmismatch, _, _, _, _, _, _, _, _, hstuck⟩ := lockstep hrun hclient hserver
  exact ⟨es, s, hrun, hcounter, hmismatch, hstuck⟩

end MyTests.VioBench
