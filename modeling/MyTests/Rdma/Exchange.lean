/-
MyTests/Rdma/Exchange.lean

What holds of the exchange while completions are prompt.

A side is described by its own two counters, its completion queue, and the
number of requests that the peer has had carried out (`SideInv`); the requests
of a side are always a stretch of one plan: its key, the access, and the
message that it is done.  That the two counters pass through (1, 1), and so
start the access once, rests on `first`: a side that has sent its key polls the
completion of that before any later message.

A step keeps this, and moves each side on in what it has to do (`Inv.step`).
-/
import MyTests.Rdma.Handshake

namespace MyTests.Rdma.Handshake

open Lib

variable {T : Type} {mode : Mode} {text : Side → T} {side : Side} {c p : Conn T} {k : ℕ}

/-! ### Counting -/

/-- The requests of a side that have been carried out. -/
def Conn.sent (c : Conn T) : ℕ := c.sendState + c.cq.count .send

/-- The messages that have come to a side. -/
def Conn.received (c : Conn T) : ℕ := c.recvState + c.cq.count .recv

/-- What a side requests. -/
def plan : List Request := [.send, .rdma, .send]

/-- The messages among the first `k` requests of the plan. -/
def messages (k : ℕ) : ℕ := (plan.take k).count .send

/-- The message that is number `k`. -/
def messageAt (sender : Side) : ℕ → Option Message
  | 0 => none
  | 1 => some (.mr sender)
  | _ => some .done

/-- The key of the side has been requested to be sent. -/
def Begun (side : Side) (c : Conn T) : Prop :=
  match side with
  | .client => c.connected = true
  | .server => 1 ≤ c.recvState ∧ c.spinning = false

instance instDecidableBegun (side : Side) (c : Conn T) : Decidable (Begun side c) := by
  cases side
  · exact inferInstanceAs (Decidable (c.connected = true))
  · exact inferInstanceAs (Decidable (1 ≤ c.recvState ∧ c.spinning = false))

/-- The requests of the plan that a side has posted. -/
def posted (side : Side) (c : Conn T) : ℕ :=
  if 1 ≤ c.sendState ∧ 1 ≤ c.recvState then 3 else if Begun side c then 1 else 0

theorem posted_le (side : Side) (c : Conn T) : posted side c ≤ 3 := by
  unfold posted
  split
  · exact le_rfl
  · split <;> omega

theorem begun_of_posted_pos (h : 0 < posted side c) (hearly : 1 ≤ c.sendState → Begun side c) :
    Begun side c := by
  unfold posted at h
  split at h
  · rename_i hboth
    exact hearly hboth.1
  · split at h
    · assumption
    · omega

/-- What holds of a side, when `k` requests of the peer have been carried out, but for what it
has posted. -/
structure Base (mode : Mode) (text : Side → T) (side : Side) (c : Conn T) (k : ℕ) : Prop where
  received : c.received = messages k
  sent_le : c.sent ≤ posted side c
  begun : 1 ≤ c.sendState → Begun side c
  /-- the completion of the key comes before any message that answers it -/
  first : c.sendState = 0 → Begun side c → c.cq.head? ≠ some .recv
  early : c.sendState = 0 → c.recvState ≤ 1
  asked : side = .client → 1 ≤ k → 1 ≤ c.sent
  answered : 2 ≤ k → 1 ≤ c.sent
  receives : c.receives + c.received = 1 + min c.recvState 1
  recvMsg : c.recvMsg = messageAt side.peer c.received
  peerMr : c.peerMr = if c.recvState = 0 then none else some side.peer
  localRegion : c.localRegion = if mode = .write then some (text side)
    else if 2 ≤ c.sent then some (text side.peer) else none
  remoteRegion : c.remoteRegion = if mode = .read then some (text side)
    else if 2 ≤ k then some (text side.peer) else none
  connected : Begun side c → c.connected = true
  spinning : c.spinning = true → side = .server ∧ c.sendState = 0 ∧ c.recvState = 1
  unacked : c.unacked = 0

theorem messages_le (k : ℕ) : messages k ≤ 2 := by
  have h := (List.take_sublist k plan).count_le Request.send
  exact h

/-! ### What a side knows before it polls -/

theorem Base.sendState_le (h : Base mode text side c k) : c.sendState + c.cq.count .send ≤ 3 :=
  h.sent_le.trans (posted_le side c)

theorem Base.begun_of_sent (h : Base mode text side c k) (hpos : 1 ≤ c.sent) : Begun side c :=
  begun_of_posted_pos (hpos.trans h.sent_le) h.begun

/-- The access is posted when both counters have left 0. -/
theorem posted_eq_three : posted side c = 3 ↔ 1 ≤ c.sendState ∧ 1 ≤ c.recvState := by
  unfold posted
  split
  · exact ⟨fun _ => ‹_›, fun _ => rfl⟩
  · rename_i hnot
    refine ⟨fun h3 => ?_, fun hboth => absurd hboth hnot⟩
    split at h3 <;> omega

theorem posted_of_not_begun (hzero : c.sendState = 0) (hnot : ¬ Begun side c) :
    posted side c = 0 := by
  simp [posted, hzero, hnot]

theorem posted_eq_one (hnot : ¬ (1 ≤ c.sendState ∧ 1 ≤ c.recvState)) (hb : Begun side c) :
    posted side c = 1 := by
  unfold posted
  rw [if_neg hnot, if_pos hb]

theorem posted_of_begun (hzero : c.sendState = 0) (hb : Begun side c) : posted side c = 1 :=
  posted_eq_one (by omega) hb

/-- With two requests carried out, the access has been posted. -/
theorem Base.running (h : Base mode text side c k) (h2 : 2 ≤ c.sent) :
    1 ≤ c.sendState ∧ 1 ≤ c.recvState := by
  have hle := h.sent_le
  unfold posted at hle
  split at hle
  · assumption
  · split at hle <;> omega

/-- The same as in `Base`, with what is posted: the stretch of the plan that is not carried out
yet. -/
structure Core (mode : Mode) (text : Side → T) (side : Side) (c : Conn T) (k : ℕ) : Prop
    extends Base mode text side c k where
  queue : c.queue = (plan.take (posted side c)).drop c.sent
  sendMsg : c.sendMsg = if posted side c = 3 then some .done
    else if Begun side c ∨ c.spinning then some (.mr side) else none

/-- A side that has not begun has sent nothing. -/
theorem Core.idle (h : Core mode text side c k) (hnot : ¬ Begun side c) :
    c.sendState = 0 ∧ c.sent = 0 ∧ c.queue = [] := by
  have hzero : c.sendState = 0 := by
    by_contra hne
    exact hnot (h.begun (by omega))
  have hposted := posted_of_not_begun hzero hnot
  have hsent := h.sent_le
  refine ⟨hzero, by omega, ?_⟩
  rw [h.queue, hposted, List.take_zero, List.drop_nil]

theorem messages_of_lt {k : ℕ} (h : k < 2) : messages k = k := by
  rcases k with _ | _ | k
  · rfl
  · rfl
  · omega

/-- Before it has sent, at most one message has come to a side, and none to the client. -/
theorem Base.received_of_sent_eq_zero (h : Base mode text side c k) (hsent : c.sent = 0) :
    c.received = k ∧ k ≤ 1 ∧ (side = .client → k = 0) := by
  have hlt : k < 2 := by
    by_contra hge
    have hpos := h.answered (by omega)
    omega
  refine ⟨h.received.trans (messages_of_lt hlt), by omega, fun hside => ?_⟩
  by_contra hne
  have hpos := h.asked hside (by omega)
  omega

theorem head_ne_recv (hcount : c.cq.count .recv = 0) : c.cq.head? ≠ some .recv := by
  intro hhead
  have hpos := List.count_pos_iff.mpr (List.mem_of_mem_head? hhead)
  omega

/-- A message that is polled before the side has sent is the key of the client. -/
theorem Core.server_of_recv (h : Core mode text side c k) (hspin : c.spinning = false)
    (hhead : c.cq.head? = some .recv) (hzero : c.sendState = 0) :
    side = .server ∧ c.recvState = 0 := by
  have hnot : ¬ Begun side c := fun hb => h.first hzero hb hhead
  obtain ⟨-, hsent, -⟩ := h.idle hnot
  obtain ⟨hrec, -, hclient⟩ := h.received_of_sent_eq_zero hsent
  have hpos := List.count_pos_iff.mpr (List.mem_of_mem_head? hhead)
  cases side with
  | client =>
      rw [hclient rfl] at hrec
      unfold Conn.received at hrec
      omega
  | server => exact ⟨rfl, by simpa [Begun, hspin] using hnot⟩

/-! ### The side moves by itself -/

theorem Core.establish (h : Core mode text side c k) (hc : c.connected = false) :
    Core mode text side (onConnection side c) k := by
  cases side with
  | client =>
      have hnot : ¬ Begun .client c := by simp [Begun, hc]
      obtain ⟨hzero, hsent, hqueue⟩ := h.idle hnot
      obtain ⟨hrec, -, hk⟩ := h.received_of_sent_eq_zero hsent
      rw [hk rfl] at hrec
      -- the client posts its key, and the server waits for it
      have hposted : posted .client (onConnection .client c) = 1 := posted_of_begun hzero rfl
      exact
        { h with
          queue := by
            rw [hposted]
            show c.queue ++ [.send] = (plan.take 1).drop c.sent
            rw [hqueue, hsent]
            rfl
          sent_le := by
            rw [hposted]
            exact hsent.le.trans (Nat.zero_le 1)
          begun := fun _ => rfl
          first := fun _ _ => head_ne_recv (c := c) (by unfold Conn.received at hrec; omega)
          sendMsg := by
            rw [hposted, if_neg (by omega), if_pos (.inl rfl)]
            rfl
          connected := fun _ => rfl }
  | server => exact { h with connected := fun _ => rfl }

theorem Core.resume (h : Core mode text side c k) (hspin : c.spinning = true)
    (hc : c.connected = true) :
    Core mode text side { c with spinning := false, queue := c.queue ++ [.send] } k := by
  obtain ⟨rfl, hzero, hone⟩ := h.spinning hspin
  have hnot : ¬ Begun .server c := fun hb => absurd (hspin.symm.trans hb.2) (by decide)
  obtain ⟨-, hsent, hqueue⟩ := h.idle hnot
  obtain ⟨hrec, hk, -⟩ := h.received_of_sent_eq_zero hsent
  have hbegun : Begun .server { c with spinning := false, queue := c.queue ++ [.send] } :=
    ⟨hone.ge, rfl⟩
  -- the key that the server has held back is posted now
  have hposted : posted .server { c with spinning := false, queue := c.queue ++ [.send] } = 1 :=
    posted_of_begun hzero hbegun
  have hsendMsg : c.sendMsg = some (.mr .server) := by
    rw [h.sendMsg, posted_of_not_begun hzero hnot, if_neg (by omega), if_pos (.inr hspin)]
  exact
    { h with
      queue := by
        rw [hposted]
        show c.queue ++ [.send] = (plan.take 1).drop c.sent
        rw [hqueue, hsent]
        rfl
      sent_le := by
        rw [hposted]
        exact hsent.le.trans (Nat.zero_le 1)
      begun := fun _ => hbegun
      first := fun _ _ => head_ne_recv (c := c) (by unfold Conn.received at hrec; omega)
      sendMsg := by
        rw [hposted, if_neg (by omega), if_pos (.inl hbegun)]
        exact hsendMsg
      connected := fun _ => hc
      spinning := fun h => absurd h Bool.false_ne_true }

/-! ### Polling -/

variable {rest : List Wc}

theorem Conn.sent_send (hcq : c.cq = .send :: rest) :
    c.sent = c.sendState + 1 + rest.count .send ∧ c.received = c.recvState + rest.count .recv := by
  unfold Conn.sent Conn.received
  rw [hcq, List.count_cons_self, List.count_cons_of_ne (by decide)]
  omega

theorem Conn.sent_recv (hcq : c.cq = .recv :: rest) :
    c.sent = c.sendState + rest.count .send ∧ c.received = c.recvState + 1 + rest.count .recv := by
  unfold Conn.sent Conn.received
  rw [hcq, List.count_cons_self, List.count_cons_of_ne (by decide)]
  omega

/-- The completion of a request. -/
theorem Core.poll_send (h : Core mode text side c k) (hcq : c.cq = .send :: rest) :
    Base mode text side { c with cq := rest, sendState := c.sendState + 1 } k := by
  obtain ⟨hsent, hrec⟩ := Conn.sent_send hcq
  have hsent' : Conn.sent { c with cq := rest, sendState := c.sendState + 1 } = c.sent := hsent.symm
  have hrec' : Conn.received { c with cq := rest, sendState := c.sendState + 1 } = c.received :=
    hrec.symm
  have hbegun : Begun side c := h.begun_of_sent (by omega)
  have hposted : posted side c ≤ posted side { c with cq := rest, sendState := c.sendState + 1 } := by
    -- with the key of the peer all three requests are posted, otherwise the first
    by_cases hr : 1 ≤ c.recvState
    · refine (posted_le side c).trans (le_of_eq (Eq.symm ?_))
      exact posted_eq_three.mpr ⟨Nat.le_add_left 1 _, hr⟩
    · have hs : c.sendState = 0 := by
        by_contra hs
        have hrun := h.running (by omega)
        omega
      rw [posted_of_begun hs hbegun]
      refine le_of_eq (Eq.symm ?_)
      exact posted_eq_one (fun hboth => hr hboth.2) hbegun
  exact
    { h with
      received := hrec'.trans h.received
      sent_le := hsent'.trans_le (h.sent_le.trans hposted)
      begun := fun _ => hbegun
      first := fun hzero => absurd hzero (Nat.succ_ne_zero _)
      early := fun hzero => absurd hzero (Nat.succ_ne_zero _)
      asked := by
        rw [hsent']
        exact h.asked
      answered := by
        rw [hsent']
        exact h.answered
      receives := by
        rw [hrec']
        exact h.receives
      recvMsg := by
        rw [hrec']
        exact h.recvMsg
      localRegion := by
        rw [hsent']
        exact h.localRegion
      spinning := fun hspin => by
        obtain ⟨rfl, -, hone⟩ := h.spinning hspin
        exact absurd (hspin.symm.trans hbegun.2) (by decide) }

/-- Once a side has sent its key, what it posts later is the rest of the plan. -/
theorem Core.sent_eq_one (h : Core mode text side c k) (hb : Begun side c)
    (hnot : ¬ (1 ≤ c.sendState ∧ 1 ≤ c.recvState)) (hpos : 1 ≤ c.sent) :
    c.sent = 1 ∧ c.queue = [] := by
  have hposted := posted_eq_one hnot hb
  have hle := h.sent_le
  have hsent : c.sent = 1 := by omega
  refine ⟨hsent, ?_⟩
  rw [h.queue, hposted, hsent]
  rfl

/-- The key of the peer comes to a side that has sent its own. -/
theorem Core.poll_key (h : Core mode text side c k) (hcq : c.cq = .recv :: rest)
    (hs : 1 ≤ c.sendState) (hr : c.recvState = 0) :
    Base mode text side { c with
      cq := rest, recvState := 1, peerMr := some side.peer, receives := c.receives + 1 } k := by
  obtain ⟨hsent, hrec⟩ := Conn.sent_recv hcq
  have hrec' : Conn.received { c with
      cq := rest, recvState := 1, peerMr := some side.peer, receives := c.receives + 1 }
      = c.received := by
    rw [hrec, hr]
    rfl
  have hsent' : Conn.sent { c with
      cq := rest, recvState := 1, peerMr := some side.peer, receives := c.receives + 1 }
      = c.sent := hsent.symm
  have hposted : posted side { c with
      cq := rest, recvState := 1, peerMr := some side.peer, receives := c.receives + 1 } = 3 :=
    posted_eq_three.mpr ⟨hs, le_rfl⟩
  have hbegun := h.begun hs
  cases side with
  -- a server that has sent its key has had the client's before
  | server => exact absurd hbegun.1 (by omega)
  | client =>
      exact
        { h with
          received := hrec'.trans h.received
          sent_le := by
            rw [hposted, hsent']
            exact h.toBase.sendState_le
          begun := fun _ => hbegun
          first := fun hzero => absurd hs (by
            rw [show c.sendState = 0 from hzero]
            exact Nat.not_succ_le_zero 0)
          early := fun _ => le_rfl
          asked := by
            rw [hsent']
            exact h.asked
          answered := by
            rw [hsent']
            exact h.answered
          receives := by
            -- a second receive is posted for the message that the peer is done
            have hrecv := h.receives
            rw [hrec']
            show c.receives + 1 + c.received = 1 + min 1 1
            rw [hr] at hrecv
            omega
          recvMsg := by
            rw [hrec']
            exact h.recvMsg
          peerMr := rfl
          localRegion := by
            rw [hsent']
            exact h.localRegion
          spinning := fun hspin => absurd (h.spinning hspin).1 (by decide) }

/-- The message that the peer is done. -/
theorem Core.poll_done (h : Core mode text side c k) (hcq : c.cq = .recv :: rest)
    (hs : 1 ≤ c.sendState) (hr : c.recvState = 1) (hspin : c.spinning = false) :
    Base mode text side { c with cq := rest, recvState := 2 } k := by
  obtain ⟨hsent, hrec⟩ := Conn.sent_recv hcq
  have hrec' : Conn.received { c with cq := rest, recvState := 2 } = c.received := by
    rw [hrec, hr]
    rfl
  have hsent' : Conn.sent { c with cq := rest, recvState := 2 } = c.sent := hsent.symm
  -- both keys are known, so everything has been posted before
  have hposted : posted side { c with cq := rest, recvState := 2 } = 3 :=
    posted_eq_three.mpr ⟨hs, Nat.le_succ 1⟩
  have hbegun : Begun side { c with cq := rest, recvState := 2 } := by
    cases side with
    | client => exact h.begun hs
    | server => exact ⟨Nat.le_succ 1, hspin⟩
  exact
    { h with
      received := hrec'.trans h.received
      sent_le := by
        rw [hposted, hsent']
        exact h.toBase.sendState_le
      begun := fun _ => hbegun
      first := fun hzero => absurd hs (by
        rw [show c.sendState = 0 from hzero]
        exact Nat.not_succ_le_zero 0)
      early := fun hzero => absurd hs (by
        rw [show c.sendState = 0 from hzero]
        exact Nat.not_succ_le_zero 0)
      asked := by
        rw [hsent']
        exact h.asked
      answered := by
        rw [hsent']
        exact h.answered
      receives := by
        have hrecv := h.receives
        rw [hrec']
        rw [hr] at hrecv
        exact hrecv
      recvMsg := by
        rw [hrec']
        exact h.recvMsg
      peerMr := by
        rw [h.peerMr, if_neg (by omega), if_neg (Nat.succ_ne_zero 1)]
      localRegion := by
        rw [hsent']
        exact h.localRegion
      connected := fun _ => h.connected (h.begun hs)
      spinning := fun htrue => absurd (hspin.symm.trans htrue) (by decide) }

/-- The server with the key of the client; `waits` if it spins before it posts its own. -/
def answer (c : Conn T) (rest : List Wc) (queue : List Request) (waits : Bool) : Conn T :=
  { c with
    cq := rest
    recvState := 1
    peerMr := some .client
    receives := c.receives + 1
    sendMsg := some (.mr .server)
    queue := queue
    spinning := waits }

/-- The key of the client comes to the server: it answers, or waits to. -/
theorem Core.poll_request (h : Core mode text .server c k) (hcq : c.cq = .recv :: rest)
    (hs : c.sendState = 0) (hr : c.recvState = 0) (hspin : c.spinning = false) :
    Core mode text .server (sendMr .server { c with
      cq := rest, recvState := 1, peerMr := some .client, receives := c.receives + 1 }) k := by
  have hnot : ¬ Begun .server c := fun hb => absurd hb.1 (by omega)
  obtain ⟨-, hzero, hqueue⟩ := h.idle hnot
  obtain ⟨hone, hk, -⟩ := h.received_of_sent_eq_zero hzero
  obtain ⟨hsent, hrec⟩ := Conn.sent_recv hcq
  have hrecv := h.receives
  have hnone : rest.count .recv = 0 := by omega
  -- the message there is the first one of the client
  have hmsg : c.recvMsg = messageAt .client 1 := by
    rw [h.recvMsg, hrec, hr, hnone]
    rfl
  have hsent' : ∀ q b, (answer c rest q b).sent = 0 := fun _ _ => hsent.symm.trans hzero
  have hrec' : ∀ q b, (answer c rest q b).received = 1 := by
    intro q b
    show 1 + rest.count .recv = 1
    omega
  -- the books are the same whether the answer is posted or waits
  have hbase : ∀ q b, (b = false → c.connected = true) →
      Base mode text .server (answer c rest q b) k := by
    intro q b hb
    exact
      { h with
        received := by
          rw [← h.received, hrec', hrec, hr, hnone]
        sent_le := by
          rw [hsent']
          exact Nat.zero_le _
        begun := fun hpos => absurd (show 1 ≤ c.sendState from hpos) (by omega)
        first := fun _ _ => head_ne_recv hnone
        early := fun _ => le_rfl
        asked := fun hside => absurd hside (by decide)
        answered := fun h2 => absurd h2 (by omega)
        receives := by
          rw [hrec']
          show c.receives + 1 + 1 = 1 + min 1 1
          rw [hrec, hr, hnone] at hrecv
          omega
        recvMsg := by
          rw [hrec']
          exact hmsg
        peerMr := rfl
        localRegion := by
          rw [hsent', ← hzero]
          exact h.localRegion
        connected := fun hbegun => hb hbegun.2
        spinning := fun _ => ⟨rfl, hs, rfl⟩ }
  unfold sendMr sendMessage
  dsimp only
  split
  · rename_i hc
    -- `connected` is set: the key is posted at once
    have hbegun : Begun .server (answer c rest (c.queue ++ [.send]) false) := ⟨le_rfl, rfl⟩
    have hposted : posted .server (answer c rest (c.queue ++ [.send]) false) = 1 :=
      posted_of_begun hs hbegun
    have hcore : Core mode text .server (answer c rest (c.queue ++ [.send]) false) k := by
      refine ⟨hbase _ _ fun _ => hc, ?_, ?_⟩
      · rw [hposted, hsent']
        show c.queue ++ [.send] = _
        rw [hqueue]
        rfl
      · rw [hposted, if_neg (by decide), if_pos (.inl hbegun)]
        rfl
    rw [answer, ← hspin] at hcore
    exact hcore
  -- `connected` is not set yet: the server spins
  · have hwait : ¬ Begun .server (answer c rest c.queue true) := fun hb =>
      absurd (show true = false from hb.2) (by decide)
    have hposted : posted .server (answer c rest c.queue true) = 0 := posted_of_not_begun hs hwait
    have hcore : Core mode text .server (answer c rest c.queue true) k := by
      refine ⟨hbase _ _ fun hfalse => absurd hfalse (by decide), ?_, ?_⟩
      · rw [hposted, hsent']
        exact hqueue
      · rw [hposted, if_neg (by decide), if_pos (.inr rfl)]
        rfl
    exact hcore

/-! ### What follows a completion -/

/-- The same as in `Core`, with what the side shows at the end. -/
structure SideInv (mode : Mode) (text : Side → T) (side : Side) (c : Conn T) (k : ℕ) : Prop
    extends Core mode text side c k where
  disconnected : c.disconnected = decide (c.sendState = 3 ∧ c.recvState = 2)
  printed : c.printed = if c.disconnected then [some (text side.peer)] else []

/-- What holds of both sides. -/
def Inv (mode : Mode) (text : Side → T) (s : State T) : Prop :=
  ∀ side, SideInv mode text side (s.conn side) (s.conn side.peer).sent

theorem inv_init (mode : Mode) (text : Side → T) : Inv mode text (init mode text) := by
  intro side
  have hb : ¬ Begun side (buildConnection mode (text side)) := by
    cases side <;> simp [Begun, buildConnection]
  have hbase : Base mode text side (buildConnection mode (text side)) 0 := by
    refine ⟨rfl, Nat.zero_le _, fun h => absurd h (Nat.not_succ_le_zero 0),
      fun _ h => absurd h hb, fun _ => Nat.zero_le _, fun _ h => absurd h (Nat.not_succ_le_zero 0),
      fun h => absurd h (Nat.not_succ_le_zero 1), rfl, rfl, rfl, ?_, ?_, fun h => absurd h hb,
      fun h => absurd h Bool.false_ne_true, rfl⟩
    · cases mode <;> rfl
    · cases mode <;> rfl
  refine ⟨⟨hbase, ?_, ?_⟩, rfl, rfl⟩
  · cases side <;> rfl
  · cases side <;> rfl

/-- The access starts. -/
theorem Base.proceed_access (h : Base mode text side c k) (hs : c.sendState = 1)
    (hr : c.recvState = 1) (hsent : c.sent = 1) (hqueue : c.queue = [])
    (hshown : c.disconnected = false ∧ c.printed = []) :
    SideInv mode text side (proceed mode c) k := by
  have hconn : c.connected = true := h.connected (h.begun hs.ge)
  have hposted : posted side c = 3 := posted_eq_three.mpr ⟨hs.ge, hr.ge⟩
  -- both keys have come: the access is posted, and the message that it is done
  have hproceed : proceed mode c
      = { c with queue := c.queue ++ [.rdma] ++ [.send], sendMsg := some .done } := by
    unfold proceed sendMessage
    rw [if_pos ⟨hs, hr⟩, if_pos hconn]
  rw [hproceed]
  refine ⟨⟨{ h with }, ?_, ?_⟩, ?_, ?_⟩
  · show c.queue ++ [.rdma] ++ [.send] = (plan.take (posted side c)).drop c.sent
    rw [hposted, hsent, hqueue]
    rfl
  · show some Message.done = if posted side c = 3 then _ else _
    rw [if_pos hposted]
  · show c.disconnected = decide (c.sendState = 3 ∧ c.recvState = 2)
    rw [hshown.1, hs, hr]
    rfl
  · show c.printed = if c.disconnected then _ else _
    rw [hshown.1, hshown.2]
    rfl

/-- Otherwise the side is done, and shows what has come, or waits for more. -/
theorem Core.proceed (h : Core mode text side c k) (hnot : ¬ (c.sendState = 1 ∧ c.recvState = 1))
    (hshown : c.disconnected = false ∧ c.printed = []) :
    SideInv mode text side (Handshake.proceed mode c) k := by
  unfold Handshake.proceed
  rw [if_neg hnot]
  split
  -- both counts are at their ends: what the peer has written, or what was read, is shown
  · rename_i hend
    have hrec := h.received
    have hregion : getPeerMessageRegion mode c = some (text side.peer) := by
      unfold getPeerMessageRegion
      cases mode with
      | write =>
          -- the message that the peer is done comes after its access
          have hk : 2 ≤ k := by
            by_contra hlt
            rw [messages_of_lt (by omega)] at hrec
            unfold Conn.received at hrec
            omega
          rw [if_pos rfl, h.remoteRegion, if_neg (by decide), if_pos hk]
      | read =>
          -- the own access comes before the own message
          have hsent : 2 ≤ c.sent := by
            unfold Conn.sent
            omega
          rw [if_neg (by decide), h.localRegion, if_neg (by decide), if_pos hsent]
    refine ⟨{ h with }, ?_, ?_⟩
    · exact (decide_eq_true hend).symm
    · show c.printed ++ [getPeerMessageRegion mode c] = _
      rw [hregion, hshown.2]
      rfl
  · rename_i hgo
    refine ⟨h, hshown.1.trans (decide_eq_false hgo).symm, ?_⟩
    rw [hshown.1, hshown.2]
    rfl

/-- A side that has something to poll has not ended. -/
theorem SideInv.going (h : SideInv mode text side c k) (hcq : c.cq ≠ []) :
    c.disconnected = false ∧ c.printed = [] := by
  have hnot : ¬ (c.sendState = 3 ∧ c.recvState = 2) := by
    rintro ⟨hs, hr⟩
    -- a completion still to be polled would be one too many
    obtain ⟨wc, rest, hrest⟩ := List.exists_cons_of_ne_nil hcq
    have hsent := h.toBase.sendState_le
    have hrec := h.received.trans_le (messages_le k)
    unfold Conn.received at hrec
    cases wc with
    | send =>
        have hpos : 0 < c.cq.count .send := List.count_pos_iff.mpr (by simp [hrest])
        omega
    | recv =>
        have hpos : 0 < c.cq.count .recv := List.count_pos_iff.mpr (by simp [hrest])
        omega
  have hgoing : c.disconnected = false := h.disconnected.trans (decide_eq_false hnot)
  refine ⟨hgoing, ?_⟩
  rw [h.printed, hgoing]
  rfl

theorem SideInv.onCompletion_send (h : SideInv mode text side c k) (hcq : c.cq = .send :: rest) :
    SideInv mode text side (onCompletion mode side .send { c with cq := rest }) k := by
  have hbase := h.toCore.poll_send hcq
  obtain ⟨hsent, -⟩ := Conn.sent_send hcq
  have hsent' : Conn.sent { c with cq := rest, sendState := c.sendState + 1 } = c.sent := hsent.symm
  have hshown := h.going (by simp [hcq])
  have hbegun : Begun side c := h.begun_of_sent (by omega)
  -- the first completion after the peer's key posts the access, every other one only counts
  by_cases htrigger : c.sendState = 0 ∧ c.recvState = 1
  · obtain ⟨hone, hqueue⟩ := h.toCore.sent_eq_one hbegun (by omega) (by omega)
    refine hbase.proceed_access ?_ htrigger.2 (hsent'.trans hone) hqueue hshown
    exact congrArg (· + 1) htrigger.1
  · have hposted : posted side { c with cq := rest, sendState := c.sendState + 1 }
        = posted side c := by
      by_cases hr : 1 ≤ c.recvState
      · have hs : 1 ≤ c.sendState := by
          by_contra hs
          -- the peer's key does not come before the own one is sent
          have hearly := h.early (by omega)
          omega
        rw [posted_eq_three.mpr ⟨hs, hr⟩]
        exact posted_eq_three.mpr ⟨Nat.le_add_left 1 _, hr⟩
      · rw [posted_eq_one (fun hboth => hr hboth.2) hbegun]
        exact posted_eq_one (fun hboth => hr hboth.2) hbegun
    have hcore : Core mode text side { c with cq := rest, sendState := c.sendState + 1 } k := by
      refine ⟨hbase, ?_, ?_⟩
      · rw [hposted, hsent']
        exact h.queue
      · rw [hposted]
        exact h.sendMsg
    refine hcore.proceed (fun hone => htrigger ?_) hshown
    exact ⟨Nat.succ.inj hone.1, hone.2⟩

theorem SideInv.onCompletion_recv (h : SideInv mode text side c k) (hspin : c.spinning = false)
    (hcq : c.cq = .recv :: rest) :
    SideInv mode text side (onCompletion mode side .recv { c with cq := rest }) k := by
  obtain ⟨hsent, hrec⟩ := Conn.sent_recv hcq
  have hshown := h.going (by simp [hcq])
  have hrecv := h.receives
  by_cases hr : c.recvState = 0
  · -- the key of the peer
    have hone : c.received = 1 := by omega
    have hmsg : c.recvMsg = some (.mr side.peer) := by rw [h.recvMsg, hone]; rfl
    -- only the server gets a key before it has sent its own
    by_cases hs : c.sendState = 0
    · obtain ⟨rfl, -⟩ := h.toCore.server_of_recv hspin (by simp [hcq]) hs
      have hwc : onWc .server .recv { c with cq := rest } = sendMr .server { c with
          cq := rest, recvState := 1, peerMr := some .client, receives := c.receives + 1 } := by
        simp [onWc, hmsg, hs, hr, postReceives, Side.peer]
      have hcore := h.toCore.poll_request hcq hs hr hspin
      unfold onCompletion
      rw [hwc]
      refine hcore.proceed (fun hone => ?_) ?_
      · have hzero : c.sendState = 1 := by
          have hone := hone.1
          unfold sendMr sendMessage at hone
          split at hone <;> exact hone
        omega
      · unfold sendMr sendMessage
        split <;> exact hshown
    · have hwc : onWc side .recv { c with cq := rest } = { c with
          cq := rest, recvState := 1, peerMr := some side.peer, receives := c.receives + 1 } := by
        simp [onWc, hmsg, hs, hr, postReceives]
      have hbase := h.toCore.poll_key hcq (by omega) hr
      obtain ⟨hsent1, hqueue⟩ := h.toCore.sent_eq_one (h.begun (by omega)) (by omega) (by omega)
      unfold onCompletion
      rw [hwc]
      refine hbase.proceed_access ?_ rfl ?_ hqueue hshown
      · show c.sendState = 1
        omega
      · exact hsent.symm.trans hsent1
  · -- the peer is done
    have hle := h.received.trans_le (messages_le k)
    have hr1 : c.recvState = 1 := by omega
    have hs : 1 ≤ c.sendState := by
      by_contra hs
      have hzero := (h.toCore.server_of_recv hspin (by simp [hcq]) (by omega)).2
      omega
    have hmsg : c.recvMsg = some .done := by
      rw [h.recvMsg, show c.received = 2 by omega]
      rfl
    have hwc : onWc side .recv { c with cq := rest } = { c with cq := rest, recvState := 2 } := by
      simp [onWc, hmsg, hr1]
    have hbase := h.toCore.poll_done hcq hs hr1 hspin
    have hposted : posted side { c with cq := rest, recvState := 2 } = posted side c := by
      rw [posted_eq_three.mpr ⟨hs, hr1.ge⟩]
      exact posted_eq_three.mpr ⟨hs, Nat.le_succ 1⟩
    have hcore : Core mode text side { c with cq := rest, recvState := 2 } k := by
      refine ⟨hbase, ?_, ?_⟩
      · rw [hposted, show Conn.sent { c with cq := rest, recvState := 2 } = c.sent from hsent.symm]
        exact h.queue
      · have h3 : posted side c = 3 := posted_eq_three.mpr ⟨hs, hr1.ge⟩
        rw [hposted, if_pos h3]
        exact h.sendMsg.trans (if_pos h3)
    unfold onCompletion
    rw [hwc]
    exact hcore.proceed (fun hone => absurd (show 2 = 1 from hone.2) (by decide)) hshown

theorem sent_proceed (mode : Mode) (c : Conn T) : (proceed mode c).sent = c.sent := by
  unfold proceed sendMessage
  split
  · split <;> rfl
  · split <;> rfl

/-- Polling does not change what has been carried out. -/
theorem sent_onCompletion (mode : Mode) (side : Side) {wc : Wc} (hcq : c.cq = wc :: rest) :
    (onCompletion mode side wc { c with cq := rest }).sent = c.sent := by
  unfold onCompletion
  rw [sent_proceed]
  cases wc with
  | send => exact (Conn.sent_send hcq).1.symm
  | recv =>
      rw [(Conn.sent_recv hcq).1]
      unfold onWc sendMr sendMessage postReceives
      dsimp only
      split
      · split
        · split <;> rfl
        · rfl
      · rfl

/-! ### The adapters -/

theorem plan_stages (h : c.sent < posted side c) : c.sent = 0 ∧ posted side c = 1
    ∨ c.sent = 0 ∧ posted side c = 3 ∨ c.sent = 1 ∧ posted side c = 3
    ∨ c.sent = 2 ∧ posted side c = 3 := by
  have hcases : posted side c = 3 ∨ posted side c = 1 ∨ posted side c = 0 := by
    unfold posted
    split
    · exact .inl rfl
    · split
      · exact .inr (.inl rfl)
      · exact .inr (.inr rfl)
  omega

/-- A request of the side is carried out, and completed at once. -/
theorem SideInv.carried (h : SideInv mode text side c k) (hlt : c.sent < posted side c)
    {region : Option T} (hregion : region = if mode = .write then some (text side)
      else if 2 ≤ c.sent + 1 then some (text side.peer) else none) :
    SideInv mode text side { c with
      queue := (plan.take (posted side c)).drop (c.sent + 1)
      cq := c.cq ++ [.send]
      localRegion := region } k := by
  -- the completion of the request is in the queue at once, so the request counts as carried out
  have hsent : ∀ q r, Conn.sent { c with queue := q, cq := c.cq ++ [.send], localRegion := r }
      = c.sent + 1 := by
    intro q r
    show c.sendState + (c.cq ++ [Wc.send]).count .send = c.sendState + c.cq.count .send + 1
    rw [List.count_append, List.count_singleton_self]
    rfl
  have hrec : ∀ q r, Conn.received { c with queue := q, cq := c.cq ++ [.send], localRegion := r }
      = c.received := by
    intro q r
    show c.recvState + (c.cq ++ [Wc.send]).count .recv = c.recvState + c.cq.count .recv
    rw [List.count_append, show [Wc.send].count .recv = 0 from rfl]
    rfl
  have hbase : Base mode text side { c with
      queue := (plan.take (posted side c)).drop (c.sent + 1)
      cq := c.cq ++ [.send]
      localRegion := region } k :=
    { h with
      received := (hrec _ _).trans h.received
      sent_le := (hsent _ _).trans_le hlt
      first := fun hzero hb => by
        have hold := h.first hzero hb
        show (c.cq ++ [Wc.send]).head? ≠ some .recv
        cases hcq : c.cq with
        | nil => exact fun hhead => absurd (Option.some.inj hhead) (by decide)
        | cons wc rest => rwa [hcq] at hold
      asked := fun _ _ => (hsent _ _).symm ▸ Nat.le_add_left 1 _
      answered := fun _ => (hsent _ _).symm ▸ Nat.le_add_left 1 _
      receives := by
        rw [hrec]
        exact h.receives
      recvMsg := by
        rw [hrec]
        exact h.recvMsg
      localRegion := by
        rw [hsent]
        exact hregion }
  refine ⟨⟨hbase, ?_, h.sendMsg⟩, h.disconnected, h.printed⟩
  rw [hsent]
  rfl

/-- A message comes to the side: the key of the peer, or that the peer is done. -/
theorem SideInv.arrived (h : SideInv mode text side c k) (hk : k = 0 ∨ k = 2)
    (hreceives : c.receives ≠ 0) (hasked : side = .client ∨ k = 2 → 1 ≤ c.sent)
    (hbegun : Begun side c → 1 ≤ c.sent) :
    SideInv mode text side { c with
      recvMsg := messageAt side.peer (c.received + 1)
      receives := c.receives - 1
      cq := c.cq ++ [.recv] } (k + 1) := by
  -- a message is no completion of a request, and one receive is used up
  have hsent : ∀ m r, Conn.sent { c with recvMsg := m, receives := r, cq := c.cq ++ [.recv] }
      = c.sent := by
    intro m r
    show c.sendState + (c.cq ++ [Wc.recv]).count .send = c.sendState + c.cq.count .send
    rw [List.count_append, show [Wc.recv].count .send = 0 from rfl]
    rfl
  have hrec : ∀ m r, Conn.received { c with recvMsg := m, receives := r, cq := c.cq ++ [.recv] }
      = c.received + 1 := by
    intro m r
    show c.recvState + (c.cq ++ [Wc.recv]).count .recv = c.recvState + c.cq.count .recv + 1
    rw [List.count_append, List.count_singleton_self]
    rfl
  have hmessages : messages (k + 1) = messages k + 1 := by
    rcases hk with rfl | rfl <;> rfl
  have hbase : Base mode text side { c with
      recvMsg := messageAt side.peer (c.received + 1)
      receives := c.receives - 1
      cq := c.cq ++ [.recv] } (k + 1) :=
    { h with
      received := by rw [hrec, h.received, hmessages]
      sent_le := (hsent _ _).trans_le h.sent_le
      first := fun hzero hb => by
        -- the completion of its own key is there already
        have hold := h.first hzero hb
        have hpos := hbegun hb
        show (c.cq ++ [Wc.recv]).head? ≠ some .recv
        cases hcq : c.cq with
        | nil =>
            unfold Conn.sent at hpos
            rw [hcq, show c.sendState = 0 from hzero] at hpos
            exact absurd hpos (Nat.not_succ_le_zero 0)
        | cons wc rest => rwa [hcq] at hold
      asked := fun hside _ => (hsent _ _).symm ▸ hasked (.inl hside)
      answered := fun h2 => (hsent _ _).symm ▸ hasked (.inr (by omega))
      receives := by
        have hrecv := h.receives
        rw [hrec]
        show c.receives - 1 + (c.received + 1) = 1 + min c.recvState 1
        omega
      recvMsg := by rw [hrec]
      localRegion := by
        rw [hsent]
        exact h.localRegion
      remoteRegion := by
        have hiff : 2 ≤ k + 1 ↔ 2 ≤ k := by omega
        simp only [hiff]
        exact h.remoteRegion }
  refine ⟨⟨hbase, ?_, h.sendMsg⟩, h.disconnected, h.printed⟩
  rw [hsent]
  exact h.queue

/-- The access of the peer is carried out. -/
theorem SideInv.accessed (h : SideInv mode text side c 1) (hsent : 1 ≤ c.sent)
    {region : Option T} (hregion : region = if mode = .read then some (text side)
      else some (text side.peer)) :
    SideInv mode text side { c with remoteRegion := region } 2 :=
  ⟨⟨{ h with
      received := h.received
      asked := fun _ _ => hsent
      answered := fun _ => hsent
      remoteRegion := by
        rw [if_pos (le_refl 2)]
        exact hregion }, h.queue, h.sendMsg⟩, h.disconnected, h.printed⟩

/-! ### Steps -/

variable {s t : State T} {es : List (Event T)}

theorem Side.peer_peer (side : Side) : side.peer.peer = side := by cases side <;> rfl

theorem Side.peer_ne (side : Side) : side.peer ≠ side := by cases side <;> decide

theorem Side.eq_or_eq_peer (a b : Side) : a = b ∨ a = b.peer := by cases a <;> cases b <;> decide

@[simp] theorem State.set_self (s : State T) (side : Side) (c : Conn T) :
    (s.set side c).conn side = c := by
  apply Function.update_self

@[simp] theorem State.set_peer (s : State T) (side : Side) (c : Conn T) :
    (s.set side c).conn side.peer = s.conn side.peer := by
  apply Function.update_of_ne side.peer_ne

@[simp] theorem State.set_of_peer (s : State T) (side : Side) (c : Conn T) :
    (s.set side.peer c).conn side = s.conn side := by
  apply Function.update_of_ne side.peer_ne.symm

def Event.actor : Event T → Side
  | message sender _ => sender
  | access side => side
  | shown side _ => side

/-- What a side does, from the outside. -/
def script (text : Side → T) (side : Side) : List (Event T) :=
  [.message side (.mr side), .access side, .message side .done,
    .shown side (some (text side.peer))]

/-- How far a side is in its script. -/
def stage (c : Conn T) : ℕ := c.sent + if c.disconnected then 1 else 0

/-- The events of a side that has come from `c` to `c'`. -/
def Performs (text : Side → T) (side : Side) (es : List (Event T)) (c c' : Conn T) : Prop :=
  stage c ≤ stage c'
    ∧ es.filter (fun e => e.actor = side) = ((script text side).take (stage c')).drop (stage c)

theorem Performs.idle {c' : Conn T} (hes : es.filter (fun e => e.actor = side) = [])
    (hstage : stage c' = stage c) : Performs text side es c c' := by
  refine ⟨hstage.ge, hes.trans ?_⟩
  rw [hstage, List.drop_take_self]

/-- A step keeps what holds of the state, and each side goes on in its script. -/
def Keeps (mode : Mode) (text : Side → T) (s : State T) (es : List (Event T)) (t : State T) :
    Prop :=
  Inv mode text t ∧ ∀ side, Performs text side es (s.conn side) (t.conn side)

/-- Both sides, one after the other. -/
theorem keeps_of_sides (side : Side)
    (hside : SideInv mode text side (t.conn side) (t.conn side.peer).sent)
    (hpeer : SideInv mode text side.peer (t.conn side.peer) (t.conn side).sent)
    (hes : Performs text side es (s.conn side) (t.conn side))
    (hes' : Performs text side.peer es (s.conn side.peer) (t.conn side.peer)) :
    Keeps mode text s es t := by
  refine ⟨fun b => ?_, fun b => ?_⟩
  · obtain rfl | rfl := b.eq_or_eq_peer side
    · exact hside
    · rwa [side.peer_peer]
  · obtain rfl | rfl := b.eq_or_eq_peer side
    · exact hes
    · exact hes'

/-- The side moves by itself, and has no more requests carried out than before. -/
theorem Inv.set_side (h : Inv mode text s) {c' : Conn T}
    (hside : SideInv mode text side c' (s.conn side.peer).sent)
    (hsent : c'.sent = (s.conn side).sent)
    (hes : Performs text side es (s.conn side) c')
    (hother : es.filter (fun e => e.actor = side.peer) = []) :
    Keeps mode text s es (s.set side c') := by
  refine keeps_of_sides side ?_ ?_ ?_ (Performs.idle hother ?_)
  · rwa [State.set_self, State.set_peer]
  · have hpeer := h side.peer
    rw [side.peer_peer] at hpeer
    rwa [State.set_self, State.set_peer, hsent]
  · rwa [State.set_self]
  · rw [State.set_peer]

theorem SideInv.poll (h : SideInv mode text side c k) {wc : Wc} (hspin : c.spinning = false)
    (hcq : c.cq = wc :: rest) :
    SideInv mode text side (onCompletion mode side wc { c with cq := rest }) k := by
  cases wc with
  | send => exact h.onCompletion_send hcq
  | recv => exact h.onCompletion_recv hspin hcq

theorem Inv.keeps_establish (h : Inv mode text s) (hs : establish side s = some (es, t)) :
    Keeps mode text s es t := by
  unfold establish at hs
  split at hs
  · exact absurd hs (by simp)
  · rename_i hc
    obtain ⟨rfl, rfl⟩ := Prod.mk.inj (Option.some.inj hs)
    have hside := h side
    have hcore := hside.toCore.establish (Bool.eq_false_iff.mpr hc)
    cases side with
    | client =>
        exact h.set_side ⟨hcore, hside.disconnected, hside.printed⟩ rfl (Performs.idle rfl rfl) rfl
    | server =>
        exact h.set_side ⟨hcore, hside.disconnected, hside.printed⟩ rfl (Performs.idle rfl rfl) rfl

theorem Inv.keeps_resume (h : Inv mode text s) (hs : resume side s = some (es, t)) :
    Keeps mode text s es t := by
  unfold resume at hs
  dsimp only at hs
  split at hs
  · rename_i hwait
    obtain ⟨rfl, rfl⟩ := Prod.mk.inj (Option.some.inj hs)
    have hside := h side
    exact h.set_side ⟨hside.toCore.resume hwait.1 hwait.2, hside.disconnected, hside.printed⟩ rfl
      (Performs.idle rfl rfl) rfl
  · exact absurd hs (by simp)

theorem shown_filter (side : Side) (lines : List (Option T)) :
    (lines.map (Event.shown side)).filter (fun e => e.actor = side.peer) = [] := by
  apply List.filter_eq_nil_iff.mpr
  intro e he
  obtain ⟨line, -, rfl⟩ := List.mem_map.mp he
  rw [decide_eq_true_eq]
  exact side.peer_ne.symm

/-- What a side shows is the end of its script. -/
theorem SideInv.performs_poll (h : SideInv mode text side p k) (hgoing : c.disconnected = false)
    (hsent : p.sent = c.sent) : Performs text side (p.printed.map (Event.shown side)) c p := by
  have hstage : stage c = c.sent := by
    unfold stage
    rw [hgoing]
    rfl
  by_cases hend : p.disconnected
  · have h3 : p.sent = 3 := by
      have hle := h.toBase.sendState_le
      have hst := of_decide_eq_true (h.disconnected.symm.trans hend)
      unfold Conn.sent
      omega
    refine ⟨?_, ?_⟩
    · rw [hstage, ← hsent]
      exact Nat.le_add_right _ _
    · rw [hstage, stage, ← hsent, h3, h.printed, if_pos hend, if_pos hend]
      simp [script, Event.actor]
  · refine Performs.idle ?_ ?_
    · rw [h.printed, if_neg hend]
      rfl
    · rw [hstage, stage, hsent, if_neg hend]
      rfl

theorem Inv.keeps_poll (h : Inv mode text s) (hs : poll mode side s = some (es, t)) :
    Keeps mode text s es t := by
  unfold poll at hs
  dsimp only at hs
  split at hs
  · exact absurd hs (by simp)
  · rename_i hspin
    split at hs
    · exact absurd hs (by simp)
    · rename_i wc rest hcq
      obtain ⟨rfl, rfl⟩ := Prod.mk.inj (Option.some.inj hs)
      have hside := h side
      obtain ⟨hgoing, hnone⟩ := hside.going (by simp [hcq])
      have hnew := hside.poll (Bool.eq_false_iff.mpr fun hs => hspin (.inl hs)) hcq
      have hsent := sent_onCompletion mode side hcq
      have hlen : (s.conn side).printed.length = 0 := by
        rw [hnone]
        rfl
      rw [hlen, List.drop_zero]
      exact h.set_side hnew hsent (hnew.performs_poll hgoing hsent) (shown_filter side _)

/-- The next request of a side, and what it takes. -/
theorem Core.next (h : Core mode text side c k) (hqueue : c.queue ≠ []) :
    c.sent = 0 ∧ posted side c = 1 ∧ c.queue = [.send] ∧ c.sendMsg = some (.mr side)
    ∨ c.sent = 1 ∧ posted side c = 3 ∧ c.queue = [.rdma, .send] ∧ c.peerMr = some side.peer
    ∨ c.sent = 2 ∧ posted side c = 3 ∧ c.queue = [.send] ∧ c.sendMsg = some .done := by
  have hlt : c.sent < posted side c := by
    by_contra hge
    apply hqueue
    rw [h.queue]
    apply List.drop_eq_nil_of_le
    rw [List.length_take]
    omega
  have hmsg := h.sendMsg
  -- what is posted is a start of the plan, so the next request is its entry at `sent`
  rcases plan_stages hlt with ⟨hsent, hp⟩ | ⟨hsent, hp⟩ | ⟨hsent, hp⟩ | ⟨hsent, hp⟩
  · refine .inl ⟨hsent, hp, by rw [h.queue, hp, hsent]; rfl, ?_⟩
    have hb : Begun side c := by
      by_contra hnot
      have hidle := posted_of_not_begun (h.idle hnot).1 hnot
      omega
    rw [hmsg, hp, if_neg (by decide), if_pos (.inl hb)]
  · have hrun := posted_eq_three.mp hp
    unfold Conn.sent at hsent
    omega
  · refine .inr (.inl ⟨hsent, hp, by rw [h.queue, hp, hsent]; rfl, ?_⟩)
    have hrun := posted_eq_three.mp hp
    rw [h.peerMr, if_neg (by omega)]
  · refine .inr (.inr ⟨hsent, hp, by rw [h.queue, hp, hsent]; rfl, ?_⟩)
    rw [hmsg, if_pos hp]

/-- A message has come only when it has been sent. -/
theorem Base.sent_of_recvState (h : Base mode text side c k) (hr : 1 ≤ c.recvState) : 1 ≤ k := by
  by_contra hk
  obtain rfl : k = 0 := by omega
  have hrec := h.received
  unfold Conn.received at hrec
  rw [show messages 0 = 0 from rfl] at hrec
  omega

theorem Performs.one {c' : Conn T} {e : Event T} (hsent : c'.sent = c.sent + 1)
    (hgoing : c.disconnected = false) (hgoing' : c'.disconnected = false) (he : e.actor = side)
    (hscript : (script text side)[c.sent]? = some e) :
    Performs text side [e] c c' := by
  have hstage : stage c = c.sent := by
    unfold stage
    rw [hgoing]
    rfl
  have hstage' : stage c' = c.sent + 1 := by
    unfold stage
    rw [hgoing', hsent]
    rfl
  refine ⟨by omega, ?_⟩
  rw [hstage, hstage', List.take_add_one, hscript]
  have hlen := (List.getElem?_eq_some_iff.mp hscript).1
  rw [List.drop_append_of_le_length (by rw [List.length_take]; omega), List.drop_take_self]
  simp [he]

/-- One more request of the side is carried out. -/
theorem keeps_of_carried {c' p' : Conn T} {e : Event T} (hc : t.conn side = c')
    (hp : t.conn side.peer = p') (hside : SideInv mode text side c' (s.conn side.peer).sent)
    (hpeer : SideInv mode text side.peer p' ((s.conn side).sent + 1))
    (hsent : c'.sent = (s.conn side).sent + 1) (hsent' : p'.sent = (s.conn side.peer).sent)
    (hgoing : (s.conn side).disconnected = false) (hgoing' : c'.disconnected = false)
    (hother : p'.disconnected = (s.conn side.peer).disconnected) (he : e.actor = side)
    (hscript : (script text side)[(s.conn side).sent]? = some e) :
    Keeps mode text s [e] t := by
  subst hc hp
  refine keeps_of_sides side ?_ ?_ (Performs.one hsent hgoing hgoing' he hscript)
    (Performs.idle ?_ ?_)
  · rwa [hsent']
  · rwa [hsent]
  · rw [List.filter_singleton, he, decide_eq_false side.peer_ne.symm]
    rfl
  · unfold stage
    rw [hsent', hother]

/-- What the next request of a side tells of the peer. -/
theorem Inv.peer_sent (h : Inv mode text s) (hb : Begun side (s.conn side))
    (hlate : side = .server ∨ 1 ≤ (s.conn side).recvState) : 1 ≤ (s.conn side.peer).sent := by
  apply (h side).sent_of_recvState
  rcases hlate with rfl | hr
  · exact hb.1
  · exact hr

theorem Inv.deliver (h : Inv mode text s) {msg : Message} {rest : List Request}
    (hgoing : (s.conn side).disconnected = false)
    (hreceives : (s.conn side.peer).receives ≠ 0)
    (hlt : (s.conn side).sent < posted side (s.conn side))
    (hrest : rest = (plan.take (posted side (s.conn side))).drop ((s.conn side).sent + 1))
    (hmsg : (s.conn side).sent = 0 ∧ msg = .mr side
      ∨ (s.conn side).sent = 2 ∧ posted side (s.conn side) = 3 ∧ msg = .done) :
    Keeps mode text s [.message side msg]
      ((s.set side.peer { s.conn side.peer with
        recvMsg := some msg
        receives := (s.conn side.peer).receives - 1
        cq := (s.conn side.peer).cq ++ [.recv] }).set side
          (finish true { s.conn side with queue := rest })) := by
  have hside := h side
  have hpeer := h side.peer
  rw [side.peer_peer] at hpeer
  have hb : Begun side (s.conn side) := begun_of_posted_pos (by omega) hside.begun
  -- the peer has sent its key, unless it is the server and this one is the key of the client
  have hearlier : side.peer = .client ∨ (s.conn side).sent = 2 → 1 ≤ (s.conn side.peer).sent := by
    rintro (hclient | htwo)
    · refine h.peer_sent hb (.inl ?_)
      rw [← side.peer_peer, hclient]
      rfl
    · exact h.peer_sent hb (.inr (hside.running htwo.ge).2)
  have hbegun : Begun side.peer (s.conn side.peer) → 1 ≤ (s.conn side.peer).sent := by
    intro hpb
    rcases hmsg with ⟨hzero, -⟩ | ⟨htwo, -⟩
    · cases side with
      | client =>
          have hone := hpeer.sent_of_recvState hpb.1
          omega
      | server => exact hearlier (.inl rfl)
    · exact hearlier (.inr htwo)
  have hstage : (s.conn side).sent = 0 ∨ (s.conn side).sent = 2 := by
    rcases hmsg with hzero | htwo
    · exact .inl hzero.1
    · exact .inr htwo.1
  have hnew := hpeer.arrived hstage hreceives hearlier hbegun
  have hnumber : messageAt side.peer.peer ((s.conn side.peer).received + 1) = some msg := by
    rw [side.peer_peer, hpeer.received]
    rcases hmsg with ⟨hzero, rfl⟩ | ⟨htwo, -, rfl⟩
    · rw [hzero]
      rfl
    · rw [htwo]
      rfl
  rw [hnumber] at hnew
  have hregion : (s.conn side).localRegion = if mode = .write then some (text side)
      else if 2 ≤ (s.conn side).sent + 1 then some (text side.peer) else none := by
    have hiff : 2 ≤ (s.conn side).sent + 1 ↔ 2 ≤ (s.conn side).sent := by omega
    simp only [hiff]
    exact hside.localRegion
  have hown := hside.carried hlt hregion
  rw [← hrest] at hown
  have hscript : (script text side)[(s.conn side).sent]? = some (.message side msg) := by
    rcases hmsg with ⟨hzero, rfl⟩ | ⟨htwo, -, rfl⟩
    · rw [hzero]
      rfl
    · rw [htwo]
      rfl
  refine keeps_of_carried (State.set_self _ _ _) ?_ hown hnew ?_ ?_ hgoing hgoing rfl rfl hscript
  · rw [State.set_peer, State.set_self]
  · unfold Conn.sent finish
    simp [Nat.add_assoc]
  · unfold Conn.sent
    simp

theorem Inv.access (h : Inv mode text s) {rest : List Request}
    (hgoing : (s.conn side).disconnected = false)
    (hone : (s.conn side).sent = 1) (hposted : posted side (s.conn side) = 3)
    (hrest : rest = [.send]) {region region' : Option T}
    (hlocal : region = if mode = .write then (s.conn side).localRegion
      else (s.conn side.peer).remoteRegion)
    (hremote : region' = if mode = .write then (s.conn side).localRegion
      else (s.conn side.peer).remoteRegion)
    (hc : t.conn side = { finish true { s.conn side with queue := rest } with
      localRegion := region })
    (hp : t.conn side.peer = { s.conn side.peer with remoteRegion := region' }) :
    Keeps mode text s [.access side] t := by
  have hside := h side
  have hpeer := h side.peer
  rw [side.peer_peer] at hpeer
  have hrun := posted_eq_three.mp hposted
  -- the peer has sent its key, since this side has had it
  have hsent : 1 ≤ (s.conn side.peer).sent :=
    h.peer_sent (hside.begun hrun.1) (.inr hrun.2)
  -- in either mode both regions now hold the text that is passed
  have hlocal' : region = if mode = .write then some (text side)
      else if 2 ≤ (s.conn side).sent + 1 then some (text side.peer) else none := by
    rw [hlocal, hside.localRegion, hpeer.remoteRegion]
    cases mode <;> simp [hone]
  have hremote' : region' = if mode = .read then some (text side.peer)
      else some (text side.peer.peer) := by
    rw [hremote, hside.localRegion, hpeer.remoteRegion, side.peer_peer]
    cases mode <;> simp
  rw [hone] at hpeer
  have hnew := hpeer.accessed hsent hremote'
  have hown := hside.carried (by omega) hlocal'
  have hstretch : rest = (plan.take (posted side (s.conn side))).drop ((s.conn side).sent + 1) := by
    rw [hrest, hposted, hone]
    rfl
  rw [← hstretch] at hown
  have hscript : (script text side)[(s.conn side).sent]? = some (.access side) := by
    rw [hone]
    rfl
  refine keeps_of_carried hc hp hown ?_ ?_ rfl hgoing hgoing rfl rfl hscript
  · rwa [hone]
  · unfold Conn.sent finish
    simp [Nat.add_assoc]

theorem Inv.keeps_execute (h : Inv mode text s)
    (hs : execute mode true side s = some (es, t)) : Keeps mode text s es t := by
  unfold execute at hs
  dsimp only at hs
  split at hs
  · exact absurd hs (by simp)
  rename_i hgo
  have hgoing : (s.conn side).disconnected = false := Bool.eq_false_iff.mpr fun hd => hgo (.inl hd)
  have hnext := (h side).toCore.next
  split at hs
  · rename_i rest msg hqueue hsendMsg
    rw [hqueue, hsendMsg] at hnext
    split at hs
    · exact absurd hs (by simp)
    · rename_i hreceives
      obtain ⟨rfl, rfl⟩ := Prod.mk.inj (Option.some.inj hs)
      -- a send is the first request or the third: the key, or that the side is done
      rcases hnext (List.cons_ne_nil _ _) with ⟨hsent, hp, hq, hm⟩ | ⟨-, -, hq, -⟩ | ⟨hsent, hp, hq, hm⟩
      · refine h.deliver hgoing hreceives (by omega) ?_ (.inl ⟨hsent, Option.some.inj hm⟩)
        rw [hsent, hp]
        exact (List.cons.inj hq).2
      · exact absurd (List.cons.inj hq).1 (by decide)
      · refine h.deliver hgoing hreceives (by omega) ?_ (.inr ⟨hsent, hp, Option.some.inj hm⟩)
        rw [hsent, hp]
        exact (List.cons.inj hq).2
  · rename_i rest owner hqueue hpeerMr
    rw [hqueue, hpeerMr] at hnext
    -- an access is the second request, and uses the key of the peer
    rcases hnext (List.cons_ne_nil _ _) with ⟨-, -, hq, -⟩ | ⟨hsent, hp, hq, hm⟩ | ⟨-, -, hq, -⟩
    · exact absurd (List.cons.inj hq).1 (by decide)
    · obtain rfl := Option.some.inj hm
      have hrest := (List.cons.inj hq).2
      cases mode with
      | write =>
          obtain ⟨rfl, rfl⟩ := Prod.mk.inj (Option.some.inj hs)
          refine h.access hgoing hsent hp hrest rfl rfl ?_ ?_
          · rw [State.set_of_peer, State.set_self]
            rfl
          · rw [State.set_self, State.set_peer]
            rfl
      | read =>
          obtain ⟨rfl, rfl⟩ := Prod.mk.inj (Option.some.inj hs)
          refine h.access hgoing hsent hp hrest rfl rfl ?_ ?_
          · rw [State.set_self, State.set_self, State.set_peer]
            rfl
          · rw [State.set_peer, State.set_peer]
            rfl
    · exact absurd (List.cons.inj hq).1 (by decide)
  · exact absurd hs (by simp)

/-- The three steps that change only what has become of a connection. -/
theorem of_turn {p : Prop} [Decidable p] {f : Fate}
    (hs : (if p then some (([] : List (Event T)), s.turn side f) else none) = some (es, t)) :
    p ∧ es = [] ∧ t = s.turn side f := by
  split at hs
  · rename_i hp
    obtain ⟨rfl, rfl⟩ := Prod.mk.inj (Option.some.inj hs)
    exact ⟨hp, rfl, rfl⟩
  · exact absurd hs (by simp)

theorem Inv.turn (h : Inv mode text s) {f : Fate} : Keeps mode text s [] (s.turn side f) :=
  ⟨h, fun _ => Performs.idle rfl rfl⟩

/-- **What holds of both sides is kept, whatever happens next.** -/
theorem Inv.step (h : Inv mode text s) (hs : Step mode true s es t) : Keeps mode text s es t := by
  obtain ⟨a, hact⟩ := hs
  cases a with
  | establish side => exact h.keeps_establish hact
  | resume side => exact h.keeps_resume hact
  | poll side => exact h.keeps_poll hact
  | execute side => exact h.keeps_execute hact
  | complete side =>
      -- there is nothing left to complete
      simp [act, complete, (h side).unacked] at hact
  | disconnect side =>
      obtain ⟨-, rfl, rfl⟩ := of_turn hact
      exact h.turn
  | touch side =>
      obtain ⟨-, rfl, rfl⟩ := of_turn hact
      exact h.turn
  | exit =>
      obtain ⟨-, rfl, rfl⟩ := of_turn hact
      exact h.turn

end MyTests.Rdma.Handshake
