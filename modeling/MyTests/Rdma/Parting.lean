/-
MyTests/Rdma/Parting.lean

Whole runs of the exchange, with prompt completions, to the end of both connections.

What a side has done is a beginning of its script (`run_inv`).  The side that is
first through its script shows the text and disconnects, and by then the other
has nothing left to send.  Now the event of the disconnection and the completions
that the other has not polled yet race: it may show the text and disconnect as
well, or find its connection freed under it (`exchange_overtaken`).  So a text
that is shown is that of the other side, and at least one side shows one
(`exchange_safe`); and every run comes to where both connections are gone
(`exchange_ends`).

Completions that are not prompt are another matter: then a side may show memory
that nobody has written (`exchange_race`).
-/
import MyTests.Rdma.Exchange

namespace MyTests.Rdma.Handshake

open Lib

variable {T : Type} {mode : Mode} {prompt : Bool} {text : Side → T} {side : Side} {c : Conn T}
  {k : ℕ} {s t : State T} {es : List (Event T)} {rest : List Wc}

/-! ### What becomes of the connections -/

@[simp] theorem State.set_fate (s : State T) (side : Side) (c : Conn T) :
    (s.set side c).fate = s.fate :=
  rfl

theorem fate_establish (hs : establish side s = some (es, t)) : t.fate = s.fate := by
  unfold establish at hs
  split at hs
  · exact absurd hs (by simp)
  · obtain ⟨-, rfl⟩ := Prod.mk.inj (Option.some.inj hs)
    rfl

theorem fate_resume (hs : resume side s = some (es, t)) : t.fate = s.fate := by
  unfold resume at hs
  dsimp only at hs
  split at hs
  · obtain ⟨-, rfl⟩ := Prod.mk.inj (Option.some.inj hs)
    rfl
  · exact absurd hs (by simp)

theorem fate_poll (hs : poll mode side s = some (es, t)) : t.fate = s.fate := by
  unfold poll at hs
  dsimp only at hs
  split at hs
  · exact absurd hs (by simp)
  · split at hs
    · exact absurd hs (by simp)
    · obtain ⟨-, rfl⟩ := Prod.mk.inj (Option.some.inj hs)
      rfl

theorem fate_execute (hs : execute mode prompt side s = some (es, t)) : t.fate = s.fate := by
  unfold execute at hs
  dsimp only at hs
  split at hs
  · exact absurd hs (by simp)
  split at hs
  · split at hs
    · exact absurd hs (by simp)
    · obtain ⟨-, rfl⟩ := Prod.mk.inj (Option.some.inj hs)
      rfl
  · cases mode with
    | write | read =>
        obtain ⟨-, rfl⟩ := Prod.mk.inj (Option.some.inj hs)
        rfl
  · exact absurd hs (by simp)

theorem fate_complete (hs : complete side s = some (es, t)) : t.fate = s.fate := by
  unfold complete at hs
  dsimp only at hs
  split at hs
  · exact absurd hs (by simp)
  · obtain ⟨-, rfl⟩ := Prod.mk.inj (Option.some.inj hs)
    rfl

/-- What a step does with the connections as such: nothing, or it frees the one of a side that
learns of the disconnection, or it is the last step of a side. -/
inductive Turns (s : State T) : State T → Prop
  | stays {t : State T} (h : t.fate = s.fate) : Turns s t
  | learns (side : Side) (hlive : s.fate side = .live)
      (hgone : (s.conn side).disconnected = true ∨ (s.conn side.peer).disconnected = true) :
      Turns s (s.turn side .freed)
  | leaves (side : Side) (f : Fate) (hfreed : s.fate side = .freed)
      (hf : f = .touched ∨ f = .exited) : Turns s (s.turn side f)

theorem Step.turns (hs : Step mode prompt s es t) : Turns s t := by
  obtain ⟨a, hact⟩ := hs
  cases a with
  | establish side => exact .stays (fate_establish hact)
  | resume side => exact .stays (fate_resume hact)
  | poll side => exact .stays (fate_poll hact)
  | execute side => exact .stays (fate_execute hact)
  | complete side => exact .stays (fate_complete hact)
  | disconnect side =>
      obtain ⟨⟨hlive, hgone⟩, -, rfl⟩ := of_turn hact
      exact .learns side hlive hgone
  | touch side =>
      obtain ⟨⟨hfreed, -⟩, -, rfl⟩ := of_turn hact
      exact .leaves side .touched hfreed (.inl rfl)
  | exit =>
      obtain ⟨hfreed, -, rfl⟩ := of_turn hact
      exact .leaves .client .exited hfreed (.inr rfl)

theorem State.turn_fate (s : State T) (side b : Side) (f : Fate) :
    (s.turn side f).fate b = if b = side then f else s.fate b := by
  show Function.update s.fate side f b = _
  apply Function.update_apply

/-! ### A side that is through -/

/-- A side that has ended has had everything carried out and completed. -/
theorem SideInv.ended (h : SideInv mode text side c k) (hd : c.disconnected = true) :
    c.sent = 3 ∧ c.queue = [] ∧ c.cq = [] ∧ c.receives = 0 ∧ 3 ≤ k := by
  obtain ⟨hs, hr⟩ := of_decide_eq_true (h.disconnected.symm.trans hd)
  have hsent := h.toBase.sendState_le
  have hrec := h.received
  have hle := messages_le k
  have hrecv := h.receives
  -- a side that has still something to poll has not disconnected
  have hnil : c.cq = [] := by
    by_contra hne
    exact absurd (hd.symm.trans (h.going hne).1) (by decide)
  have h3 : c.sent = 3 := by
    unfold Conn.sent
    rw [hnil, hs]
    rfl
  have h2 : c.received = 2 := by
    unfold Conn.received
    rw [hnil, hr]
    rfl
  refine ⟨h3, ?_, hnil, by omega, ?_⟩
  · rw [h.queue, h3]
    apply List.drop_eq_nil_of_le
    rw [List.length_take]
    exact min_le_right _ _
  · by_contra hlt
    -- the two messages of the peer are its first and its third request
    have hone : messages k ≤ 1 := by
      rcases k with _ | _ | _ | k
      · exact Nat.zero_le 1
      · exact le_rfl
      · exact le_rfl
      · omega
    omega

theorem Core.queue_nil (h : Core mode text side c k) (h3 : 3 ≤ c.sent) : c.queue = [] := by
  rw [h.queue]
  apply List.drop_eq_nil_of_le
  rw [List.length_take]
  exact (min_le_right _ _).trans h3

/-- A side has disconnected when it is through its script. -/
theorem SideInv.disconnected_iff (h : SideInv mode text side c k) :
    c.disconnected = true ↔ stage c = 4 := by
  have hle := h.toBase.sendState_le
  constructor
  · intro hd
    rw [stage, (h.ended hd).1, if_pos hd]
  · intro hstage
    by_contra hnot
    unfold stage Conn.sent at hstage
    rw [if_neg hnot] at hstage
    omega

theorem disconnected_or_peer (h : ∃ b, (s.conn b).disconnected = true) (side : Side) :
    (s.conn side).disconnected = true ∨ (s.conn side.peer).disconnected = true := by
  obtain ⟨b, hb⟩ := h
  obtain rfl | rfl := b.eq_or_eq_peer side
  · exact .inl hb
  · exact .inr hb

/-- A connection that is not live any more has been announced to be closed. -/
def Announced (s : State T) : Prop :=
  ∀ side, s.fate side ≠ .live → ∃ b, (s.conn b).disconnected = true

theorem Inv.announced_step (h : Inv mode text s) (ha : Announced s)
    (hs : Step mode true s es t) : Announced t := by
  obtain ⟨hnext, hperforms⟩ := h.step hs
  intro b hb
  cases hs.turns with
  | stays hfate =>
      rw [hfate] at hb
      obtain ⟨side, hd⟩ := ha b hb
      -- a side that has disconnected is at the end of its script, and stays there
      have hstage := (hperforms side).1
      rw [(h side).disconnected_iff.mp hd] at hstage
      have hle : (t.conn side).sent ≤ 3 := (hnext side).toBase.sendState_le
      refine ⟨side, ?_⟩
      by_contra hnot
      unfold stage at hstage
      rw [if_neg hnot] at hstage
      omega
  | learns side hlive hgone =>
      rcases hgone with hd | hd
      · exact ⟨side, hd⟩
      · exact ⟨side.peer, hd⟩
  | leaves side f hfreed hf => exact ha side (by simp [hfreed])

/-! ### Whole runs -/

theorem run_inv (h : Run (Step mode true) (init mode text) es s) :
    Inv mode text s ∧ Announced s ∧ ∀ side,
      es.filter (fun e => e.actor = side) = (script text side).take (stage (s.conn side)) := by
  refine Run.invariant (I := fun es t => Inv mode text t ∧ Announced t ∧ ∀ side,
    es.filter (fun e => e.actor = side) = (script text side).take (stage (t.conn side)))
    ⟨inv_init mode text, fun _ hne => absurd rfl hne, fun _ => rfl⟩ ?_ h
  rintro es s₁ e s₂ ⟨hinv, hann, hes⟩ hstep
  obtain ⟨hnext, hperforms⟩ := hinv.step hstep
  refine ⟨hnext, hinv.announced_step hann hstep, fun side => ?_⟩
  obtain ⟨hle, he⟩ := hperforms side
  rw [List.filter_append, hes side, he]
  have hsplit := List.take_append_drop (stage (s₁.conn side))
    ((script text side).take (stage (s₂.conn side)))
  rwa [List.take_take, min_eq_left hle] at hsplit

/-- Without completions to poll, what is sent and received is what the counters say. -/
theorem Base.settled (h : Base mode text side c k) (hcq : c.cq = []) :
    c.sent = c.sendState ∧ c.recvState = messages k := by
  have hrec := h.received
  unfold Conn.received at hrec
  unfold Conn.sent
  rw [hcq] at hrec ⊢
  exact ⟨rfl, hrec⟩

/-- A side that has not disconnected when the peer has: only its last completions are missing. -/
theorem Inv.overtaken (h : Inv mode text s) (hd : (s.conn side.peer).disconnected = true)
    (hnot : ¬ (s.conn side).disconnected = true) :
    stage (s.conn side) = 3 ∧ (s.conn side).cq ≠ [] := by
  have hside := h side
  have hpeer := h side.peer
  rw [side.peer_peer] at hpeer
  obtain ⟨h3, -, -, -, hle⟩ := hpeer.ended hd
  have hsent : (s.conn side).sent = 3 := le_antisymm hside.toBase.sendState_le hle
  refine ⟨by rw [stage, hsent, if_neg hnot], fun hcq => hnot ?_⟩
  obtain ⟨hsend, hrecv⟩ := hside.toBase.settled hcq
  rw [hside.disconnected]
  refine decide_eq_true ⟨hsend.symm.trans hsent, ?_⟩
  rw [hrecv, h3]
  rfl

/-- **The exchange is safe.**  With prompt completions, and whatever the order of the events,
each side sends its key, has the access carried out, tells that it is done, and shows a text, in
this order and each once; the text is that of the other side.  When it disconnects nothing is
outstanding that its own adapter or that of the peer would still carry out or complete.  And when
its connection is gone it has disconnected, or the peer has, while the completions of the last
things it did were still to be polled. -/
theorem exchange_safe (h : Run (Step mode true) (init mode text) es s) (side : Side) :
    es.filter (fun e => e.actor = side) <+: script text side
      ∧ (s.conn side).printed
        = (if (s.conn side).disconnected then [some (text side.peer)] else [])
      ∧ ((s.conn side).disconnected = true →
        es.filter (fun e => e.actor = side) = script text side ∧ (s.conn side).cq = []
          ∧ (s.conn side).receives = 0 ∧ (s.conn side).queue = []
          ∧ (s.conn side.peer).queue = [])
      ∧ (s.fate side ≠ .live → (s.conn side).disconnected = true
        ∨ (s.conn side.peer).disconnected = true ∧ (s.conn side).cq ≠ []
          ∧ es.filter (fun e => e.actor = side) = (script text side).take 3) := by
  obtain ⟨hinv, hann, hes⟩ := run_inv h
  refine ⟨?_, (hinv side).printed, fun hd => ?_, fun hgone => ?_⟩
  · rw [hes side]
    apply List.take_prefix
  · obtain ⟨h3, hqueue, hcq, hreceives, hpeer⟩ := (hinv side).ended hd
    refine ⟨?_, hcq, hreceives, hqueue, (hinv side.peer).toCore.queue_nil hpeer⟩
    rw [hes side, stage, h3, hd]
    rfl
  -- the connection of a side goes after it has disconnected, or after its peer has
  · by_cases hd : (s.conn side).disconnected = true
    · exact .inl hd
    · have hpeer := (disconnected_or_peer (hann side hgone) side).resolve_left hd
      obtain ⟨hstage, hcq⟩ := hinv.overtaken hpeer hd
      exact .inr ⟨hpeer, hcq, by rw [hes side, hstage]⟩

/-- The server is through first.  The client has its last completions to poll when it learns of
that. -/
def overtaking : List Action :=
  [.establish .client, .execute .client, .poll .server, .establish .server, .resume .server,
    .execute .server, .poll .client, .poll .client, .poll .server, .execute .client,
    .execute .client, .execute .server, .execute .server, .poll .server, .poll .server,
    .poll .server, .disconnect .client]

theorem exchange_safe_of_run : ∃ es s, Run (Step .write true) (init .write id) es s
    ∧ es.filter (fun e => e.actor = .server) = script id .server
    ∧ es.filter (fun e => e.actor = .client) = (script id .client).take 3
    ∧ (s.conn .client).printed = [] := by
  obtain ⟨es, s, hrun, hgood⟩ := exists_run_of_schedule (stepOf_of_act (act .write true))
    (s := init .write (id : Side → Side)) (overtaking ++ [.touch .client, .disconnect .server])
    (fun _ t => decide ((t.conn .server).disconnected = true ∧ t.fate .client = .touched
      ∧ ¬ (t.conn .client).disconnected = true)) (by decide +kernel)
  obtain ⟨hserver, htouched, hclient⟩ := of_decide_eq_true hgood
  obtain ⟨-, -, hdone, -⟩ := exchange_safe hrun .server
  obtain ⟨-, hprinted, -, hgone⟩ := exchange_safe hrun .client
  rcases hgone (by simp [htouched]) with hd | ⟨-, -, htake⟩
  · exact absurd hd hclient
  · exact ⟨es, s, hrun, (hdone hserver).1, htake, hprinted.trans (if_neg hclient)⟩

/-- The event can come first, in both modes: the client returns without having shown what the
server has to say. -/
theorem exchange_overtaken (mode : Mode) :
    ∃ es s, Run (Step mode true) (init mode (id : Side → Side)) es s ∧ s.fate .client = .exited
      ∧ (s.conn .client).printed = [] ∧ (s.conn .server).printed = [some .client] := by
  obtain ⟨es, s, hrun, hgood⟩ := exists_run_of_schedule (stepOf_of_act (act mode true))
    (s := init mode (id : Side → Side)) (overtaking ++ [.exit])
    (fun _ t => decide (t.fate .client = .exited ∧ (t.conn .client).printed = []
      ∧ (t.conn .server).printed = [some .client])) (by cases mode <;> decide +kernel)
  exact ⟨es, s, hrun, of_decide_eq_true hgood⟩

/-- Prompt completions are needed.  Here the client polls the key of the server before the
completion of its own key, and sends that once more; the server takes it for the message that the
client is done, and shows memory that nobody has written. -/
theorem exchange_race : ∃ es s, Run (Step .write false) (init .write (id : Side → Side)) es s
    ∧ decide ((s.conn .server).printed = [none]) = true :=
  exists_run_of_schedule (stepOf_of_act (act .write false))
    [.establish .client, .execute .client, .establish .server, .poll .server, .execute .server,
      .poll .client, .complete .client, .poll .client, .complete .server, .poll .server,
      .execute .client, .poll .server, .complete .client, .poll .client, .execute .server,
      .execute .server, .complete .server, .complete .server, .poll .server, .poll .server]
    (fun _ t => decide ((t.conn .server).printed = [none])) (by decide +kernel)

/-! ### What is left to do -/

/-- What is left to do for a side. -/
def Conn.left (c : Conn T) : ℕ :=
  (!c.connected).toNat + c.spinning.toNat + 5 * (3 - c.sent) + 2 * c.cq.length

def left (s : State T) : ℕ := (s.conn .client).left + (s.conn .server).left

theorem left_eq (s : State T) (side : Side) :
    left s = (s.conn side).left + (s.conn side.peer).left := by
  cases side with
  | client => rfl
  | server => exact Nat.add_comm _ _

theorem left_set_lt {c' : Conn T} (h : c'.left < (s.conn side).left) :
    left (s.set side c') < left s := by
  rw [left_eq (s.set side c') side, left_eq s side, State.set_self, State.set_peer]
  omega

theorem left_establish (hs : establish side s = some (es, t)) : left t < left s := by
  unfold establish at hs
  split at hs
  · exact absurd hs (by simp)
  · rename_i hc
    obtain ⟨rfl, rfl⟩ := Prod.mk.inj (Option.some.inj hs)
    apply left_set_lt
    have hsent : (onConnection side (s.conn side)).sent = (s.conn side).sent := by
      cases side <;> rfl
    have hframe : (onConnection side (s.conn side)).connected = true
        ∧ (onConnection side (s.conn side)).spinning = (s.conn side).spinning
        ∧ (onConnection side (s.conn side)).cq = (s.conn side).cq := by
      cases side <;> exact ⟨rfl, rfl, rfl⟩
    obtain ⟨hc', hspin, hcq⟩ := hframe
    unfold Conn.left
    rw [hsent, hc', hspin, hcq, Bool.eq_false_iff.mpr hc]
    simp

theorem left_resume (hs : resume side s = some (es, t)) : left t < left s := by
  unfold resume at hs
  dsimp only at hs
  split at hs
  · rename_i hwait
    obtain ⟨rfl, rfl⟩ := Prod.mk.inj (Option.some.inj hs)
    apply left_set_lt
    simp [Conn.left, Conn.sent, hwait.1, hwait.2]
  · exact absurd hs (by simp)

theorem proceed_frame (mode : Mode) (h : c.connected = true ∨ c.sendState = 0) :
    (proceed mode c).connected = c.connected ∧ (proceed mode c).cq = c.cq := by
  unfold proceed sendMessage
  split
  · rename_i hone
    rcases h with hc | hzero
    · rw [if_pos hc]
      exact ⟨rfl, rfl⟩
    · omega
  · split <;> exact ⟨rfl, rfl⟩

theorem onWc_frame (side : Side) (wc : Wc) (c : Conn T) :
    (onWc side wc c).connected = c.connected ∧ (onWc side wc c).cq = c.cq
      ∧ (onWc side wc c).sendState = c.sendState + if wc = .send then 1 else 0 := by
  cases wc with
  | send => exact ⟨rfl, rfl, rfl⟩
  | recv =>
      unfold onWc sendMr sendMessage postReceives
      dsimp only
      split
      · split
        · split <;> exact ⟨rfl, rfl, rfl⟩
        · exact ⟨rfl, rfl, rfl⟩
      · exact ⟨rfl, rfl, rfl⟩

theorem SideInv.onCompletion_frame (h : SideInv mode text side c k) {wc : Wc}
    (hcq : c.cq = wc :: rest) :
    (onCompletion mode side wc { c with cq := rest }).connected = c.connected
      ∧ (onCompletion mode side wc { c with cq := rest }).cq = rest := by
  obtain ⟨hc, hrest, hstate⟩ := onWc_frame side wc { c with cq := rest }
  have hready : (onWc side wc { c with cq := rest }).connected = true
      ∨ (onWc side wc { c with cq := rest }).sendState = 0 := by
    rw [hc, hstate]
    by_cases hsent : 1 ≤ c.sent
    · exact .inl (h.connected (h.toBase.begun_of_sent hsent))
    · refine .inr ?_
      cases wc with
      | send =>
          have hcount := (Conn.sent_send hcq).1
          omega
      | recv =>
          have hzero : c.sendState = 0 := by
            unfold Conn.sent at hsent
            omega
          exact hzero
  obtain ⟨hc', hcq'⟩ := proceed_frame mode hready
  exact ⟨hc'.trans hc, hcq'.trans hrest⟩

/-- A completion is worth more than the wait that it may begin. -/
theorem left_lt_of_poll {c' : Conn T} (hc : c'.connected = c.connected) (hsent : c'.sent = c.sent)
    (hspin : c.spinning = false) (hcq : c'.cq.length < c.cq.length) : c'.left < c.left := by
  have hle := Bool.toNat_le c'.spinning
  unfold Conn.left
  rw [hc, hsent, hspin]
  omega

theorem Inv.left_poll (h : Inv mode text s) (hs : poll mode side s = some (es, t)) :
    left t < left s := by
  unfold poll at hs
  dsimp only at hs
  split at hs
  · exact absurd hs (by simp)
  · rename_i hspin
    split at hs
    · exact absurd hs (by simp)
    · rename_i wc rest hcq
      obtain ⟨-, rfl⟩ := Prod.mk.inj (Option.some.inj hs)
      apply left_set_lt
      obtain ⟨hc, hcq'⟩ := (h side).onCompletion_frame hcq
      have hsent := sent_onCompletion mode side hcq
      refine left_lt_of_poll hc hsent (Bool.eq_false_iff.mpr fun hs => hspin (.inl hs)) ?_
      rw [hcq', hcq]
      exact Nat.lt_succ_self _

/-- What the rank sees of a side. -/
def Conn.view (c : Conn T) : Bool × Bool × ℕ × ℕ :=
  (c.connected, c.spinning, c.sent, c.cq.length)

theorem view_finish (c : Conn T) (rest : List Request) :
    (finish true { c with queue := rest }).view
      = (c.connected, c.spinning, c.sent + 1, c.cq.length + 1) := by
  simp [Conn.view, Conn.sent, finish, Nat.add_assoc]

theorem view_arrive (c : Conn T) (msg : Option Message) (receives : ℕ) :
    ({ c with recvMsg := msg, receives := receives, cq := c.cq ++ [.recv] } : Conn T).view
      = (c.connected, c.spinning, c.sent, c.cq.length + 1) := by
  simp [Conn.view, Conn.sent]

/-- One more request of a side is carried out, and one message at most comes to the peer. -/
theorem view_execute (hs : execute mode true side s = some (es, t)) :
    let c := s.conn side
    let p := s.conn side.peer
    (t.conn side).view = (c.connected, c.spinning, c.sent + 1, c.cq.length + 1)
      ∧ ((t.conn side.peer).view = p.view
        ∨ (t.conn side.peer).view = (p.connected, p.spinning, p.sent, p.cq.length + 1)) := by
  unfold execute at hs
  dsimp only at hs ⊢
  split at hs
  · exact absurd hs (by simp)
  split at hs
  · split at hs
    · exact absurd hs (by simp)
    · obtain ⟨-, rfl⟩ := Prod.mk.inj (Option.some.inj hs)
      -- a message: the peer has one completion more
      rw [State.set_self, State.set_peer, State.set_self]
      exact ⟨view_finish _ _, .inr (view_arrive _ _ _)⟩
  · rename_i rest owner hqueue hpeerMr
    -- an access: nothing comes to the peer's queue, in either direction
    cases mode with
    | write =>
        obtain ⟨-, rfl⟩ := Prod.mk.inj (Option.some.inj hs)
        obtain rfl | rfl := owner.eq_or_eq_peer side
        · rw [State.set_self, State.set_peer, State.set_peer, State.set_self]
          exact ⟨view_finish _ _, .inl rfl⟩
        · rw [State.set_of_peer, State.set_self, State.set_self, State.set_peer]
          exact ⟨view_finish _ _, .inl rfl⟩
    | read =>
        obtain ⟨-, rfl⟩ := Prod.mk.inj (Option.some.inj hs)
        rw [State.set_self, State.set_self, State.set_peer, State.set_peer]
        exact ⟨view_finish _ _, .inl rfl⟩
  · exact absurd hs (by simp)

theorem left_of_view (c : Conn T) : c.left = (!c.view.1).toNat + c.view.2.1.toNat
    + 5 * (3 - c.view.2.2.1) + 2 * c.view.2.2.2 :=
  rfl

theorem Inv.left_execute (h : Inv mode text s)
    (hs : execute mode true side s = some (es, t)) : left t < left s := by
  have hle : (t.conn side).view.2.2.1 ≤ 3 := ((h.keeps_execute hs).1 side).toBase.sendState_le
  obtain ⟨hview, hpeer⟩ := view_execute hs
  rw [hview] at hle
  rw [left_eq t side, left_eq s side, left_of_view (t.conn side), left_of_view (t.conn side.peer),
    left_of_view (s.conn side), left_of_view (s.conn side.peer), hview]
  rcases hpeer with hpeer | hpeer
  · rw [hpeer]
    simp only [Conn.view] at hle ⊢
    omega
  · rw [hpeer]
    simp only [Conn.view] at hle ⊢
    omega

/-- The steps that are left to a connection as such. -/
def Fate.left : Fate → ℕ
  | live => 2
  | freed => 1
  | touched | exited => 0

/-- What is left to do, for both sides and their connections. -/
def State.rank (s : State T) : ℕ := left s + ((s.fate .client).left + (s.fate .server).left)

theorem rank_lt_of_fate (hfate : t.fate = s.fate) (hleft : left t < left s) : t.rank < s.rank := by
  unfold State.rank
  rw [hfate]
  exact Nat.add_lt_add_right hleft _

theorem rank_turn_lt {f : Fate} (hf : f.left < (s.fate side).left) :
    (s.turn side f).rank < s.rank := by
  refine Nat.add_lt_add_left ?_ (left s)
  rw [State.turn_fate, State.turn_fate]
  cases side with
  | client => simpa using hf
  | server => simpa using hf

/-- An event of the connection, a completion and a request are each worth something. -/
theorem Inv.rank_lt (h : Inv mode text s) (hs : Step mode true s es t) : t.rank < s.rank := by
  obtain ⟨a, hact⟩ := hs
  cases a with
  | establish side => exact rank_lt_of_fate (fate_establish hact) (left_establish hact)
  | resume side => exact rank_lt_of_fate (fate_resume hact) (left_resume hact)
  | poll side => exact rank_lt_of_fate (fate_poll hact) (h.left_poll hact)
  | execute side => exact rank_lt_of_fate (fate_execute hact) (h.left_execute hact)
  | complete side => simp [act, complete, (h side).unacked] at hact
  | disconnect side =>
      obtain ⟨⟨hlive, -⟩, -, rfl⟩ := of_turn hact
      exact rank_turn_lt (by simp [hlive, Fate.left])
  | touch side =>
      obtain ⟨⟨hfreed, -⟩, -, rfl⟩ := of_turn hact
      exact rank_turn_lt (by simp [hfreed, Fate.left])
  | exit =>
      obtain ⟨hfreed, -, rfl⟩ := of_turn hact
      exact rank_turn_lt (by simp [hfreed, Fate.left])

/-! ### Somebody goes on -/

/-- A request that is posted is carried out: the peer has posted a receive for a message, and
neither side has gone. -/
theorem Inv.can_execute (h : Inv mode text s) (hcq : ∀ side, (s.conn side).cq = [])
    (hqueue : (s.conn side).queue ≠ []) : ∃ e t, Step mode true s e t := by
  have hside := h side
  have hpeer := h side.peer
  rw [side.peer_peer] at hpeer
  -- a side that has ended has no request left, and its peer neither
  have hgoing : ¬ ((s.conn side).disconnected = true ∨ (s.conn side.peer).disconnected = true) := by
    rintro (hd | hd)
    · exact hqueue (hside.ended hd).2.1
    · exact hqueue (hside.toCore.queue_nil (hpeer.ended hd).2.2.2.2)
  -- with everything polled, a receive is posted for the next message
  have hreceives : (s.conn side).sent = 0 ∨ (s.conn side).sent = 2 →
      (s.conn side.peer).receives ≠ 0 := by
    have hr := hpeer.receives
    rw [hpeer.received, (hpeer.toBase.settled (hcq _)).2] at hr
    rintro (hzero | htwo)
    · rw [hzero, show messages 0 = 0 from rfl] at hr
      omega
    · rw [htwo, show messages 2 = 1 from rfl] at hr
      omega
  rcases hside.toCore.next hqueue with ⟨hsent, -, hq, hm⟩ | ⟨-, -, hq, hm⟩ | ⟨hsent, -, hq, hm⟩
  · apply exists_stepOf (.execute side)
    show (execute mode true side s).isSome
    unfold execute
    simp only [hq, hm]
    rw [if_neg hgoing, if_neg (hreceives (.inl hsent))]
    rfl
  · apply exists_stepOf (.execute side)
    show (execute mode true side s).isSome
    unfold execute
    simp only [hq, hm]
    rw [if_neg hgoing]
    cases mode <;> rfl
  · apply exists_stepOf (.execute side)
    show (execute mode true side s).isSome
    unfold execute
    simp only [hq, hm]
    rw [if_neg hgoing, if_neg (hreceives (.inr hsent))]
    rfl

theorem Core.sent_of_queue_nil (h : Core mode text side c k) (hqueue : c.queue = []) :
    c.sent = posted side c := by
  have hle := h.sent_le
  have hp := posted_le side c
  by_contra hne
  have hlen := congrArg List.length (h.queue.symm.trans hqueue)
  rw [List.length_drop, List.length_take, List.length_nil] at hlen
  have hplan : plan.length = 3 := rfl
  omega

/-- When nothing can happen any more, both sides have ended. -/
theorem Inv.ended (h : Inv mode text s) (hc : ∀ side, (s.conn side).connected = true)
    (hspin : ∀ side, (s.conn side).spinning = false) (hcq : ∀ side, (s.conn side).cq = [])
    (hqueue : ∀ side, (s.conn side).queue = []) (side : Side) :
    (s.conn side).disconnected = true := by
  obtain ⟨hsendC, hrecvC⟩ := (h .client).toBase.settled (hcq _)
  obtain ⟨hsendS, hrecvS⟩ := (h .server).toBase.settled (hcq _)
  have hpostC := (h .client).toCore.sent_of_queue_nil (hqueue _)
  have hpostS := (h .server).toCore.sent_of_queue_nil (hqueue _)
  -- the client has sent its key, so the server has, and each side has all it waits for
  have hclient : 1 ≤ (s.conn .client).sent := by
    have hb : Begun .client (s.conn .client) := hc .client
    rw [hpostC]
    unfold posted
    rw [if_pos hb]
    split <;> omega
  have hkey : 1 ≤ messages (s.conn .client).sent := by
    have hmono : (plan.take 1).Sublist (plan.take (s.conn .client).sent) :=
      List.take_sublist_take_left hclient
    exact hmono.count_le Request.send
  have hserver : 1 ≤ (s.conn .server).sent := by
    have hb : Begun .server (s.conn .server) := ⟨hkey.trans hrecvS.ge, hspin .server⟩
    rw [hpostS]
    unfold posted
    rw [if_pos hb]
    split <;> omega
  have hS : (s.conn .server).sent = 3 := by
    rw [hpostS]
    exact posted_eq_three.mpr ⟨by omega, hkey.trans hrecvS.ge⟩
  have hmessages : messages 3 = 2 := rfl
  have hrC : (s.conn .client).recvState = 2 := by
    rw [hrecvC]
    exact (congrArg messages hS).trans hmessages
  have hC : (s.conn .client).sent = 3 := by
    rw [hpostC]
    exact posted_eq_three.mpr ⟨by omega, by omega⟩
  have hrS : (s.conn .server).recvState = 2 := by
    rw [hrecvS]
    exact (congrArg messages hC).trans hmessages
  cases side with
  | client =>
      rw [(h .client).disconnected]
      exact decide_eq_true ⟨by omega, hrC⟩
  | server =>
      rw [(h .server).disconnected]
      exact decide_eq_true ⟨by omega, hrS⟩

/-- As long as nobody has disconnected, something can happen. -/
theorem Inv.goes_on (h : Inv mode text s) (ha : Announced s)
    (hnot : ∀ side, ¬ (s.conn side).disconnected = true) : ∃ e t, Step mode true s e t := by
  by_contra hstuck
  -- a connection goes only after somebody has disconnected
  have hlive : ∀ side, s.fate side = .live := by
    intro side
    by_contra hne
    obtain ⟨b, hb⟩ := ha side hne
    exact hnot b hb
  have hc : ∀ side, (s.conn side).connected = true := by
    intro side
    by_contra hne
    apply hstuck
    exact ⟨_, _, .establish side, if_neg hne⟩
  have hspin : ∀ side, (s.conn side).spinning = false := by
    intro side
    apply Bool.eq_false_iff.mpr
    intro hs
    apply hstuck
    exact ⟨_, _, .resume side, if_pos ⟨hs, hc side⟩⟩
  have hcq : ∀ side, (s.conn side).cq = [] := by
    intro side
    by_contra hne
    obtain ⟨wc, rest, hcons⟩ := List.exists_cons_of_ne_nil hne
    apply hstuck
    apply exists_stepOf (.poll side)
    show (poll mode side s).isSome
    unfold poll
    simp only [hspin side, hlive side, hcons]
    rfl
  refine hnot .client (h.ended hc hspin hcq (fun side => ?_) .client)
  by_contra hne
  exact hstuck (h.can_execute hcq hne)

/-- Both connections are gone, and `main` of the client has returned, or has been overrun by a
poller that uses what is freed. -/
structure Parted (s : State T) : Prop where
  client : s.fate .client = .exited ∨ s.fate .client = .touched
  server : s.fate .server ≠ .live
  shown : ∃ side, (s.conn side).disconnected = true

/-- After the first side has disconnected, the event of that can come wherever it has not. -/
theorem exists_step_of_disconnected {b : Side} (hd : (s.conn b).disconnected = true)
    (hnot : ¬ Parted s) : ∃ e t, Step mode true s e t := by
  have hgone := disconnected_or_peer ⟨b, hd⟩
  by_contra hstuck
  -- the event comes to both sides, and the client returns from `main` after it
  have hlive : ∀ side : Side, s.fate side ≠ .live := by
    intro side hlive
    apply hstuck
    exact ⟨_, _, .disconnect side, if_pos ⟨hlive, hgone side⟩⟩
  have hfreed : s.fate .client ≠ .freed := by
    intro hfreed
    apply hstuck
    exact ⟨_, _, .exit, if_pos hfreed⟩
  refine hnot ⟨?_, hlive .server, ⟨b, hd⟩⟩
  cases hfate : s.fate .client with
  | live => exact absurd hfate (hlive .client)
  | freed => exact absurd hfate hfreed
  | touched => exact .inr rfl
  | exited => exact .inl rfl

/-- **The exchange ends.**  With prompt completions and from any state that is reached, however
the events, the completions and the requests of the two sides take turns, both connections come
to be freed, and one of the sides at least has shown the text and disconnected. -/
theorem exchange_ends (h : Run (Step mode true) (init mode text) es s) :
    Inevitably (Step mode true) Parted s := by
  obtain ⟨hinv, hann, -⟩ := run_inv h
  refine Inevitably.of_rank (I := fun n t => Inv mode text t ∧ Announced t ∧ t.rank = n) ?_ ?_
    ⟨hinv, hann, rfl⟩
  · rintro n t ⟨hinv, hann, -⟩ hnot
    -- before the first side has disconnected the exchange goes on, after it the parting does
    by_cases hd : ∃ b, (t.conn b).disconnected = true
    · obtain ⟨b, hb⟩ := hd
      exact exists_step_of_disconnected hb hnot
    · exact hinv.goes_on hann fun side hside => hd ⟨side, hside⟩
  · rintro n t e u ⟨hinv, hann, rfl⟩ - hstep
    exact ⟨u.rank, hinv.rank_lt hstep, (hinv.step hstep).1, hinv.announced_step hann hstep, rfl⟩

/-- The client is freed, and has not shown the text. -/
theorem exchange_ends_of_run : ∃ es s, Run (Step .read true) (init .read (id : Side → Side)) es s
    ∧ s.fate .client = .freed ∧ (s.conn .client).cq ≠ []
    ∧ Inevitably (Step .read true) Parted s := by
  obtain ⟨es, s, hrun, hgood⟩ := exists_run_of_schedule (stepOf_of_act (act .read true))
    (s := init .read (id : Side → Side)) overtaking
    (fun _ t => decide (t.fate .client = .freed ∧ (t.conn .client).cq ≠ [])) (by decide +kernel)
  obtain ⟨hfreed, hcq⟩ := of_decide_eq_true hgood
  exact ⟨es, s, hrun, hfreed, hcq, exchange_ends hrun⟩

end MyTests.Rdma.Handshake
