/-
MyTests/Rdma/Delivery.lean

The transfer as a whole.  It refines its purpose: whatever the parties and the
adapters do, the file of the server is created under the right name, grows
along the contents of the client's file, and is complete when the client
receives `MSG_DONE`.  One write or message is under way at a time, so nothing
is stored over memory that is still to be read, no party ends unless a call of
the system has failed, and the transfer comes to an end.
-/
import MyTests.Rdma.Passing

namespace MyTests.Rdma

open Lib

variable {job : Job} {s t : State} {e es : List Event} {m : Memory} {p : Place}

/-! ### The baton in a run -/

theorem at_init (job : Job) (m : Memory) : Place.start.At job (State.init m) :=
  ⟨.inl ⟨rfl, rfl, rfl, rfl⟩, ⟨rfl, rfl, rfl⟩, rfl, rfl, rfl, rfl, rfl⟩

/-- **A step passes the baton on.** -/
theorem advances (h : p.At job s) (hs : Step job s e t)
    (hname : job.fileName.length < maxFileName) : Advances job s p e t := by
  cases p with
  | start => exact advances_start h hs.move
  | queued => exact advances_queued h hs.move
  | arrived => exact advances_arrived h hs.move hname
  | reading => exact advances_reading h hs.move
  | posting => exact advances_posting h hs.move
  | sent => exact advances_sent h hs.move
  | landed => exact advances_landed h hs.move hname
  | opening => exact advances_opening h hs.move
  | writing => exact advances_writing h hs.move
  | arming => exact advances_arming h hs.move
  | answering => exact advances_answering h hs.move
  | leaving => exact advances_leaving h hs.move
  | left => exact advances_left h hs.move
  | lost => exact advances_lost h hs.move

/-- The baton after the events `es`. -/
def Holds (job : Job) (es : List Event) (s : State) : Prop :=
  ∃ p : Place, p.At job s ∧ (p = .lost → .failed ∈ es)

theorem holds_of_run (hname : job.fileName.length < maxFileName)
    (hrun : Run (Step job) (State.init m) es t) : Holds job es t := by
  refine Run.invariant (I := Holds job) ⟨.start, at_init job m, by simp⟩ ?_ hrun
  rintro es s e t ⟨p, hp, hlost⟩ hs
  obtain ⟨q, hq, -, hqlost, -⟩ := advances hp hs hname
  refine ⟨q, hq, fun h => ?_⟩
  rcases hqlost h with hpl | hmem
  · exact List.mem_append_left _ (hlost hpl)
  · exact List.mem_append_right _ hmem

/-! ### What is delivered -/

/-- The transfer and its purpose, with the baton in between. -/
theorem simulation_delivery (hname : job.fileName.length < maxFileName) :
    Simulation (Step job) (Delivery job) fun s f => (∃ p : Place, p.At job s) ∧ s.server.file = f := by
  rintro s e t f hs ⟨⟨p, hp⟩, rfl⟩
  obtain ⟨q, hq, -, -, hrun⟩ := advances hp hs hname
  exact ⟨_, hrun, ⟨q, hq⟩, rfl⟩

/-- What the server has, by the purpose. -/
structure Delivered (job : Job) (es : List Event) (f : Option (List Byte × List Byte)) : Prop where
  partly : ∀ g, f = some g → g.1 = job.fileName ∧ g.2 <+: job.file
  whole : .done ∈ es → f = some (job.fileName, job.file)

theorem Delivered.step {f g : Option (List Byte × List Byte)} (h : Delivered job es f)
    (hs : Delivery job f e g) : Delivered job (es ++ e) g := by
  cases hs with
  | created =>
      refine ⟨?_, fun hmem => ?_⟩
      · rintro _ ⟨⟩
        exact ⟨rfl, List.nil_prefix⟩
      · cases h.whole (by simpa using hmem)
  | @wrote d data hd =>
      refine ⟨?_, fun hmem => ?_⟩
      · rintro _ ⟨⟩
        exact ⟨rfl, hd⟩
      · -- nothing can follow the whole file
        obtain rfl : d = job.file := by simpa using h.whole (by simpa using hmem)
        obtain ⟨rest, hrest⟩ := hd
        obtain rfl : data = [] := by
          rw [List.append_assoc, List.append_right_eq_self] at hrest
          exact (List.append_eq_nil_iff.mp hrest).1
        rw [List.append_nil]
  | done => exact ⟨h.partly, fun _ => rfl⟩
  | failed => exact ⟨h.partly, fun hmem => h.whole (by simpa using hmem)⟩

/-- **The transfer does what it is for.**  Along every run the file of the server is created
once, under the name of the client's file, and grows along its contents; when the client has
received `MSG_DONE` it is the client's file. -/
theorem delivery (hname : job.fileName.length < maxFileName)
    (hrun : Run (Step job) (State.init m) es t) :
    Run (Delivery job) none es t.server.file ∧ Delivered job es t.server.file := by
  obtain ⟨f, hdeliv, -, rfl⟩ :=
    (simulation_delivery hname).run hrun ⟨⟨.start, at_init job m⟩, rfl⟩
  refine ⟨hdeliv, Run.invariant (I := Delivered job) ⟨by simp [State.init], by simp⟩ ?_ hdeliv⟩
  exact fun _ _ _ _ h hs => h.step hs

/-- Two bytes to be sent. -/
def sampleJob : Job where
  fileName := [0x61]
  file := [1, 2]
  terminated := by decide
  nonempty := by decide

def sampleMemory : Memory where
  clientBuffer := []
  clientMsg := ⟨.invalid, ⟨0, 0⟩⟩
  clientPeer := ⟨0, 0⟩
  serverBuffer := []
  serverMsg := ⟨.invalid, ⟨0, 0⟩⟩
  fileName := []
  bufferMr := ⟨4096, 7⟩

/-- A run in which the second byte is on its way. -/
theorem exists_run_sending : ∃ es t, Run (Step sampleJob) (State.init sampleMemory) es t
    ∧ t.client.sends = [⟨⟨4096, 7⟩, 1⟩] := by
  obtain ⟨es, t, hrun, hgood⟩ := exists_run_of_schedule (stepOf_of_act (act sampleJob))
    (s := State.init sampleMemory)
    [.establish, .deliverMessage, .client none, .client none, .deliverWrite, .server none,
      .server (some 3), .server none, .server none, .client none, .deliverMessage, .client none,
      .client (some 1), .client none, .deliverWrite, .server none, .client none,
      .server (some 1), .server none, .server none, .deliverMessage, .client none,
      .client (some 1), .client none]
    (fun _ t => decide (t.client.sends = [⟨⟨4096, 7⟩, 1⟩])) (by decide +kernel)
  exact ⟨es, t, hrun, of_decide_eq_true hgood⟩

theorem delivery_sample :
    ∃ es t, Run (Step sampleJob) (State.init sampleMemory) es t ∧
      t.client.sends = [⟨⟨4096, 7⟩, 1⟩] ∧ Run (Delivery sampleJob) none es t.server.file ∧
      Delivered sampleJob es t.server.file := by
  obtain ⟨es, t, hrun, hsends⟩ := exists_run_sending
  obtain ⟨hdeliv, hpart⟩ := delivery (by decide) hrun
  exact ⟨es, t, hrun, hsends, hdeliv, hpart⟩

/-! ### One at a time -/

/-- The requests and messages that are posted and not yet polled. -/
def State.underWay (s : State) : ℕ :=
  s.client.sends.length + s.server.completions.length + s.server.sends + s.client.completions

/-- What the places have in common. -/
structure Quiet (s : State) : Prop where
  underWay : s.underWay ≤ 1
  clientReceives : s.client.receives ≤ 1
  serverReceives : s.server.receives ≤ 1
  /-- a write finds the server waiting for it, and has the right key -/
  write : ∀ wr ∈ s.client.sends, wr.remote = s.server.bufferMr ∧ s.server.pc = .poll
  /-- nothing is left to be flushed -/
  flush : s.client.pc = .disconnected → s.client.receives = 0 ∧ s.server.receives = 0
  overrun : s.server.pc ≠ .overrun
  /-- who fills a buffer has it to himself -/
  fills : s.client.pc = .read ∨ s.server.pc = .postReceive ∨ s.server.established = false →
    s.underWay = 0

theorem Client.Waits.receives_le {c : Client} {sends : List WriteRequest} (h : c.Waits sends) :
    c.receives ≤ 1 := by
  rcases h with h | h <;> simp [h.receives]

theorem Client.Waits.completions {c : Client} {sends : List WriteRequest} (h : c.Waits sends) :
    c.completions = 0 := by
  rcases h with h | h <;> exact h.completions

theorem Client.Waits.pc_ne_read {c : Client} {sends : List WriteRequest} (h : c.Waits sends) :
    c.pc ≠ .read := by
  rcases h with h | h <;> simp [h.pc]

theorem Quiet.of_client {pc : ClientPc} {n k r : ℕ} (hc : s.client.At pc n [] k)
    (hv : s.server.At .poll r 0 []) (hn : n ≤ 1) (hr : r ≤ 1) (hk : k ≤ 1)
    (hread : pc = .read → k = 0) (hleft : pc = .disconnected → n = 0 ∧ r = 0) : Quiet s where
  underWay := by simp [State.underWay, hc.sends, hc.completions, hv.sends, hv.completions, hk]
  clientReceives := hc.receives ▸ hn
  serverReceives := hv.receives ▸ hr
  write := by simp [hc.sends]
  flush h := by
    rw [hc.receives, hv.receives]
    exact hleft (hc.pc ▸ h)
  overrun := by simp [hv.pc]
  fills h := by
    rcases h with h | h | h
    · simp [State.underWay, hc.sends, hc.completions, hv.sends, hv.completions, hread (hc.pc ▸ h)]
    · simp [hv.pc] at h
    · simp [hv.established] at h

theorem Quiet.of_waits {pc : ServerPc} {r : ℕ} {l : List ℕ} (hc : s.client.Waits [])
    (hv : s.server.At pc r 0 l) (hr : r ≤ 1) (hl : l.length ≤ 1) (hover : pc ≠ .overrun)
    (hfill : pc = .postReceive → l = []) : Quiet s where
  underWay := by simp [State.underWay, hc.sends, hc.completions, hv.sends, hv.completions, hl]
  clientReceives := hc.receives_le
  serverReceives := hv.receives ▸ hr
  write := by simp [hc.sends]
  flush h := absurd h hc.pc_ne.1
  overrun := hv.pc ▸ hover
  fills h := by
    rcases h with h | h | h
    · exact absurd h hc.pc_ne_read
    · simp [State.underWay, hc.sends, hc.completions, hv.sends, hv.completions, hfill (hv.pc ▸ h)]
    · simp [hv.established] at h

theorem armed_le (msg : Message) : armed msg ≤ 1 := by
  unfold armed
  split <;> decide

theorem quiet_of_at (h : p.At job s) : Quiet s := by
  cases p with
  | start =>
      obtain ⟨hc, -, -, hpc, hrec, hsends, hcomp⟩ := h
      have hnone : s.underWay = 0 := by
        simp [State.underWay, hc.sends, hc.completions, hsends, hcomp]
      refine ⟨hnone.trans_le zero_le_one, hc.receives_le, hrec.le, ?_, fun h => absurd h hc.pc_ne.1, ?_,
        fun _ => hnone⟩
      · simp [hc.sends]
      · simp [hpc]
  | queued =>
      obtain ⟨hc, hv, -⟩ := h
      refine ⟨?_, hc.receives_le, hv.receives ▸ armed_le _, ?_, fun h => absurd h hc.pc_ne.1, ?_, ?_⟩
      · simp [State.underWay, hc.sends, hc.completions, hv.sends, hv.completions]
      · simp [hc.sends]
      · simp [hv.pc]
      · simp [hc.pc_ne_read, hv.pc, hv.established]
  -- from here on one of the two has the baton, and nothing is under way but what it has been given
  | arrived =>
      obtain ⟨hc, hv, -⟩ := h
      exact .of_client hc hv (by simp) (armed_le _) le_rfl (by simp) (by simp)
  | reading =>
      obtain ⟨hc, hv, -⟩ := h
      exact .of_client hc hv (by simp) le_rfl (by simp) (by simp) (by simp)
  | posting =>
      obtain ⟨hc, hv, -⟩ := h
      exact .of_client hc hv (by simp) le_rfl (by simp) (by simp) (by simp)
  | sent =>
      obtain ⟨hc, hv, -⟩ := h
      refine ⟨?_, hc.receives_le, hv.receives.le, ?_, fun h => absurd h hc.pc_ne.1, ?_, ?_⟩
      · simp [State.underWay, hc.sends, hc.completions, hv.sends, hv.completions]
      · simp [hc.sends, hv.pc]
      · simp [hv.pc]
      · simp [hc.pc_ne_read, hv.pc, hv.established]
  | landed =>
      obtain ⟨hc, hv, -⟩ := h
      exact .of_waits hc hv (by simp) (by simp) (by simp) (by simp)
  | opening =>
      obtain ⟨hc, hv, -⟩ := h
      exact .of_waits hc hv (by simp) (by simp) (by simp) (by simp)
  | writing =>
      obtain ⟨hc, hv, -⟩ := h
      exact .of_waits hc hv (by simp) (by simp) (by simp) (by simp)
  | arming =>
      obtain ⟨hc, hv, -⟩ := h
      exact .of_waits hc hv (by simp) (by simp) (by simp) (by simp)
  | answering =>
      obtain ⟨hc, hv, -⟩ := h
      exact .of_waits hc hv (armed_le _) (by simp) (by simp) (by simp)
  | leaving =>
      obtain ⟨hc, hv, -⟩ := h
      exact .of_client hc hv (by simp) (by simp) (by simp) (by simp) (by simp)
  | left =>
      obtain ⟨hc, hv, -⟩ := h
      exact .of_client hc hv (by simp) (by simp) (by simp) (by simp) (by simp)
  | lost =>
      obtain ⟨⟨hc, hv⟩ | ⟨hc, hv⟩, -⟩ := h
      · exact .of_client hc hv (by simp) le_rfl (by simp) (by simp) (by simp)
      · exact .of_waits hc hv (by simp) (by simp) (by simp) (by simp)

/-- A step stores nothing over memory that an adapter or a party is still to read. -/
structure Preserves (s t : State) : Prop where
  clientBuffer : s.client.sends ≠ [] ∨ (∃ len, s.client.pc = .write len) →
    t.client.buffer = s.client.buffer
  serverBuffer : s.server.completions ≠ [] ∨ (∃ len, s.server.pc = .write len) →
    t.server.buffer = s.server.buffer
  serverMsg : 0 < s.server.sends → t.server.msg = s.server.msg
  clientMsg : 0 < s.client.completions → t.client.msg = s.client.msg

/-- The client stores to its buffer when it has polled a completion, or reads. -/
theorem Client.step_memory {c c' : Client} {r : Option ℕ} (hs : c.step job r = some (e, c')) :
    c'.msg = c.msg ∧
      (c'.buffer = c.buffer ∨ (c.pc = .poll ∧ 0 < c.completions) ∨ c.pc = .read) := by
  unfold Client.step at hs
  cases hpc : c.pc with
  | poll =>
      simp only [hpc] at hs
      split at hs
      · cases hs
      · rename_i hne
        refine ⟨?_, .inr (.inl ⟨rfl, Nat.pos_of_ne_zero hne⟩)⟩
        have heq := congrArg (fun x => x.2.msg) (Option.some.inj hs)
        rw [← heq]
        simp only [Client.onCompletion]
        split <;> rfl
  | read =>
      simp only [hpc, Client.sendNextChunk] at hs
      refine ⟨?_, .inr (.inr rfl)⟩
      split at hs
      · obtain ⟨rfl, rfl⟩ := Prod.mk.inj (Option.some.inj hs)
        rfl
      · split at hs
        · obtain ⟨rfl, rfl⟩ := Prod.mk.inj (Option.some.inj hs)
          rfl
        · cases hs
  | write len | postReceive | disconnect =>
      simp only [hpc] at hs
      obtain ⟨rfl, rfl⟩ := Prod.mk.inj (Option.some.inj hs)
      exact ⟨rfl, .inl rfl⟩
  | disconnected | died =>
      simp only [hpc] at hs
      cases hs

theorem Server.onCompletion_buffer (v : Server) (size : ℕ) :
    (v.onCompletion size).buffer = v.buffer := by
  unfold Server.onCompletion Server.takeFileName
  split
  · rfl
  · split
    · rfl
    · split <;> rfl

/-- The server stores to its message when it has polled a completion, or posts a receive. -/
theorem Server.step_memory {v v' : Server} {r : Option ℕ} (hs : v.step r = some (e, v')) :
    v'.buffer = v.buffer ∧
      (v'.msg = v.msg ∨ (v.pc = .poll ∧ v.completions ≠ []) ∨ v.pc = .postReceive) := by
  unfold Server.step at hs
  cases hpc : v.pc with
  | poll =>
      simp only [hpc] at hs
      split at hs
      · cases hs
      · rename_i hcomp
        obtain ⟨rfl, rfl⟩ := Prod.mk.inj (Option.some.inj hs)
        refine ⟨Server.onCompletion_buffer _ _, .inr (.inl ⟨rfl, ?_⟩)⟩
        simp [hcomp]
  | «open» =>
      simp only [hpc, Server.openFile] at hs
      cases r <;>
      · obtain ⟨rfl, rfl⟩ := Prod.mk.inj (Option.some.inj hs)
        exact ⟨rfl, .inl rfl⟩
  | write size =>
      simp only [hpc, Server.writeChunk] at hs
      split at hs
      · obtain ⟨rfl, rfl⟩ := Prod.mk.inj (Option.some.inj hs)
        exact ⟨rfl, .inl rfl⟩
      · split at hs
        · split at hs <;>
          · obtain ⟨rfl, rfl⟩ := Prod.mk.inj (Option.some.inj hs)
            exact ⟨rfl, .inl rfl⟩
        · cases hs
  | postReceive =>
      simp only [hpc] at hs
      obtain ⟨rfl, rfl⟩ := Prod.mk.inj (Option.some.inj hs)
      exact ⟨rfl, .inr (.inr rfl)⟩
  | send =>
      simp only [hpc] at hs
      obtain ⟨rfl, rfl⟩ := Prod.mk.inj (Option.some.inj hs)
      exact ⟨rfl, .inl rfl⟩
  | died | overrun =>
      simp only [hpc] at hs
      cases hs

theorem Preserves.of_move (hq : Quiet s) (hs : Move job s e t) : Preserves s t := by
  -- at most one thing is under way, so whoever stores has been given the memory
  have hone := hq.underWay
  unfold State.underWay at hone
  cases hs with
  | establish hest =>
      refine ⟨fun _ => rfl, fun _ => rfl, fun hpos => ?_, fun _ => rfl⟩
      have hnone := hq.fills (.inr (.inr hest))
      unfold State.underWay at hnone
      omega
  | client hstep =>
      obtain ⟨hmsg, hbuf⟩ := Client.step_memory hstep
      refine ⟨fun hread => ?_, fun _ => rfl, fun _ => rfl, fun _ => hmsg⟩
      rcases hbuf with hbuf | ⟨hpc, hcomp⟩ | hpc
      · exact hbuf
      · rcases hread with hne | ⟨len, hw⟩
        · have hpos := List.length_pos_of_ne_nil hne
          omega
        · exact absurd (hpc.symm.trans hw) (by simp)
      · have hnone := hq.fills (.inl hpc)
        unfold State.underWay at hnone
        rcases hread with hne | ⟨len, hw⟩
        · have hpos := List.length_pos_of_ne_nil hne
          omega
        · exact absurd (hpc.symm.trans hw) (by simp)
  | server hstep =>
      obtain ⟨hbuf, hmsg⟩ := Server.step_memory hstep
      refine ⟨fun _ => rfl, fun _ => hbuf, fun hpos => ?_, fun _ => rfl⟩
      rcases hmsg with hmsg | ⟨-, hne⟩ | hpc
      · exact hmsg
      · have hlen := List.length_pos_of_ne_nil hne
        omega
      · have hnone := hq.fills (.inr (.inl hpc))
        unfold State.underWay at hnone
        omega
  -- the write itself is what is under way, so the server has polled the one before
  | write hsends =>
      refine ⟨fun _ => rfl, fun hread => ?_, fun _ => rfl, fun _ => rfl⟩
      have hpos := List.length_pos_of_ne_nil (hsends ▸ List.cons_ne_nil _ _)
      rcases hread with hne | ⟨len, hw⟩
      · have hlen := List.length_pos_of_ne_nil hne
        omega
      · have hpc := (hq.write _ (hsends ▸ List.mem_cons_self)).2
        exact absurd (hpc.symm.trans hw) (by simp)
  | badKey => exact ⟨fun _ => rfl, fun _ => rfl, fun _ => rfl, fun _ => rfl⟩
  | message _ hpos =>
      refine ⟨fun _ => rfl, fun _ => rfl, fun _ => rfl, fun hcomp => ?_⟩
      omega
  | close => exact ⟨fun _ => rfl, fun _ => rfl, fun _ => rfl, fun _ => rfl⟩
  | flushClient => exact ⟨fun _ => rfl, fun _ => rfl, fun _ => rfl, fun _ => rfl⟩
  | flushServer => exact ⟨fun _ => rfl, fun _ => rfl, fun _ => rfl, fun _ => rfl⟩

/-- **One at a time.**  In every state that a run reaches at most one write or message is under
way, a write has the key of the server and finds it waiting, and no receive is left when the
client disconnects; and no step stores over memory that is still to be read. -/
theorem one_at_a_time (hname : job.fileName.length < maxFileName)
    (hreach : Reachable (Step job) (State.init m) s) :
    Quiet s ∧ ∀ e t, Step job s e t → Preserves s t := by
  obtain ⟨es, hrun⟩ := hreach
  obtain ⟨p, hp, -⟩ := holds_of_run hname hrun
  have hq := quiet_of_at hp
  exact ⟨hq, fun e t hs => .of_move hq hs.move⟩

/-- With a write posted that is still to be carried out. -/
theorem one_at_a_time_sample :
    ∃ s, Reachable (Step sampleJob) (State.init sampleMemory) s ∧
      s.client.sends = [⟨⟨4096, 7⟩, 1⟩] ∧ s.server.pc = .poll ∧ Quiet s ∧
      ∀ e t, Step sampleJob s e t → Preserves s t := by
  obtain ⟨es, s, hrun, hsends⟩ := exists_run_sending
  obtain ⟨hquiet, hpreserves⟩ := one_at_a_time (by decide) ⟨es, hrun⟩
  have hposted : (⟨⟨4096, 7⟩, 1⟩ : WriteRequest) ∈ s.client.sends := by
    rw [hsends]
    exact List.mem_singleton_self _
  exact ⟨s, ⟨es, hrun⟩, hsends, (hquiet.write _ hposted).2, hquiet, hpreserves⟩

/-! ### The end -/

/-- The client has disconnected, and the server has closed its copy of the file. -/
def Complete (job : Job) (s : State) : Prop :=
  s.client.pc = .disconnected ∧ s.server.closed = true ∧
    s.server.file = some (job.fileName, job.file)

/-- A party has ended with `rc_die`. -/
def Died (s : State) : Prop := s.client.pc = .died ∨ s.server.pc = .died

theorem not_died_of_at (h : p.At job s) (hne : p ≠ .lost) : ¬ Died s := by
  rintro (hdied | hdied)
  all_goals
    cases p with
    | lost => exact hne rfl
    | start =>
        obtain ⟨hc, -, -, hpc, -⟩ := h
        first
        | exact absurd hdied hc.pc_ne.2
        | exact absurd (hpc.symm.trans hdied) (by simp)
    | queued | sent | landed | opening | writing | arming | answering =>
        obtain ⟨hc, hv, -⟩ := h
        first
        | exact absurd hdied hc.pc_ne.2
        | exact absurd (hv.pc.symm.trans hdied) (by simp)
    | arrived | reading | posting | leaving | left =>
        obtain ⟨hc, hv, -⟩ := h
        first
        | exact absurd (hc.pc.symm.trans hdied) (by simp)
        | exact absurd (hv.pc.symm.trans hdied) (by simp)

/-- A client that waits has a receive posted, or can post it. -/
theorem exists_step_waits {sends : List WriteRequest} (hc : s.client.Waits sends)
    (h : 0 < s.client.receives → ∃ e t, Step job s e t) : ∃ e t, Step job s e t := by
  rcases hc with hc | hc
  · exact h (by simp [hc.receives])
  · exact exists_stepOf (.client none) (by simp [act, Client.step, hc.pc])

theorem connected_of_waits {sends : List WriteRequest} (hc : s.client.Waits sends)
    (hv : s.server.pc = .poll) : s.connected = true := by
  simp [State.connected, hc.pc_ne.1, hc.pc_ne.2, hv]

/-- **The transfer is never stuck**, as long as it is not complete and no party has ended. -/
theorem progress (h : p.At job s) (hend : ¬ (Complete job s ∨ Died s)) :
    ∃ e t, Step job s e t := by
  cases p with
  | start =>
      obtain ⟨-, -, hest, -⟩ := h
      exact exists_stepOf .establish (by simp [act, hest])
  | queued =>
      obtain ⟨hc, hv, -⟩ := h
      refine exists_step_waits hc fun hpos => exists_stepOf .deliverMessage ?_
      simp [act, State.deliverMessage, connected_of_waits hc hv.pc, hv.sends, hpos]
  | arrived =>
      obtain ⟨hc, -⟩ := h
      exact exists_stepOf (.client none) (by simp [act, Client.step, hc.pc, hc.completions])
  | reading =>
      obtain ⟨hc, -⟩ := h
      have hsize : 0 < bufferSize := by decide
      -- `read` returns nothing at the end of the file alone
      have hend : min bufferSize (job.file.drop s.client.offset).length = 0 →
          job.file.drop s.client.offset = [] := by
        intro hzero
        exact List.eq_nil_of_length_eq_zero (by omega)
      let k := min bufferSize (job.file.drop s.client.offset).length
      refine exists_stepOf (.client (some k)) ?_
      simp only [act, Client.step, hc.pc, Client.sendNextChunk, Option.isSome_map]
      rw [if_pos ⟨le_rfl, hend⟩]
      rfl
  | posting =>
      obtain ⟨hc, -⟩ := h
      exact exists_stepOf (.client none) (by simp [act, Client.step, hc.pc])
  | sent len =>
      obtain ⟨hc, hv, -⟩ := h
      refine exists_stepOf .deliverWrite ?_
      simp [act, State.deliverWrite, hc.sends, connected_of_waits hc hv.pc, hv.receives]
  | landed len =>
      obtain ⟨-, hv, -⟩ := h
      exact exists_stepOf (.server none) (by simp [act, Server.step, hv.pc, hv.completions])
  | opening =>
      obtain ⟨-, hv, -⟩ := h
      exact exists_stepOf (.server (some 0)) (by simp [act, Server.step, hv.pc])
  | writing len =>
      obtain ⟨-, hv, -⟩ := h
      exact exists_stepOf (.server (some len))
        (by simp [act, Server.step, hv.pc, Server.writeChunk])
  | arming =>
      obtain ⟨-, hv, -⟩ := h
      exact exists_stepOf (.server none) (by simp [act, Server.step, hv.pc])
  | answering =>
      obtain ⟨-, hv, -⟩ := h
      exact exists_stepOf (.server none) (by simp [act, Server.step, hv.pc])
  | leaving =>
      obtain ⟨hc, -⟩ := h
      exact exists_stepOf (.client none) (by simp [act, Client.step, hc.pc])
  | left =>
      obtain ⟨hc, -, hstored⟩ := h
      -- the client has left; without the server's close the transfer is not complete
      cases hclosed : s.server.closed with
      | true => exact absurd (.inl ⟨hc.pc, hclosed, hstored.1⟩) hend
      | false => exact exists_stepOf .close (by simp [act, hc.pc, hclosed])
  | lost =>
      obtain ⟨⟨hc, -⟩ | ⟨-, hv⟩, -⟩ := h
      · exact absurd (.inr (.inl hc.pc)) hend
      · exact absurd (.inr (.inr hv.pc)) hend

/-- **The transfer comes to an end.**  Whatever the parties and the adapters do, and however
often `read` is short, the transfer is complete in the end or a party has ended; and a party
ends only after a call of the system has failed. -/
theorem comes_to_an_end (hname : job.fileName.length < maxFileName) (m : Memory) :
    Inevitably (Step job) (fun s => Complete job s ∨ Died s) (State.init m) ∧
      ∀ es t, Run (Step job) (State.init m) es t → .failed ∉ es → ¬ Died t := by
  constructor
  · refine Inevitably.of_rank (I := fun n s => ∃ p : Place, p.At job s ∧ rank job s p = n) ?_ ?_
      ⟨.start, at_init job m, rfl⟩
    · rintro n s ⟨p, hp, -⟩ hend
      exact progress hp hend
    · rintro n s e t ⟨p, hp, rfl⟩ - hs
      obtain ⟨q, hq, hlt, -⟩ := advances hp hs hname
      exact ⟨rank job t q, hlt, q, hq, rfl⟩
  · intro es t hrun hok
    obtain ⟨p, hp, hlost⟩ := holds_of_run hname hrun
    exact not_died_of_at hp fun h => hok (hlost h)

theorem comes_to_an_end_sample :
    Inevitably (Step sampleJob) (fun s => Complete sampleJob s ∨ Died s) (State.init sampleMemory) :=
  (comes_to_an_end (by decide) sampleMemory).1

end MyTests.Rdma
