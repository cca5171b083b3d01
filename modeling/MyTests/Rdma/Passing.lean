/-
MyTests/Rdma/Passing.lean

Where the baton goes.  One lemma for each place; together they say that every
step of the transfer takes the baton from its place to another one, nearer to
the end, and does to the file of the server what the transfer is for.

The end of a name that is longer than 255 bytes would be stored behind the
array, so the lemmas about the name ask for a shorter one.
-/
import MyTests.Rdma.Baton

namespace MyTests.Rdma

open Lib

variable {job : Job} {s t : State} {e : List Event} {p q : Place}

/-! ### Who can move -/

/-- The server has the baton: it moves, or the client posts its receive. -/
theorem Move.of_waits {pc : ServerPc} {n : ℕ} {l : List ℕ} (hs : Move job s e t)
    (hc : s.client.Waits []) (hv : s.server.At pc n 0 l) :
    (e = [] ∧ s.client.pc = .postReceive ∧ t.client.Waits [] ∧
      t = { s with client := { s.client with receives := 1, pc := .poll } }) ∨
    ∃ r v, s.server.step r = some (e, v) ∧ t = { s with server := v } := by
  cases hs with
  | establish hest => exact absurd hv.established (by simp [hest])
  | client hstep =>
      obtain ⟨rfl, hpc, -, rfl, hw⟩ := hc.step hstep
      exact .inl ⟨rfl, hpc, hw, rfl⟩
  | server hstep => exact .inr ⟨_, _, hstep, rfl⟩
  | write hsends => exact absurd (hc.sends.symm.trans hsends) (by simp)
  | badKey hsends => exact absurd (hc.sends.symm.trans hsends) (by simp)
  | message _ hpos => exact absurd hv.sends hpos.ne'
  | close hpc => exact absurd hpc hc.pc_ne.1
  | flushClient hpc => exact absurd hpc hc.pc_ne.1
  | flushServer hpc => exact absurd hpc hc.pc_ne.1

/-- The client has the baton, and moves. -/
theorem Move.of_client {pc : ClientPc} {n m k : ℕ} (hs : Move job s e t)
    (hc : s.client.At pc n [] k) (hv : s.server.At .poll m 0 []) (hne : pc ≠ .disconnected) :
    ∃ r c, s.client.step job r = some (e, c) ∧ t = { s with client := c } := by
  have hpc : s.client.pc ≠ .disconnected := hc.pc ▸ hne
  cases hs with
  | establish hest => exact absurd hv.established (by simp [hest])
  | client hstep => exact ⟨_, _, hstep, rfl⟩
  | server hstep => exact absurd hstep (by simp [hv.step_poll])
  | write hsends => exact absurd (hc.sends.symm.trans hsends) (by simp)
  | badKey hsends => exact absurd (hc.sends.symm.trans hsends) (by simp)
  | message _ hpos => exact absurd hv.sends hpos.ne'
  | close h => exact absurd h hpc
  | flushClient h => exact absurd h hpc
  | flushServer h => exact absurd h hpc

/-! ### Nearer to the end -/

/-- The rank falls with the distance, whoever has still to post a receive. -/
theorem rank_lt (hlt : distance job t q < distance job s p) : rank job t q < rank job s p := by
  unfold rank
  split <;> split <;> omega

/-- A step that brings the baton nearer to the end. -/
theorem Advances.of_distance (hne : q ≠ .lost) (hq : q.At job t)
    (hlt : distance job t q < distance job s p)
    (hrun : Run (Delivery job) s.server.file e t.server.file) : Advances job s p e t :=
  ⟨q, hq, rank_lt hlt, fun h => absurd h hne, hrun⟩

/-- A step after which one of the two is lost, with the event that says so. -/
theorem Advances.of_failed (hmem : .failed ∈ e) (hq : Place.lost.At job t)
    (hlt : distance job t .lost < distance job s p)
    (hrun : Run (Delivery job) s.server.file e t.server.file) : Advances job s p e t :=
  ⟨.lost, hq, rank_lt hlt, fun _ => .inr hmem, hrun⟩

/-- The client posts its receive, and the baton stays where it is. -/
theorem Advances.of_posted (hpc : s.client.pc = .postReceive)
    (ht : t = { s with client := { s.client with receives := 1, pc := .poll } })
    (hp : p.At job t) : Advances job s p [] t := by
  subst ht
  refine ⟨p, hp, ?_, .inl, .refl⟩
  have hsame : distance job { s with client := { s.client with receives := 1, pc := .poll } } p =
      distance job s p := by
    cases p <;> rfl
  simp [rank, hsame, hpc]

/-- The length of a chunk fits the immediate data of a write. -/
theorem uint32_of_le {n : ℕ} (h : n ≤ bufferSize) : uint32 n = n := by
  unfold bufferSize at h
  exact Nat.mod_eq_of_lt (by omega)

/-- What is copied to the front of a buffer is found there. -/
theorem take_splice_zero {α : Type*} (buf data : List α) :
    (splice buf 0 data).take data.length = data := by
  simp [splice]

/-- The string that the server finds in its array. -/
theorem cstring_fileName (job : Job) {buffer mem : List Byte} {len : ℕ}
    (htake : buffer.take len = job.fileName ++ [0]) (hlen : len = job.fileName.length + 1) :
    cstring ((splice mem 0 (buffer.take len)).set (len - 1) 0) = job.fileName := by
  have hset : (splice mem 0 (buffer.take len)).set (len - 1) 0 =
      job.fileName ++ 0 :: mem.drop len := by
    rw [htake, hlen]
    simp [splice]
  rw [hset]
  unfold cstring
  have hall : ∀ b ∈ job.fileName, decide (b ≠ 0) = true := by
    intro b hb
    exact decide_eq_true fun hzero => job.terminated (hzero ▸ hb)
  rw [List.takeWhile_append_of_pos hall]
  simp

/-- The array with a name in it does not begin with the zero that marks it free. -/
theorem headD_ne_zero {mem : List Byte} (h : cstring mem ≠ []) : mem.headD 0 ≠ 0 := by
  rintro hzero
  cases mem with
  | nil => exact h rfl
  | cons b mem =>
      obtain rfl : b = 0 := hzero
      exact h (by simp [cstring])

/-! ### The places of the client -/

/-- The client reads what the server has said: the place of the answer that it calls for. -/
theorem advances_arrived (h : Place.arrived.At job s) (hs : Move job s e t)
    (hname : job.fileName.length < maxFileName) : Advances job s .arrived e t := by
  obtain ⟨hc, hv, hsays⟩ := h
  obtain ⟨r, c, hstep, rfl⟩ := hs.of_client hc hv (by simp)
  simp only [Client.step, hc.pc, hc.completions, Client.onCompletion] at hstep
  unfold Says at hsays
  cases hid : s.client.msg.id with
  | mr =>
      simp only [hid] at hstep hsays
      obtain ⟨⟨hfile, hnone, hoff⟩, hmr⟩ := hsays
      obtain ⟨rfl, rfl⟩ := Prod.mk.inj (Option.some.inj hstep)
      have hlen : uint32 (job.fileName.length + 1) = job.fileName.length + 1 :=
        uint32_of_le (by unfold maxFileName at hname; unfold bufferSize; omega)
      refine .of_distance (q := .posting (job.fileName.length + 1)) (by simp)
        ⟨⟨?_, hc.receives, hc.sends, rfl⟩, ?_, .inl ⟨⟨hfile, hnone, hoff⟩, hmr, ?_, rfl⟩⟩ ?_ .refl
      · simp [Client.sendFileName, hlen]
      · simpa [armed, hid] using hv
      · have htake := take_splice_zero s.client.buffer (job.fileName ++ [0])
        rwa [List.length_append, List.length_singleton] at htake
      · simp [distance, hid, Client.sendFileName]
  | ready =>
      simp only [hid] at hstep hsays
      obtain ⟨rfl, rfl⟩ := Prod.mk.inj (Option.some.inj hstep)
      refine .of_distance (q := .reading) (by simp) ⟨⟨rfl, hc.receives, hc.sends, rfl⟩, ?_, hsays⟩ ?_ .refl
      · simpa [armed, hid] using hv
      · simp [distance, hid]
  | done =>
      simp only [hid] at hstep hsays
      obtain ⟨rfl, rfl⟩ := Prod.mk.inj (Option.some.inj hstep)
      refine .of_distance (q := .leaving) (by simp) ⟨⟨rfl, hc.receives, hc.sends, rfl⟩, ?_, hsays⟩ ?_ ?_
      · simpa [armed, hid] using hv
      · simp [distance, hid]
      · have hfile : s.server.file = some (job.fileName, job.file) := hsays.1
        simpa [hfile] using Run.single (Delivery.done : Delivery job _ _ _)
  | invalid => exact absurd hsays (by simp [hid])

/-- The client reads a chunk, of any length up to the buffer's, or fails to. -/
theorem advances_reading (h : Place.reading.At job s) (hs : Move job s e t) :
    Advances job s .reading e t := by
  obtain ⟨hc, hv, hstored⟩ := h
  obtain ⟨r, c, hstep, rfl⟩ := hs.of_client hc hv (by simp)
  simp only [Client.step, hc.pc, Client.sendNextChunk] at hstep
  cases r with
  | none =>
      obtain ⟨rfl, rfl⟩ := Prod.mk.inj (Option.some.inj hstep)
      refine .of_failed (by simp)
        ⟨.inl ⟨⟨rfl, hc.receives, hc.sends, hc.completions⟩, hv⟩, ?_⟩ ?_ (Run.single .failed)
      · rintro f hf
        obtain rfl := Option.some.inj (hf.symm.trans hstored.1)
        exact ⟨rfl, List.take_prefix _ _⟩
      · simp [distance]
  | some k =>
      simp only at hstep
      split at hstep
      · rename_i hk
        obtain ⟨rfl, rfl⟩ := Prod.mk.inj (Option.some.inj hstep)
        have hlen : uint32 k = k := uint32_of_le (by omega)
        have hdata : ((job.file.drop s.client.offset).take k).length = k := by
          rw [List.length_take]
          omega
        have htake := take_splice_zero s.client.buffer ((job.file.drop s.client.offset).take k)
        rw [hdata] at htake
        refine .of_distance (q := .posting k) (by simp) ⟨⟨?_, hc.receives, hc.sends, hc.completions⟩, hv,
          .inr ⟨_, ⟨hstored.1, hstored.2⟩, ?_, ?_, ?_⟩⟩ ?_ .refl
        · simp [hlen]
        · simp only [htake]
          rw [List.take_add]
        · simp only [htake, hdata]
        · -- a read of nothing is at the end of the file
          intro hzero
          exact List.take_of_length_le (List.drop_eq_nil_iff.mp (hk.2 hzero))
        · have hle : k ≤ job.file.length - s.client.offset := by
            rw [← List.length_drop]
            omega
          simp only [distance]
          split <;> omega
      · cases hstep

/-- The client posts the write of what it has read. -/
theorem advances_posting {len : ℕ} (h : (Place.posting len).At job s) (hs : Move job s e t) :
    Advances job s (.posting len) e t := by
  obtain ⟨hc, hv, hchunk⟩ := h
  obtain ⟨r, c, hstep, rfl⟩ := hs.of_client hc hv (by simp)
  simp only [Client.step, hc.pc, hc.sends] at hstep
  obtain ⟨rfl, rfl⟩ := Prod.mk.inj (Option.some.inj hstep)
  refine .of_distance (q := .sent len) (by simp)
    ⟨.inr ⟨rfl, hc.receives, ?_, hc.completions⟩, hv, hchunk⟩ ?_ .refl
  · simp [hchunk.peer]
  · simp only [distance]
    split <;> omega

/-- The client disconnects. -/
theorem advances_leaving (h : Place.leaving.At job s) (hs : Move job s e t) :
    Advances job s .leaving e t := by
  obtain ⟨hc, hv, hstored⟩ := h
  obtain ⟨r, c, hstep, rfl⟩ := hs.of_client hc hv (by simp)
  simp only [Client.step, hc.pc] at hstep
  obtain ⟨rfl, rfl⟩ := Prod.mk.inj (Option.some.inj hstep)
  refine .of_distance (q := .left) (by simp) ⟨⟨rfl, hc.receives, hc.sends, hc.completions⟩, hv, hstored⟩ ?_
    .refl
  simp only [distance]
  split <;> omega

/-! ### The places of the queues -/

/-- The connection is established, and the server posts its first message. -/
theorem advances_start (h : Place.start.At job s) (hs : Move job s e t) :
    Advances job s .start e t := by
  obtain ⟨hc, hfresh, hest, hpc, hrec, hsends, hcomp⟩ := h
  cases hs with
  | establish =>
      refine .of_distance (q := .queued) (by simp) ⟨hc, ⟨rfl, hpc, hrec, ?_, hcomp⟩, hfresh, rfl⟩ ?_ .refl
      · simp [Server.onConnection, hsends]
      · simp [distance, Server.onConnection]
  | client hstep =>
      obtain ⟨rfl, hposts, -, rfl, hw⟩ := hc.step hstep
      exact .of_posted hposts rfl ⟨hw, hfresh, hest, hpc, hrec, hsends, hcomp⟩
  | server hstep => simp [Server.step, hpc, hcomp] at hstep
  | write hs' => exact absurd (hc.sends.symm.trans hs') (by simp)
  | badKey hs' => exact absurd (hc.sends.symm.trans hs') (by simp)
  | message _ hpos => exact absurd hsends hpos.ne'
  | close h => exact absurd h hc.pc_ne.1
  | flushClient h => exact absurd h hc.pc_ne.1
  | flushServer h => exact absurd h hc.pc_ne.1

/-- The adapter carries the server's message out; what it holds is read now. -/
theorem advances_queued (h : Place.queued.At job s) (hs : Move job s e t) :
    Advances job s .queued e t := by
  obtain ⟨hc, hv, hsays⟩ := h
  cases hs with
  | establish hest => exact absurd hv.established (by simp [hest])
  | client hstep =>
      obtain ⟨rfl, hposts, -, rfl, hw⟩ := hc.step hstep
      exact .of_posted hposts rfl ⟨hw, hv, hsays⟩
  | server hstep =>
      simp only [Server.step, hv.pc, hv.completions] at hstep
      cases hstep
  | write hs' => exact absurd (hc.sends.symm.trans hs') (by simp)
  | badKey hs' => exact absurd (hc.sends.symm.trans hs') (by simp)
  | message _ _ hpos =>
      -- a message needs a receive, so the client has posted its own
      have hc' := hc.polls hpos
      refine .of_distance (q := .arrived) (by simp) ⟨⟨hc'.pc, ?_, hc'.sends, ?_⟩,
        ⟨hv.established, hv.pc, hv.receives, ?_, hv.completions⟩, hsays⟩ ?_ .refl
      · simp [hc'.receives]
      · simp [hc'.completions]
      · simp [hv.sends]
      · simp only [distance]
        split <;> simp_all
  | close h => exact absurd h hc.pc_ne.1
  | flushClient h => exact absurd h hc.pc_ne.1
  | flushServer h => exact absurd h hc.pc_ne.1

/-- The adapter carries the client's write out; what the buffer holds is read now. -/
theorem advances_sent {len : ℕ} (h : (Place.sent len).At job s) (hs : Move job s e t) :
    Advances job s (.sent len) e t := by
  obtain ⟨hc, hv, hchunk⟩ := h
  cases hs with
  | establish hest => exact absurd hv.established (by simp [hest])
  | client hstep =>
      obtain ⟨rfl, hposts, -, rfl, hw⟩ := hc.step hstep
      exact .of_posted hposts rfl ⟨hw, hv, hchunk⟩
  | server hstep => exact absurd hstep (by simp [hv.step_poll])
  | write hs' hpos hkey =>
      obtain ⟨rfl, rfl⟩ := List.cons.inj (hc.sends.symm.trans hs')
      -- the adapter reads the buffer now, and it still holds the chunk
      have hland (hlen : (s.client.buffer.take len).length = len) :
          (splice s.server.buffer 0 (s.client.buffer.take len)).take len =
            s.client.buffer.take len := by
        have h := take_splice_zero s.server.buffer (s.client.buffer.take len)
        rwa [hlen] at h
      refine .of_distance (q := .landed len) (by simp) ⟨?_, ⟨hv.established, hv.pc, ?_, hv.sends, ?_⟩, ?_⟩ ?_
        .refl
      · rcases hc with hc | hc
        · exact .inl ⟨hc.pc, hc.receives, rfl, hc.completions⟩
        · exact .inr ⟨hc.pc, hc.receives, rfl, hc.completions⟩
      · simp [hv.receives]
      · simp [hv.completions]
      · rcases hchunk with ⟨hfresh, hpeer, htake, hlen⟩ | ⟨d, hstored, htake, hlen, hend⟩
        · refine .inl ⟨hfresh, hpeer, ?_, hlen⟩
          rw [hland (by rw [htake, hlen, List.length_append, List.length_singleton])]
          exact htake
        · refine .inr ⟨d, hstored, ?_, ?_, hend⟩
          · rw [hland hlen]
            exact htake
          · rw [hland hlen]
            exact hlen
      · simp only [distance]
        split <;> omega
  | badKey hs' hkey =>
      obtain ⟨rfl, -⟩ := List.cons.inj (hc.sends.symm.trans hs')
      exact absurd rfl hkey
  | message _ hpos => exact absurd hv.sends hpos.ne'
  | close h => exact absurd h hc.pc_ne.1
  | flushClient h => exact absurd h hc.pc_ne.1
  | flushServer h => exact absurd h hc.pc_ne.1

/-! ### The places of the server -/

/-- The server polls the write: a name, a chunk, or the end of the file. -/
theorem advances_landed {len : ℕ} (h : (Place.landed len).At job s) (hs : Move job s e t)
    (hname : job.fileName.length < maxFileName) : Advances job s (.landed len) e t := by
  obtain ⟨hc, hv, hchunk⟩ := h
  rcases hs.of_waits hc hv with ⟨rfl, hposts, hw, rfl⟩ | ⟨r, v, hstep, rfl⟩
  · exact .of_posted hposts rfl ⟨hw, hv, hchunk⟩
  · simp only [Server.step, hv.pc, hv.completions, Server.onCompletion] at hstep
    obtain ⟨rfl, rfl⟩ := Prod.mk.inj (Option.some.inj hstep)
    -- before the first chunk the server takes what it gets for the name
    rcases hchunk with ⟨⟨hfile, hnone, hoff⟩, hpeer, htake, hlen⟩ | ⟨d, hstored, htake, hlen, hend⟩
    · have hpos : len ≠ 0 := by omega
      have hfit : len ≤ maxFileName := by omega
      simp only [hpos, if_false, hnone, ne_eq, not_true_eq_false, Server.takeFileName, hfit, if_true]
      refine .of_distance (q := .opening) (by simp) ⟨hc, ⟨hv.established, rfl, hv.receives, hv.sends, rfl⟩, hfile,
        hoff, hpeer, ?_⟩ ?_ .refl
      · exact cstring_fileName job htake hlen
      · simp [distance, hpos]
    · by_cases hzero : len = 0
      · -- the end of the file
        simp only [hzero, if_true]
        obtain rfl := hend hzero
        refine .of_distance (q := .answering) (by simp) ⟨hc, ⟨hv.established, rfl, ?_, hv.sends, rfl⟩, ?_,
          hstored⟩ ?_ .refl
        · simp [armed, hv.receives]
        · simp
        · simp [distance]
      · simp only [hzero, if_false, ne_eq, hstored.2.1, not_false_eq_true, if_true]
        refine .of_distance (q := .writing len) (by simp) ⟨hc, ⟨hv.established, rfl, hv.receives, hv.sends, rfl⟩,
          Nat.pos_of_ne_zero hzero, d, hstored, htake, hlen, hend⟩ ?_ .refl
        simp [distance, hzero]

/-- The server creates its file, or fails to. -/
theorem advances_opening (h : Place.opening.At job s) (hs : Move job s e t) :
    Advances job s .opening e t := by
  obtain ⟨hc, hv, hfile, hoff, hpeer, hname⟩ := h
  rcases hs.of_waits hc hv with ⟨rfl, hposts, hw, rfl⟩ | ⟨r, v, hstep, rfl⟩
  · exact .of_posted hposts rfl ⟨hw, hv, hfile, hoff, hpeer, hname⟩
  · simp only [Server.step, hv.pc] at hstep
    cases r with
    | none =>
        obtain ⟨rfl, rfl⟩ := Prod.mk.inj (Option.some.inj hstep)
        refine .of_failed (by simp)
          ⟨.inr ⟨hc, hv.established, rfl, hv.receives, hv.sends, hv.completions⟩, ?_⟩ ?_
          (Run.single .failed)
        · intro f hf
          exact absurd (hfile.symm.trans hf) (by simp)
        · simp [distance]
    | some fd =>
        obtain ⟨rfl, rfl⟩ := Prod.mk.inj (Option.some.inj hstep)
        refine .of_distance (q := .arming) (by simp) ⟨hc, ⟨hv.established, rfl, hv.receives, hv.sends,
          hv.completions⟩, ?_, ?_, hpeer⟩ ?_ ?_
        · simp [hoff, hname]
        · exact headD_ne_zero (hname ▸ job.nonempty)
        · simp [distance]
        · simpa [hfile, hname] using Run.single (Delivery.created : Delivery job _ _ _)

/-- The server writes a chunk; a short write and an error are the end of it. -/
theorem advances_writing {len : ℕ} (h : (Place.writing len).At job s) (hs : Move job s e t) :
    Advances job s (.writing len) e t := by
  obtain ⟨hc, hv, hpos, d, hstored, htake, hlen, hend⟩ := h
  rcases hs.of_waits hc hv with ⟨rfl, hposts, hw, rfl⟩ | ⟨r, v, hstep, rfl⟩
  · exact .of_posted hposts rfl ⟨hw, hv, hpos, d, hstored, htake, hlen, hend⟩
  · obtain ⟨hfile, hnamed, hpeer⟩ := hstored
    simp only [Server.step, hv.pc, Server.writeChunk] at hstep
    have hwhole : d ++ s.server.buffer.take len <+: job.file := htake ▸ List.take_prefix _ _
    cases r with
    | none =>
        obtain ⟨rfl, rfl⟩ := Prod.mk.inj (Option.some.inj hstep)
        refine .of_failed (by simp)
          ⟨.inr ⟨hc, hv.established, rfl, hv.receives, hv.sends, hv.completions⟩, ?_⟩ ?_
          (Run.single .failed)
        · rintro f hf
          obtain rfl := Option.some.inj (hf.symm.trans hfile)
          exact ⟨rfl, (List.prefix_append _ _).trans hwhole⟩
        · simp [distance]
    | some k =>
        simp only at hstep
        split at hstep
        · rename_i hk
          have hpart : d ++ s.server.buffer.take k <+: job.file := by
            refine (List.prefix_append_right_inj d |>.mpr ?_).trans hwhole
            exact List.take_prefix_take_left hk
          have hwrote := Run.single (Delivery.wrote hpart)
          split at hstep
          · rename_i hall
            obtain ⟨rfl, rfl⟩ := Prod.mk.inj (Option.some.inj hstep)
            refine .of_distance (q := .arming) (by simp) ⟨hc, ⟨hv.established, rfl, hv.receives, hv.sends,
              hv.completions⟩, ⟨?_, hnamed, hpeer⟩⟩ ?_ ?_
            · simp [hfile, hall, htake]
            · simp [distance]
            · simpa [hfile] using hwrote
          · -- a short write: the file has grown by it, and the server is lost
            obtain ⟨rfl, rfl⟩ := Prod.mk.inj (Option.some.inj hstep)
            refine .of_failed (by simp)
              ⟨.inr ⟨hc, hv.established, rfl, hv.receives, hv.sends, hv.completions⟩, ?_⟩ ?_ ?_
            · rintro f hf
              obtain rfl : (job.fileName, d ++ s.server.buffer.take k) = f := by
                simpa [hfile] using hf
              exact ⟨rfl, hpart⟩
            · simp [distance]
            · have hfailed := hwrote.tail (Delivery.failed : Delivery job _ _ _)
              simpa [hfile] using hfailed
        · cases hstep

/-- The server posts its receive, before it answers. -/
theorem advances_arming (h : Place.arming.At job s) (hs : Move job s e t) :
    Advances job s .arming e t := by
  obtain ⟨hc, hv, hstored⟩ := h
  rcases hs.of_waits hc hv with ⟨rfl, hposts, hw, rfl⟩ | ⟨r, v, hstep, rfl⟩
  · exact .of_posted hposts rfl ⟨hw, hv, hstored⟩
  · simp only [Server.step, hv.pc] at hstep
    obtain ⟨rfl, rfl⟩ := Prod.mk.inj (Option.some.inj hstep)
    refine .of_distance (q := .answering) (by simp) ⟨hc, ⟨hv.established, rfl, ?_, hv.sends,
      hv.completions⟩, ?_, hstored⟩ ?_ .refl
    · simp [armed, hv.receives]
    · simp
    · simp [distance]

/-- The server posts its answer. -/
theorem advances_answering (h : Place.answering.At job s) (hs : Move job s e t) :
    Advances job s .answering e t := by
  obtain ⟨hc, hv, hne, hsays⟩ := h
  rcases hs.of_waits hc hv with ⟨rfl, hposts, hw, rfl⟩ | ⟨r, v, hstep, rfl⟩
  · exact .of_posted hposts rfl ⟨hw, hv, hne, hsays⟩
  · simp only [Server.step, hv.pc] at hstep
    obtain ⟨rfl, rfl⟩ := Prod.mk.inj (Option.some.inj hstep)
    refine .of_distance (q := .queued) (by simp) ⟨hc, ⟨hv.established, rfl, hv.receives, ?_, hv.completions⟩,
      hsays⟩ ?_ .refl
    · simp [hv.sends]
    · simp only [distance]
      split <;> simp_all

/-! ### The end -/

/-- What is left of the two does not get far. -/
theorem advances_lost (h : Place.lost.At job s) (hs : Move job s e t) :
    Advances job s .lost e t := by
  obtain ⟨⟨hc, hv⟩ | ⟨hc, hv⟩, hfile⟩ := h
  · obtain ⟨r, c, hstep, -⟩ := hs.of_client hc hv (by simp)
    simp [Client.step, hc.pc] at hstep
  · rcases hs.of_waits hc hv with ⟨rfl, hposts, hw, rfl⟩ | ⟨r, v, hstep, -⟩
    · exact .of_posted hposts rfl ⟨.inr ⟨hw, hv⟩, hfile⟩
    · simp [Server.step, hv.pc] at hstep

/-- The server closes its side, and nothing else is left to do. -/
theorem advances_left (h : Place.left.At job s) (hs : Move job s e t) :
    Advances job s .left e t := by
  obtain ⟨hc, hv, hstored⟩ := h
  cases hs with
  | establish hest => exact absurd hv.established (by simp [hest])
  | client hstep => simp [Client.step, hc.pc] at hstep
  | server hstep => exact absurd hstep (by simp [hv.step_poll])
  | write hs' => exact absurd (hc.sends.symm.trans hs') (by simp)
  | badKey hs' => exact absurd (hc.sends.symm.trans hs') (by simp)
  | message _ hpos => exact absurd hv.sends hpos.ne'
  | close _ hopen =>
      refine .of_distance (q := .left) (by simp)
        ⟨hc, ⟨hv.established, hv.pc, hv.receives, hv.sends, hv.completions⟩, hstored⟩ ?_ .refl
      simp [distance, hopen]
  | flushClient _ hpos => exact absurd hc.receives hpos.ne'
  | flushServer _ hpos => exact absurd hv.receives hpos.ne'

end MyTests.Rdma
