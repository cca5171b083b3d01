/-
MyTests/QueuedSpin/McsProgress.lean

Nobody waits for ever for an MCS lock, or in `mcs_spin_unlock`.

The rank of a thread in the line counts the threads in front of it, and the
accesses that the first one is away from giving the lock up.  Some thread in
the line, the helper, brings it down by its next access: the first one, or the
second one while the first waits for `next` to be written (`Helps`).  The
other threads leave the rank and the helper as they are.
-/
import MyTests.QueuedSpin.McsLock
import MyTests.Lib.Fairness

namespace MyTests.QueuedSpin.Mcs

open Lib FifoLock

variable {T : Type} {s s' : State T} {a a' : FifoLock.State T} {t u v x : T} {q r : List T} {k : ℕ}
  {σ : ℕ → State T}

/-! ### The helper -/

/-- `t` waits for a store to its `next`. -/
def State.Stalled (s : State T) (t : T) : Prop := s.pc t = .waitNext ∧ (s.node t).next = none

/-- The thread that brings the rank down. -/
def Helps (s : State T) (q : List T) (u : T) : Prop :=
  (q.head? = some u ∧ ¬ s.Stalled u) ∨ ∃ x, q.head? = some x ∧ s.Stalled x ∧ Adj q x u

theorem Inv.exists_helper (h : Inv s a) (ht : t ∈ a.queue) : ∃ u, Helps s a.queue u := by
  obtain ⟨x, r, hq⟩ := List.exists_cons_of_ne_nil (List.ne_nil_of_mem ht)
  by_cases hx : s.Stalled x
  · have hlast := h.waitNext x hx.1
    rw [hq] at hlast ⊢
    cases r with
    | nil => exact absurd rfl hlast
    | cons y r => exact ⟨y, .inr ⟨x, rfl, hx, adj_cons.mpr (.inl ⟨rfl, rfl⟩)⟩⟩
  · exact ⟨x, .inl ⟨by rw [hq]; rfl, hx⟩⟩

theorem Helps.mem (h : Helps s q u) : u ∈ q := by
  rcases h with ⟨hhead, -⟩ | ⟨x, -, -, hadj⟩
  · exact List.mem_of_mem_head? hhead
  · exact hadj.mem_right

/-- A thread with the lock is the first in the line. -/
theorem Inv.head_of_holding (h : Inv s a) (hx : (s.pc x).holding = true) :
    a.queue.head? = some x := by
  obtain ⟨q, rfl, -⟩ := h.holding hx
  rfl

/-- The first in the line is past its `link`. -/
theorem Inv.head_ne_link (h : Inv s a) (hhead : a.queue.head? = some x) : s.pc x ≠ .link u :=
  fun hlink => (h.link x u hlink).head?_ne h.nodup hhead

/-- Nothing that matters for the rank happens to `x`. -/
def Same (s s' : State T) (x : T) : Prop :=
  s'.pc x = s.pc x ∧ (s.pc x = .waitNext → (s'.node x).next = (s.node x).next)

theorem Same.stalled (h : Same s s' x) : s'.Stalled x ↔ s.Stalled x := by
  unfold State.Stalled
  rw [h.1]
  exact and_congr_right fun hpc => by rw [h.2 hpc]

theorem Helps.congr (h : Helps s q u) (hsame : ∀ x, q.head? = some x → Same s s' x) :
    Helps s' q u := by
  rcases h with ⟨hhead, hgo⟩ | ⟨x, hhead, hstall, hadj⟩
  · exact .inl ⟨hhead, fun hs => hgo ((hsame u hhead).stalled.mp hs)⟩
  · exact .inr ⟨x, hhead, (hsame x hhead).stalled.mpr hstall, hadj⟩

/-- Who comes later does not help. -/
theorem Helps.concat (h : Helps s q u) (v : T) : Helps s (q ++ [v]) u := by
  have hhead : ∀ {x}, q.head? = some x → (q ++ [v]).head? = some x := by
    intro x hx
    rw [List.head?_append, hx]
    rfl
  rcases h with ⟨hu, hgo⟩ | ⟨x, hx, hstall, hadj⟩
  · exact .inl ⟨hhead hu, hgo⟩
  · exact .inr ⟨x, hhead hx, hstall, adj_concat.mpr (.inl hadj)⟩

/-- In `mcs_spin_lock`, behind the `xchg`. -/
def State.Waits (s : State T) (t : T) : Prop := s.pc t = .wait ∨ ∃ p, s.pc t = .link p

/-! ### The rank -/

/-- The accesses before `t`, the first in the line, gives the lock up. -/
def State.dist (s : State T) (t : T) : ℕ :=
  match s.pc t with
  | .wait => 6
  | .critical => 5
  | .readNext => 4
  | .cmpxchg => 3
  | .waitNext => if (s.node t).next = none then 2 else 1
  | _ => 0

theorem dist_le (s : State T) (t : T) : s.dist t ≤ 6 := by
  unfold State.dist
  split
  · exact le_rfl
  · omega
  · omega
  · omega
  · split <;> omega
  · omega

theorem Same.dist (h : Same s s' x) : s'.dist x = s.dist x := by
  unfold State.dist
  rw [h.1]
  split
  · rfl
  · rfl
  · rfl
  · rfl
  · rename_i hpc
    rw [h.2 hpc]
  · rfl

variable [DecidableEq T]

def State.rank (s : State T) (q : List T) (t : T) : ℕ := 7 * q.idxOf t + q.head?.elim 0 s.dist

theorem rank_congr (hsame : ∀ x, q.head? = some x → Same s s' x) : s'.rank q t = s.rank q t := by
  unfold State.rank
  cases hhead : q.head? with
  | none => rfl
  | some x => rw [Option.elim_some, Option.elim_some, (hsame x hhead).dist]

theorem rank_concat (ht : t ∈ q) : s.rank (q ++ [v]) t = s.rank q t := by
  obtain ⟨x, r, rfl⟩ := List.exists_cons_of_ne_nil (List.ne_nil_of_mem ht)
  unfold State.rank
  rw [List.idxOf_append_of_mem ht]
  rfl

/-! ### The steps of the others -/

variable {pc : Pc T} {node : Node T}

theorem same_goto (hx : x ≠ v) : Same s (s.goto v pc) x :=
  ⟨goto_pc_of_ne s pc hx, fun _ => rfl⟩

theorem same_write_goto {y : T} (hx : x ≠ v) (hy : s.pc x = .waitNext → x ≠ y) :
    Same s ((s.write y node).goto v pc) x :=
  ⟨goto_pc_of_ne _ pc hx, fun hw => congrArg Node.next (write_node_of_ne s node (hy hw))⟩

theorem State.Waits.goto (h : s.Waits t) (ht : t ≠ v) : (s.goto v pc).Waits t := by
  unfold State.Waits
  rwa [goto_pc_of_ne s pc ht]

omit [DecidableEq T] in
theorem State.Waits.queued (h : s.Waits t) : (s.pc t).queued = true := by
  rcases h with h | ⟨p, h⟩
  · rw [h]
    rfl
  · rw [h]
    rfl

omit [DecidableEq T] in
/-- A thread that waits has not just come. -/
theorem State.Waits.ne (h : s.Waits t) (hv : (s.pc v).queued = false) : t ≠ v := by
  rintro rfl
  rw [h.queued] at hv
  exact Bool.false_ne_true hv.symm

/-- A step of a thread that is not the helper. -/
theorem Inv.other (h : Inv s a) (hu : Helps s a.queue u) (hv : v ≠ u) :
    ∃ a', Inv (access v s).2 a' ∧ (a'.queue = a.queue ∨ a'.queue = a.queue ++ [v])
      ∧ (∀ x, a.queue.head? = some x → Same s (access v s).2 x)
      ∧ ∀ t, s.Waits t → (access v s).2.Waits t := by
  have hfirst : ¬ (a.queue.head? = some v ∧ ¬ s.Stalled v) := by
    rintro ⟨hhead, hgo⟩
    rcases hu with ⟨hhead', -⟩ | ⟨x, hx, hstall, -⟩
    · exact hv (Option.some.inj (hhead.symm.trans hhead'))
    · obtain rfl := Option.some.inj (hhead.symm.trans hx)
      exact hgo hstall
  have hstay : ∃ a', Inv s a' ∧ (a'.queue = a.queue ∨ a'.queue = a.queue ++ [v])
      ∧ (∀ x, a.queue.head? = some x → Same s s x) ∧ ∀ t, s.Waits t → s.Waits t :=
    ⟨a, h, .inl rfl, fun x _ => ⟨rfl, fun _ => rfl⟩, fun t ht => ht⟩
  -- a thread outside the line
  have hnew : (s.pc v).queued = false → ∀ x, a.queue.head? = some x → x ≠ v := by
    rintro hq x hx rfl
    rw [(h.mem x).mp (List.mem_of_mem_head? hx)] at hq
    exact Bool.false_ne_true hq.symm
  have hholding : (s.pc v).holding = true → s.pc v ≠ .waitNext → False := fun hh hne =>
    hfirst ⟨h.head_of_holding hh, fun hstall => hne hstall.1⟩
  cases hpc : s.pc v with
  | idle =>
      rw [show access v s = ([], s) by unfold access; rw [hpc]]
      exact hstay
  | initLocked =>
      have hq : (s.pc v).queued = false := by rw [hpc]; rfl
      rw [show access v s = ([], (s.write v { s.node v with locked := 0 }).goto v .initNext) by
        unfold access; rw [hpc]]
      refine ⟨a, h.outside hq rfl (fun _ => rfl) (by simp), .inl rfl, fun x hx => ?_, fun t ht => ?_⟩
      · exact same_write_goto (hnew hq x hx) fun _ => hnew hq x hx
      · exact State.Waits.goto (s := s.write v _) ht (ht.ne hq)
  | initNext =>
      have hq : (s.pc v).queued = false := by rw [hpc]; rfl
      rw [show access v s = ([], (s.write v { s.node v with next := none }).goto v .xchg) by
        unfold access; rw [hpc]]
      refine ⟨a, h.outside hq rfl (fun _ => h.fresh v (.inl hpc)) fun _ => rfl, .inl rfl,
        fun x hx => ?_, fun t ht => ?_⟩
      · exact same_write_goto (hnew hq x hx) fun _ => hnew hq x hx
      · exact State.Waits.goto (s := s.write v _) ht (ht.ne hq)
  | xchg =>
      have hq : (s.pc v).queued = false := by rw [hpc]; rfl
      cases hlock : s.lock with
      | none =>
          obtain ⟨rfl, -⟩ := h.take hpc hlock
          exact absurd hu.mem List.not_mem_nil
      | some prev =>
          rw [show access v s = ([.join v], { s with lock := some v }.goto v (.link prev)) by
            unfold access; rw [hpc, hlock]]
          refine ⟨_, h.join hpc hlock, .inr (List.append_assoc _ _ _).symm, fun x hx => ?_,
            fun t ht => ?_⟩
          · exact same_goto (s := { s with lock := some v }) (hnew hq x hx)
          · exact State.Waits.goto (s := { s with lock := some v }) ht (ht.ne hq)
  | link p =>
      rw [show access v s = ([], (s.write p { s.node p with next := some v }).goto v .wait) by
        unfold access; rw [hpc]]
      refine ⟨a, h.linkPrev hpc, .inl rfl, fun x hx => ?_, fun t ht => ?_⟩
      · refine same_write_goto ?_ fun hw => ?_
        · rintro rfl
          exact h.head_ne_link hx hpc
        · -- the helper is the one behind `x`, and `v` is behind `p`
          rintro rfl
          have hadj := h.link v x hpc
          have hstall : s.Stalled x := ⟨hw, h.unlinked x v hadj hpc⟩
          rcases hu with ⟨hx', hgo⟩ | ⟨y, hy, -, hadj'⟩
          · obtain rfl := Option.some.inj (hx.symm.trans hx')
            exact hgo hstall
          · obtain rfl := Option.some.inj (hx.symm.trans hy)
            exact hv (hadj.right_unique h.nodup hadj')
      · by_cases htv : t = v
        · rw [htv]
          exact .inl (goto_pc_self _ _ _)
        · exact State.Waits.goto (s := s.write p _) ht htv
  | wait =>
      by_cases hl : (s.node v).locked = 0
      · rw [show access v s = ([], s) by unfold access; rw [hpc]; exact if_pos hl]
        exact hstay
      · obtain ⟨q, rfl, -⟩ := h.acquire hpc hl
        refine absurd ⟨rfl, fun hstall => ?_⟩ hfirst
        rw [hstall.1] at hpc
        exact absurd hpc (by simp)
  | waitNext =>
      have hstall : s.Stalled v := by
        by_contra hgo
        exact hfirst ⟨h.head_of_holding (by rw [hpc]; rfl), hgo⟩
      rw [show access v s = ([], s) by unfold access; rw [hpc]; simp only [hstall.2]]
      exact hstay
  | critical => exact (hholding (by rw [hpc]; rfl) (by simp [hpc])).elim
  | readNext => exact (hholding (by rw [hpc]; rfl) (by simp [hpc])).elim
  | cmpxchg => exact (hholding (by rw [hpc]; rfl) (by simp [hpc])).elim
  | pass n => exact (hholding (by rw [hpc]; rfl) (by simp [hpc])).elim

/-! ### The steps of the helper -/

theorem rank_lt (hhead : q.head? = some x) (hd : s'.dist x < s.dist x) :
    s'.rank q t < s.rank q t := by
  unfold State.rank
  rw [hhead]
  exact Nat.add_lt_add_left hd _

/-- What a step of the helper does for `t`. -/
def Nearer (s s' : State T) (a : FifoLock.State T) (t : T) : Prop :=
  (s.pc t).holding = true ∧ s'.pc t = .idle
    ∨ ∃ a', Inv s' a' ∧ t ∈ a'.queue ∧ s'.rank a'.queue t < s.rank a.queue t
      ∧ (s.Waits t → s'.Waits t ∨ s'.pc t = .critical)

/-- The first in the line moves on in its code. -/
theorem Inv.nearer_goto (h : Inv (s.goto u pc) a') (hqueue : a'.queue = a.queue)
    (ht : t ∈ a.queue) (hhead : a.queue.head? = some u) (hd : (s.goto u pc).dist u < s.dist u)
    (hu : s.Waits u → pc = .critical) : Nearer s (s.goto u pc) a t := by
  refine .inr ⟨a', h, by rwa [hqueue], ?_, fun hw => ?_⟩
  · rw [hqueue]
    exact rank_lt hhead hd
  · by_cases htu : t = u
    · subst htu
      exact .inr ((goto_pc_self s t pc).trans (hu hw))
    · exact .inl (hw.goto htu)

omit [DecidableEq T] in
theorem State.Waits.not_holding (h : s.Waits t) : (s.pc t).holding = false := by
  rcases h with h | ⟨p, h⟩
  · rw [h]
    rfl
  · rw [h]
    rfl

omit [DecidableEq T] in
/-- The first in the line has the lock or has been passed it. -/
theorem Inv.locked_of_head (h : Inv s a) (hhead : a.queue.head? = some u)
    (hnot : (s.pc u).holding = false) : (s.node u).locked ≠ 0 := by
  cases a with
  | mk holder waiting =>
      cases holder with
      | some y =>
          obtain rfl : y = u := Option.some.inj hhead
          rw [(h.holder y).mpr rfl] at hnot
          exact absurd hnot.symm Bool.false_ne_true
      | none => exact (h.locked u (List.mem_of_mem_head? hhead)).mpr ⟨rfl, hhead⟩

/-- The first in the line takes its next access. -/
theorem Inv.nearer_first (h : Inv s a) (ht : t ∈ a.queue) (hhead : a.queue.head? = some u)
    (hgo : ¬ s.Stalled u) : Nearer s (access u s).2 a t := by
  have hq : (s.pc u).queued = true := (h.mem u).mp (List.mem_of_mem_head? hhead)
  have hnot : ∀ {pc : Pc T}, (s.pc u).holding = true → s.Waits u → pc = .critical := by
    intro pc hh hw
    rw [hw.not_holding] at hh
    exact absurd hh Bool.false_ne_true
  cases hpc : s.pc u with
  | wait =>
      -- the first of the line has been let in, so its wait ends
      have hl : (s.node u).locked ≠ 0 := h.locked_of_head hhead (by rw [hpc]; rfl)
      rw [show access u s = ([.acquire u], s.goto u .critical) by
        unfold access; rw [hpc]; exact if_neg hl]
      obtain ⟨q, rfl, hnew⟩ := h.acquire hpc hl
      refine hnew.nearer_goto rfl ht hhead ?_ fun _ => rfl
      simp [State.dist, hpc]
  | critical =>
      have hh : (s.pc u).holding = true := by rw [hpc]; rfl
      rw [show access u s = ([], s.goto u .readNext) by unfold access; rw [hpc]]
      refine (h.keep hh rfl (by simp) (by simp)).nearer_goto rfl ht hhead ?_ (hnot hh)
      simp [State.dist, hpc]
  | readNext =>
      have hh : (s.pc u).holding = true := by rw [hpc]; rfl
      cases hnext : (s.node u).next with
      | none =>
          rw [show access u s = ([], s.goto u .cmpxchg) by unfold access; rw [hpc, hnext]]
          refine (h.keep hh rfl (by simp) (by simp)).nearer_goto rfl ht hhead ?_ (hnot hh)
          simp [State.dist, hpc]
      | some n =>
          rw [show access u s = ([], s.goto u (.pass n)) by unfold access; rw [hpc, hnext]]
          refine (h.keep hh rfl (by simp) fun m hm => ?_).nearer_goto rfl ht hhead ?_ (hnot hh)
          · rw [hnext, Pc.pass.inj hm]
          · simp [State.dist, hpc]
  | cmpxchg =>
      have hh : (s.pc u).holding = true := by rw [hpc]; rfl
      by_cases hlock : s.lock = some u
      · rw [show access u s = ([.release u], { s with lock := none }.goto u .idle) by
          unfold access; rw [hpc]; exact if_pos hlock]
        obtain ⟨rfl, -⟩ := h.leave hpc hlock
        obtain rfl : t = u := List.mem_singleton.mp ht
        exact .inl ⟨hh, goto_pc_self _ _ _⟩
      · rw [show access u s = ([], s.goto u .waitNext) by
          unfold access; rw [hpc]; exact if_neg hlock]
        -- the claim fails because somebody has joined behind `u`
        have hlast : a.queue.getLast? ≠ some u := fun hlast => hlock (h.lock.trans hlast)
        refine (h.keep hh rfl (fun _ => hlast) (by simp)).nearer_goto rfl ht hhead ?_ (hnot hh)
        by_cases hnext : (s.node u).next = none
        · simp [State.dist, hpc, hnext]
        · simp [State.dist, hpc, hnext]
  | waitNext =>
      have hh : (s.pc u).holding = true := by rw [hpc]; rfl
      -- `u` is not stalled, so its successor has linked itself
      obtain ⟨n, hnext⟩ := Option.ne_none_iff_exists'.mp fun hnone => hgo ⟨hpc, hnone⟩
      rw [show access u s = ([], s.goto u (.pass n)) by unfold access; rw [hpc, hnext]]
      refine (h.keep hh rfl (by simp) fun m hm => ?_).nearer_goto rfl ht hhead ?_ (hnot hh)
      · rw [hnext, Pc.pass.inj hm]
      · simp [State.dist, hpc, hnext]
  | pass n =>
      rw [show access u s
          = ([.release u], (s.write n { s.node n with locked := 1 }).goto u .idle) by
        unfold access; rw [hpc]]
      obtain ⟨q, rfl, hnew⟩ := h.passOn hpc
      by_cases htu : t = u
      · rw [htu]
        exact .inl ⟨by rw [hpc]; rfl, goto_pc_self _ _ _⟩
      · -- one thread fewer in front, which is worth more than all accesses of the next one
        refine .inr ⟨_, hnew, (List.mem_cons.mp ht).resolve_left htu, ?_, fun hw => .inl ?_⟩
        · have hidx : (u :: n :: q).idxOf t = (n :: q).idxOf t + 1 :=
            List.idxOf_cons_ne _ (Ne.symm htu)
          refine lt_of_le_of_lt (Nat.add_le_add_left (dist_le _ n) _) ?_
          show 7 * (n :: q).idxOf t + 6 < 7 * (u :: n :: q).idxOf t + s.dist u
          rw [hidx]
          omega
        · exact State.Waits.goto (s := s.write n _) hw htu
  -- the first of the line has nobody to link itself to
  | link p => exact absurd hpc (h.head_ne_link hhead)
  | idle | initLocked | initNext | xchg =>
      rw [hpc] at hq
      exact absurd hq Bool.false_ne_true

/-- The helper brings the rank of every thread in the line down, until that leaves. -/
theorem Inv.nearer (h : Inv s a) (ht : t ∈ a.queue) (hu : Helps s a.queue u) :
    Nearer s (access u s).2 a t := by
  rcases hu with ⟨hhead, hgo⟩ | ⟨x, hhead, hstall, hadj⟩
  · exact h.nearer_first ht hhead hgo
  · have hpc : s.pc u = .link x := by
      by_contra hne
      have hlinked := h.linked x u hadj hne
      rw [hstall.2] at hlinked
      exact absurd hlinked.symm (Option.some_ne_none u)
    rw [show access u s = ([], (s.write x { s.node x with next := some u }).goto u .wait) by
      unfold access; rw [hpc]]
    refine .inr ⟨a, h.linkPrev hpc, ht, rank_lt hhead ?_, fun hw => ?_⟩
    · have hxu : x ≠ u := hadj.ne h.nodup
      simp only [State.dist, goto_pc_of_ne _ _ hxu, write_pc, goto_node, write_node_self, hstall.1]
      rw [if_neg (Option.some_ne_none u), if_pos hstall.2]
      exact Nat.one_lt_two
    · by_cases htu : t = u
      · rw [htu]
        exact .inl (.inl (goto_pc_self _ _ _))
      · exact .inl (State.Waits.goto (s := s.write x _) hw htu)

/-! ### Fair runs -/

theorem Inv.call (h : Inv s a) (hv : s.pc v = .idle) : Inv (s.goto v .initLocked) a :=
  h.goto_outside (by rw [hv]; rfl) rfl (by simp)

/-- At time `m` thread `t` is in neither function or takes its next step. -/
def Acts (σ : ℕ → State T) (t : T) (m : ℕ) : Prop :=
  (σ m).pc t ≠ .idle → σ (m + 1) = (access t (σ m)).2

/-- An infinite run in which every thread that is in one of the functions, or has the lock, takes
its next step again and again. -/
structure FairRun (σ : ℕ → State T) : Prop where
  step : ∀ n, ∃ e, Step (σ n) e (σ (n + 1))
  fair : ∀ t n, ∃ m ≥ n, Acts σ t m

/-- `t` is in the line at rank `k`, and `u` helps. -/
def InLine (t u : T) (k : ℕ) (s : State T) : Prop :=
  ∃ a, Inv s a ∧ t ∈ a.queue ∧ s.rank a.queue t = k ∧ Helps s a.queue u

/-- What a step does for a thread in the line. -/
theorem InLine.step {e : List (Event T)} (h : InLine t u k s) (hs : Step s e s') :
    (InLine t u k s' ∧ (s.Waits t → s'.Waits t)) ∨ ∃ a, Nearer s s' a t ∧ s.rank a.queue t = k := by
  obtain ⟨a, hinv, ht, hk, hu⟩ := h
  obtain ⟨act, hact⟩ := hs
  cases act with
  | call v =>
      dsimp only [act] at hact
      split at hact
      · rename_i hv
        obtain ⟨-, rfl⟩ := Prod.mk.inj (Option.some.inj hact)
        have hout : (s.pc v).queued = false := by rw [hv]; rfl
        -- a caller has still its node to prepare, so it is nobody in the line
        have hsame : ∀ x, a.queue.head? = some x → Same s (s.goto v .initLocked) x := by
          refine fun x hx => same_goto ?_
          rintro rfl
          rw [(hinv.mem x).mp (List.mem_of_mem_head? hx)] at hout
          exact Bool.false_ne_true hout.symm
        refine .inl ⟨⟨a, hinv.call hv, ht, (rank_congr hsame).trans hk, hu.congr hsame⟩, fun hw => ?_⟩
        exact hw.goto (hw.ne hout)
      · exact absurd hact (by simp)
  | go v =>
      dsimp only [act] at hact
      split at hact
      · exact absurd hact (by simp)
      · obtain ⟨-, rfl⟩ := Prod.mk.inj (Option.some.inj hact)
        -- the helper's access brings everybody on, another's may only lengthen the line
        by_cases hvu : v = u
        · rw [hvu]
          exact .inr ⟨a, hinv.nearer ht hu, hk⟩
        · obtain ⟨a', hinv', hqueue, hsame, hw⟩ := hinv.other hu hvu
          have hrank := (rank_congr (t := t) hsame).trans hk
          have hu' := hu.congr hsame
          refine .inl ⟨⟨a', hinv', ?_⟩, hw t⟩
          rcases hqueue with hqueue | hqueue
          · rw [hqueue]
            exact ⟨ht, hrank, hu'⟩
          · rw [hqueue]
            exact ⟨List.mem_append_left _ ht, (rank_concat ht).trans hrank, hu'.concat v⟩

/-- The helper is not idle. -/
theorem InLine.acts {m : ℕ} (h : InLine t u k (σ m)) (hact : Acts σ u m) :
    ∃ a, Nearer (σ m) (σ (m + 1)) a t ∧ (σ m).rank a.queue t = k := by
  obtain ⟨a, hinv, ht, hk, hu⟩ := h
  have hpc : (σ m).pc u ≠ .idle := by
    intro hpc
    have hq := (hinv.mem u).mp hu.mem
    rw [hpc] at hq
    exact Bool.false_ne_true hq
  rw [hact hpc]
  exact ⟨a, hinv.nearer ht hu, hk⟩

/-- The rank comes down until `G` holds. -/
theorem FairRun.leadsTo_of_nearer (hσ : FairRun σ) {C G : State T → Prop}
    (hstay : ∀ s s', C s → (s.Waits t → s'.Waits t) → C s')
    (hnear : ∀ s s' a, C s → Nearer s s' a t →
      G s' ∨ ∃ j < s.rank a.queue t, (∃ u, InLine t u j s') ∧ C s') (k : ℕ) :
    LeadsTo σ (fun s => (∃ u, InLine t u k s) ∧ C s) G := by
  refine leadsTo_of_variant (V := fun k s => (∃ u, InLine t u k s) ∧ C s) (fun k => ?_) k
  rintro n ⟨⟨u, hu⟩, hC⟩
  refine leadsTo_of_helper (P := fun s => InLine t u k s ∧ C s)
    (Q := fun s => G s ∨ ∃ j < k, (∃ u, InLine t u j s) ∧ C s) ?_ ?_ (hσ.fair u) n ⟨hu, hC⟩
  · rintro m ⟨hline, hC⟩
    obtain ⟨e, hs⟩ := hσ.step m
    rcases hline.step hs with ⟨hline', hw⟩ | ⟨a, hnearer, rfl⟩
    · exact .inl ⟨hline', hstay _ _ hC hw⟩
    · exact .inr (hnear _ _ a hC hnearer)
  · rintro m ⟨hline, hC⟩ hact
    obtain ⟨a, hnearer, rfl⟩ := hline.acts hact
    exact hnear _ _ a hC hnearer

theorem Inv.inLine (h : Inv s a) (ht : t ∈ a.queue) : ∃ u, InLine t u (s.rank a.queue t) s := by
  obtain ⟨u, hu⟩ := h.exists_helper ht
  exact ⟨u, a, h, ht, rfl, hu⟩

/-- A thread in the line leaves it. -/
theorem FairRun.leaves (hσ : FairRun σ) (t : T) (k : ℕ) :
    LeadsTo σ (fun s => (∃ u, InLine t u k s) ∧ True) (fun s => s.pc t = .idle) := by
  refine hσ.leadsTo_of_nearer (fun _ _ _ _ => trivial) (fun s s' a _ hnear => ?_) k
  rcases hnear with ⟨-, hidle⟩ | ⟨a', hinv, ht, hlt, -⟩
  · exact .inl hidle
  · exact .inr ⟨_, hlt, hinv.inLine ht, trivial⟩

/-- A thread that waits gets the lock. -/
theorem FairRun.gets (hσ : FairRun σ) (t : T) (k : ℕ) :
    LeadsTo σ (fun s => (∃ u, InLine t u k s) ∧ s.Waits t) (fun s => s.pc t = .critical) := by
  refine hσ.leadsTo_of_nearer (fun _ _ hw hw' => hw' hw) (fun s s' a hw hnear => ?_) k
  rcases hnear with ⟨hhold, -⟩ | ⟨a', hinv, ht, hlt, hnext⟩
  · rw [hw.not_holding] at hhold
    exact absurd hhold Bool.false_ne_true
  · rcases hnext hw with hw' | hcritical
    · exact .inr ⟨_, hlt, hinv.inLine ht, hw'⟩
    · exact .inl hcritical

/-! ### The way to the line -/

/-- The accesses before the `xchg`. -/
def Pc.away : Pc T → ℕ
  | initLocked => 3
  | initNext => 2
  | xchg => 1
  | _ => 0

omit [DecidableEq T] in
theorem Pc.ne_idle_of_away {pc : Pc T} (h : 0 < pc.away) : pc ≠ .idle := by
  rintro rfl
  exact Nat.lt_irrefl 0 h

theorem access_pc_of_ne (s : State T) (ht : t ≠ v) : (access v s).2.pc t = s.pc t := by
  unfold access
  split
  · rfl
  · exact goto_pc_of_ne _ _ ht
  · exact goto_pc_of_ne _ _ ht
  · split <;> exact goto_pc_of_ne _ _ ht
  · exact goto_pc_of_ne _ _ ht
  · split
    · rfl
    · exact goto_pc_of_ne _ _ ht
  · exact goto_pc_of_ne _ _ ht
  · split <;> exact goto_pc_of_ne _ _ ht
  · split <;> exact goto_pc_of_ne _ _ ht
  · split
    · rfl
    · exact goto_pc_of_ne _ _ ht
  · exact goto_pc_of_ne _ _ ht

/-- A thread in one of the functions moves by its own accesses. -/
theorem Step.pc_or {e : List (Event T)} (hs : Mcs.Step s e s') (ht : s.pc t ≠ .idle) :
    s'.pc t = s.pc t ∨ s' = (access t s).2 := by
  obtain ⟨act, hact⟩ := hs
  cases act with
  | call v =>
      dsimp only [act] at hact
      split at hact
      · rename_i hv
        obtain ⟨-, rfl⟩ := Prod.mk.inj (Option.some.inj hact)
        refine .inl (goto_pc_of_ne _ _ ?_)
        rintro rfl
        exact ht hv
      · exact absurd hact (by simp)
  | go v =>
      dsimp only [act] at hact
      split at hact
      · exact absurd hact (by simp)
      · obtain ⟨-, rfl⟩ := Prod.mk.inj (Option.some.inj hact)
        by_cases htv : t = v
        · rw [htv]
          exact .inr rfl
        · exact .inl (access_pc_of_ne s htv)

/-- The next access on the way to the line. -/
theorem access_away (h : 0 < (s.pc t).away) : ((access t s).2.Waits t ∨ (access t s).2.pc t = .critical)
    ∨ ∃ j < (s.pc t).away, ((access t s).2.pc t).away = j ∧ 0 < j := by
  cases hpc : s.pc t with
  | initLocked =>
      rw [show access t s = ([], (s.write t { s.node t with locked := 0 }).goto t .initNext) by
        unfold access; rw [hpc]]
      refine .inr ⟨2, Nat.lt_succ_self 2, ?_, Nat.two_pos⟩
      rw [goto_pc_self]
      rfl
  | initNext =>
      rw [show access t s = ([], (s.write t { s.node t with next := none }).goto t .xchg) by
        unfold access; rw [hpc]]
      refine .inr ⟨1, Nat.lt_succ_self 1, ?_, Nat.one_pos⟩
      rw [goto_pc_self]
      rfl
  | xchg =>
      -- a free lock is taken at once, otherwise the thread waits in the line
      cases hlock : s.lock with
      | none =>
          rw [show access t s = ([.join t, .acquire t], { s with lock := some t }.goto t .critical) by
            unfold access; rw [hpc, hlock]]
          exact .inl (.inr (goto_pc_self _ _ _))
      | some prev =>
          rw [show access t s = ([.join t], { s with lock := some t }.goto t (.link prev)) by
            unfold access; rw [hpc, hlock]]
          exact .inl (.inl (.inr ⟨prev, goto_pc_self _ _ _⟩))
  | _ =>
      rw [hpc] at h
      exact absurd h (Nat.lt_irrefl 0)

/-- A thread that has called `mcs_spin_lock` comes into the line. -/
theorem FairRun.joins (hσ : FairRun σ) (t : T) (k : ℕ) :
    LeadsTo σ (fun s => (s.pc t).away = k ∧ 0 < k) (fun s => s.Waits t ∨ s.pc t = .critical) := by
  refine leadsTo_of_variant (V := fun k (s : State T) => (s.pc t).away = k ∧ 0 < k) (fun k => ?_) k
  refine leadsTo_of_helper ?_ ?_ (hσ.fair t)
  · rintro m ⟨rfl, hpos⟩
    obtain ⟨e, hs⟩ := hσ.step m
    rcases hs.pc_or (Pc.ne_idle_of_away hpos) with hpc | heq
    · rw [hpc]
      exact .inl ⟨rfl, hpos⟩
    · rw [heq]
      exact .inr (access_away hpos)
  · rintro m ⟨rfl, hpos⟩ hact
    rw [hact (Pc.ne_idle_of_away hpos)]
    exact access_away hpos

/-! ### Nobody waits for ever -/

/-- In `mcs_spin_lock`. -/
def Pc.locking : Pc T → Bool
  | initLocked | initNext | xchg | link _ | wait => true
  | _ => false

theorem FairRun.inv {node : T → Node T} (hσ : FairRun σ) (h0 : σ 0 = init node) (n : ℕ) :
    ∃ a, Inv (σ n) a := by
  induction n with
  | zero =>
      rw [h0]
      exact ⟨_, inv_init node⟩
  | succ n ih =>
      obtain ⟨a, ha⟩ := ih
      obtain ⟨e, hs⟩ := hσ.step n
      obtain ⟨a', -, ha'⟩ := simulation _ _ _ _ hs ha
      exact ⟨a', ha'⟩

/-- **The MCS lock is starvation-free.**  In a run in which every thread goes on and gives the
lock back, every call of `mcs_spin_lock` gets the lock, and every call of `mcs_spin_unlock`
returns. -/
theorem mcs_starvation_free {node : T → Node T} (hσ : FairRun σ) (h0 : σ 0 = init node) (t : T) :
    LeadsTo σ (fun s => (s.pc t).locking) (fun s => s.pc t = .critical)
      ∧ LeadsTo σ (fun s => (s.pc t).holding) (fun s => s.pc t = .idle) := by
  have hwaits : LeadsTo σ (fun s => s.Waits t) (fun s => s.pc t = .critical) := by
    intro n hw
    obtain ⟨a, ha⟩ := hσ.inv h0 n
    have ht : t ∈ a.queue := (ha.mem t).mpr hw.queued
    exact hσ.gets t _ n ⟨ha.inLine ht, hw⟩
  refine ⟨fun n hlock => ?_, fun n hhold => ?_⟩
  -- first into the line, then to its head
  · by_cases haway : 0 < ((σ n).pc t).away
    · obtain ⟨m, hm, hw | hcritical⟩ := hσ.joins t _ n ⟨rfl, haway⟩
      · obtain ⟨m', hm', hcritical⟩ := hwaits m hw
        exact ⟨m', hm.trans hm', hcritical⟩
      · exact ⟨m, hm, hcritical⟩
    · refine hwaits n ?_
      dsimp only at hlock
      cases hpc : (σ n).pc t with
      | wait => exact .inl hpc
      | link p => exact .inr ⟨p, hpc⟩
      | _ =>
          rw [hpc] at hlock haway
          first
            | exact absurd hlock Bool.false_ne_true
            | exact absurd (Nat.succ_pos _) haway
  · obtain ⟨a, ha⟩ := hσ.inv h0 n
    have ht : t ∈ a.queue := (ha.mem t).mpr (Pc.queued_of_holding hhold)
    exact hσ.leaves t _ n ⟨ha.inLine ht, trivial⟩

/-- The next step of a thread that calls again whenever it has returned. -/
def turn (t : T) (s : State T) : State T :=
  if s.pc t = .idle then s.goto t .initLocked else (access t s).2

theorem step_turn (t : T) (s : State T) : ∃ e, Step s e (turn t s) := by
  unfold turn
  split
  · rename_i hpc
    exact ⟨[], .call t, if_pos hpc⟩
  · rename_i hpc
    exact ⟨(access t s).1, .go t, if_neg hpc⟩

/-- Two threads that take turns. -/
def alternating (node : Bool → Node Bool) : ℕ → State Bool
  | 0 => init node
  | n + 1 => turn n.bodd (alternating node n)

theorem alternating_fair (node : Bool → Node Bool) : FairRun (alternating node) := by
  refine ⟨fun n => step_turn _ _, fun t n => ?_⟩
  have hacts : ∀ m : ℕ, m.bodd = t → Acts (alternating node) t m := by
    rintro m rfl hpc
    exact if_neg hpc
  by_cases ht : n.bodd = t
  · exact ⟨n, le_rfl, hacts n ht⟩
  · refine ⟨n + 1, Nat.le_succ n, hacts (n + 1) ?_⟩
    rw [Nat.bodd_succ]
    exact Bool.not_eq.mpr ht

/-- The second thread waits for the first one, and gets the lock. -/
theorem mcs_starvation_free_alternating :
    ∃ m ≥ 2, (alternating (fun _ => ⟨1, none⟩) m).pc true = .critical :=
  (mcs_starvation_free (alternating_fair fun _ => ⟨1, none⟩) rfl true).1 2 rfl

end MyTests.QueuedSpin.Mcs
