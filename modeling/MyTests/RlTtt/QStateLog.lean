/-
MyTests/RlTtt/QStateLog.lean

The Q-state log: `scripts/log_qstate.py` writes it, one `record` call after
an episode, and the page `web/qstate-animation.html` reads it.

The writer stores a row only when it differs from the row stored last; the
reader bisects for the last snapshot that is not after the episode shown.
Between the two stands the value in force (`Lib.inForce`), of which the calls
and the snapshots are two logs.

The reader halves with `>>> 1`, which works on 32 bits.  Up to 2³¹ snapshots
this is the middle of the bounds; a longer log sends the search in a circle.
-/
import MyTests.Lib.Recording
import MyTests.RlTtt.TableInvariant

namespace MyTests.RlTtt

open Lib

variable {ρ ξ : Type}

/-! ### The reader -/

inductive JsErr where
  | typeError
  | outOfFuel
deriving DecidableEq

/-- `x >>> 1`, on an integer. -/
def shiftRightOne (x : ℤ) : ℤ := x % 2 ^ 32 / 2

/-- The `while` loop of `getQValues`. -/
def getQValuesLoop (snapshots : List Snapshot) (targetEp : ℕ) :
    ℕ → ℤ → ℤ → Option (List (Option ℚ)) → Except JsErr (Option (List (Option ℚ)))
  | 0, _, _, _ => .error .outOfFuel
  | fuel + 1, lo, hi, best =>
      if lo ≤ hi then
        let mid := shiftRightOne (lo + hi)
        match snapshots[mid.toNat]? with
        | none => .error .typeError
        | some snapshot =>
            if snapshot.ep ≤ targetEp then
              getQValuesLoop snapshots targetEp fuel (mid + 1) hi (some snapshot.q)
            else getQValuesLoop snapshots targetEp fuel lo (mid - 1) best
      else .ok best

/-- `getQValues(snapshots, targetEp)`, with a bound on the rounds of the loop. -/
def getQValues (fuel : ℕ) (snapshots : List Snapshot) (targetEp : ℕ) :
    Except JsErr (List (Option ℚ)) := do
  let best ← getQValuesLoop snapshots targetEp fuel 0 (snapshots.length - 1) none
  pure (best.getD [some 0, some 0, some 0, some 0, none, some 0, some 0, some 0, some 0])

theorem shiftRightOne_between {lo hi : ℤ} (h0 : 0 ≤ lo) (hle : lo ≤ hi) (hfit : hi < 2 ^ 31) :
    lo ≤ shiftRightOne (lo + hi) ∧ shiftRightOne (lo + hi) ≤ hi := by
  unfold shiftRightOne
  omega

variable {snapshots : List Snapshot} {targetEp : ℕ}

/-- Each round narrows the bounds, and none ends without the row in force. -/
theorem getQValuesLoop_eq (hep : snapshots.Pairwise fun a b => a.ep < b.ep)
    (hfit : snapshots.length ≤ 2 ^ 31) (fuel : ℕ) (lo hi : ℤ) (best : Option (List (Option ℚ)))
    (hb : Bracket Snapshot.ep Snapshot.q snapshots targetEp lo hi best)
    (hfuel : hi - lo + 1 < fuel) :
    getQValuesLoop snapshots targetEp fuel lo hi best
      = .ok (inForce Snapshot.ep Snapshot.q snapshots targetEp) := by
  induction fuel generalizing lo hi best with
  | zero =>
      have hle := hb.lo_le
      omega
  | succ fuel ih =>
      unfold getQValuesLoop
      by_cases hle : lo ≤ hi
      · rw [if_pos hle]
        have hlt := hb.hi_lt
        obtain ⟨hlo, hhi⟩ := shiftRightOne_between hb.lo_nonneg hle (by omega)
        obtain ⟨hm, hget⟩ := hb.getElem?_mid hlo hhi
        simp only [hget]
        split
        -- the probe is not after the target: the row in force is its own or a later one
        · rename_i hnot
          exact ih _ _ _ (hb.right hep hlo hhi hget hnot) (by omega)
        -- the probe is after the target
        · rename_i hafter
          exact ih _ _ _ (hb.left hep hlo hhi hget (not_le.mp hafter)) (by omega)
      · rw [if_neg hle, hb.inForce_eq hle]

/-- The reader finds the row in force. -/
theorem getQValues_eq (hep : snapshots.Pairwise fun a b => a.ep < b.ep)
    (hfit : snapshots.length ≤ 2 ^ 31) {fuel : ℕ} (hfuel : snapshots.length < fuel)
    {q : List (Option ℚ)} (hq : inForce Snapshot.ep Snapshot.q snapshots targetEp = some q) :
    getQValues fuel snapshots targetEp = .ok q := by
  unfold getQValues
  rw [getQValuesLoop_eq hep hfit fuel 0 _ none Bracket.init (by omega), hq]
  rfl

/-! ### The writer -/

/-- `_CaseLogger(case)`. -/
def CaseLogger.new (state : Board) : CaseLogger := ⟨state, [], none⟩

/-- The logger after `record(global_ep, agent)` for each of the calls. -/
def CaseLogger.recordAll (logger : CaseLogger) :
    List (ℕ × Host ρ ξ) → Except PyErr CaseLogger
  | [] => .ok logger
  | (globalEp, h) :: calls => do
      let logger ← (exec (logger.record globalEp) h).1
      logger.recordAll calls

theorem CaseLogger.recordAll_cons {logger logger' : CaseLogger} {c : ℕ × Host ρ ξ}
    {calls : List (ℕ × Host ρ ξ)} (hexec : (exec (logger.record c.1) c.2).1 = .ok logger') :
    logger.recordAll (c :: calls) = logger'.recordAll calls := by
  show ((exec (logger.record c.1) c.2).1 >>= fun logger => logger.recordAll calls) = _
  rw [hexec]
  rfl

/-- The row of the tracked board is there. -/
def Host.tracks (h : Host ρ ξ) (state : Board) : Bool := (h.agent.qTable.lookup state).isSome

/-- The calls that find the row. -/
def tracked (state : Board) (calls : List (ℕ × Host ρ ξ)) : List (ℕ × Host ρ ξ) :=
  calls.filter fun c => c.2.tracks state

/-- What the logger of `state` holds after `calls`. -/
structure Logged (state : Board) (calls : List (ℕ × Host ρ ξ)) (logger : CaseLogger) : Prop where
  state_eq : logger.state = state
  lastQ_eq : logger.lastQ = logger.snapshots.getLast?.map Snapshot.q
  mem_ep : ∀ s ∈ logger.snapshots, ∃ c ∈ calls, c.1 = s.ep
  increasing : logger.snapshots.Pairwise fun a b => a.ep < b.ep
  changing : logger.snapshots.IsChain fun a b => a.q ≠ b.q
  inForce_eq : ∀ t, inForce Snapshot.ep Snapshot.q logger.snapshots t
    = inForce Prod.fst (fun c => qArrayToJson (c.2.row state)) (tracked state calls) t

theorem Logged.new (state : Board) : Logged state ([] : List (ℕ × Host ρ ξ)) (.new state) :=
  ⟨rfl, rfl, nofun, List.Pairwise.nil, List.isChain_nil, fun _ => rfl⟩

/-- What `record` does, as a step of the log. -/
theorem exec_record_note {logger : CaseLogger} {ep : ℕ} {h : Host ρ ξ}
    (hlast : logger.lastQ = logger.snapshots.getLast?.map Snapshot.q) :
    (exec (logger.record ep) h).1 = .ok
      (if h.tracks logger.state then
        { logger with
          lastQ := some (qArrayToJson (h.row logger.state))
          snapshots := note Snapshot.q logger.snapshots
            ⟨ep, qArrayToJson (h.row logger.state)⟩ }
      else logger) := by
  unfold CaseLogger.record Host.tracks
  rw [exec_bind_ok exec_hasState]
  cases hseen : (h.agent.qTable.lookup logger.state).isSome with
  | false => rfl
  | true =>
      simp only [Bool.true_eq_false, if_false, if_true]
      rw [exec_bind_ok exec_qValues]
      unfold note
      by_cases hin : logger.snapshots.getLast?.map Snapshot.q
          = some (qArrayToJson (h.row logger.state))
      · -- the row is in force already: nothing is stored
        rw [if_pos hin, if_neg (by simp [hlast, hin])]
        simp [← hin, ← hlast]
      · rw [if_neg hin, if_pos (Or.inr fun heq => hin (by rw [← hlast, ← heq]))]
        simp

theorem Logged.record {state : Board} {calls : List (ℕ × Host ρ ξ)} {logger : CaseLogger}
    (hl : Logged state calls logger) {c : ℕ × Host ρ ξ} (hlast : ∀ d ∈ calls, d.1 < c.1) :
    ∃ logger', (exec (logger.record c.1) c.2).1 = .ok logger' ∧
      Logged state (calls ++ [c]) logger' := by
  obtain ⟨ep, h⟩ := c
  obtain ⟨rfl, hlastQ, hmem, hinc, hchange, hforce⟩ := hl
  refine ⟨_, exec_record_note hlastQ, ?_⟩
  cases hseen : h.tracks logger.state with
  | false =>
      -- the agent has no row for the board yet, and the call leaves no trace
      have hskip : tracked logger.state (calls ++ [(ep, h)]) = tracked logger.state calls := by
        simp [tracked, hseen]
      rw [if_neg Bool.false_ne_true]
      refine ⟨rfl, hlastQ, fun s hs => ?_, hinc, hchange, fun t => ?_⟩
      · obtain ⟨d, hd, hep⟩ := hmem s hs
        exact ⟨d, List.mem_append_left _ hd, hep⟩
      · rw [hskip, hforce]
  | true =>
      have htaken : tracked logger.state (calls ++ [(ep, h)])
          = tracked logger.state calls ++ [(ep, h)] := by
        simp [tracked, hseen]
      -- what is in the log comes from earlier calls
      have hbefore : ∀ s ∈ logger.snapshots, s.ep < ep := by
        intro s hs
        obtain ⟨d, hd, hep⟩ := hmem s hs
        exact hep ▸ hlast d hd
      have hq : (note Snapshot.q logger.snapshots ⟨ep, qArrayToJson (h.row logger.state)⟩).getLast?.map
          Snapshot.q = some (qArrayToJson (h.row logger.state)) := getLast?_note
      rw [if_pos rfl]
      refine ⟨rfl, hq.symm, fun s hs => ?_, pairwise_note hinc hbefore,
        isChain_note hchange, fun t => ?_⟩
      · rcases mem_note hs with hs | rfl
        · obtain ⟨d, hd, hep⟩ := hmem s hs
          exact ⟨d, List.mem_append_left _ hd, hep⟩
        · exact ⟨(ep, h), by simp, rfl⟩
      · rw [htaken, inForce_concat, inForce_note hbefore, inForce_concat, hforce]

theorem Logged.recordAll {state : Board} {before after : List (ℕ × Host ρ ξ)} {logger : CaseLogger}
    (hl : Logged state before logger) (hep : (before ++ after).Pairwise fun c d => c.1 < d.1) :
    ∃ logger', logger.recordAll after = .ok logger' ∧ Logged state (before ++ after) logger' := by
  induction after generalizing before logger with
  | nil => exact ⟨logger, rfl, by rwa [List.append_nil]⟩
  | cons c after ih =>
      have hlast : ∀ d ∈ before, d.1 < c.1 := fun d hd =>
        (List.pairwise_append.mp hep).2.2 d hd c List.mem_cons_self
      obtain ⟨logger₁, hexec, hl₁⟩ := hl.record hlast
      rw [List.append_cons] at hep ⊢
      obtain ⟨logger', hrest, hl'⟩ := ih hl₁ hep
      exact ⟨logger', (CaseLogger.recordAll_cons hexec).trans hrest, hl'⟩

theorem recordAll_append {logger logger' : CaseLogger} {before after : List (ℕ × Host ρ ξ)}
    (hbefore : logger.recordAll before = .ok logger') :
    logger.recordAll (before ++ after) = logger'.recordAll after := by
  induction before generalizing logger with
  | nil => rw [List.nil_append, Except.ok.inj hbefore]
  | cons c before ih =>
      cases hexec : (exec (logger.record c.1) c.2).1 with
      | error e =>
          have hraise : logger.recordAll (c :: before) = .error e := by
            show ((exec (logger.record c.1) c.2).1 >>= fun logger => logger.recordAll before) = _
            rw [hexec]
            rfl
          rw [hraise] at hbefore
          cases hbefore
      | ok logger₁ =>
          rw [CaseLogger.recordAll_cons hexec] at hbefore
          rw [List.cons_append, CaseLogger.recordAll_cons hexec, ih hbefore]

/-! ### Reading back -/

/-- When the row stays once it is there, the tracked call in force at `t` is the
last call of all that is not after `t`. -/
theorem exists_last_call {state : Board} {calls : List (ℕ × Host ρ ξ)} {t : ℕ}
    (hep : calls.Pairwise fun c d => c.1 < d.1)
    (hseen : calls.Pairwise fun c d => c.2.tracks state → d.2.tracks state)
    {d : ℕ × Host ρ ξ} (hd : d ∈ tracked state calls) (hle : d.1 ≤ t) :
    ∃ before c after, calls = before ++ c :: after ∧ c.1 ≤ t ∧ (∀ d ∈ after, t < d.1) ∧
      c.2.tracks state := by
  obtain ⟨hmem, htracks⟩ := List.mem_filter.mp hd
  obtain ⟨c, hc⟩ : ∃ c, inForce Prod.fst id calls t = some c := exists_inForce_of_mem hmem hle
  obtain ⟨before, c, after, rfl, hct, hafter, -⟩ := exists_of_inForce_eq_some hep hc
  refine ⟨before, c, after, rfl, hct, hafter, ?_⟩
  rcases List.mem_append.mp hmem with hbefore | hrest
  · exact (List.pairwise_append.mp hseen).2.2 d hbefore c List.mem_cons_self htracks
  · rcases List.mem_cons.mp hrest with rfl | hlate
    · exact htracks
    · exact absurd hle (hafter d hlate).not_ge

/-- **The log is lossless.**  Up to 2³¹ snapshots, the page shows at an episode
the row that the agent had at the last call that is not after it. -/
theorem qStateLog_lossless {state : Board} {calls : List (ℕ × Host ρ ξ)}
    (hep : calls.Pairwise fun c d => c.1 < d.1)
    (hseen : calls.Pairwise fun c d => c.2.tracks state → d.2.tracks state) :
    ∃ logger, (CaseLogger.new state).recordAll calls = .ok logger ∧
      (logger.snapshots.Pairwise fun a b => a.ep < b.ep) ∧
      (logger.snapshots.IsChain fun a b => a.q ≠ b.q) ∧
      (logger.snapshots.length ≤ 2 ^ 31 → ∀ first ∈ logger.snapshots.head?, ∀ t, first.ep ≤ t →
        ∃ before c after, calls = before ++ c :: after ∧ c.1 ≤ t ∧ (∀ d ∈ after, t < d.1) ∧
          ∃ q, c.2.agent.qTable.lookup state = some q ∧
            ∀ fuel, logger.snapshots.length < fuel →
              getQValues fuel logger.snapshots t = .ok (qArrayToJson q)) := by
  obtain ⟨logger, hrun, hl⟩ := (Logged.new state).recordAll (List.nil_append calls ▸ hep)
  refine ⟨logger, hrun, hl.increasing, hl.changing, fun hfit first hfirst t hle => ?_⟩
  -- from the first snapshot on some row is in force
  obtain ⟨v, hv⟩ : ∃ v, inForce Snapshot.ep Snapshot.q logger.snapshots t = some v :=
    exists_inForce_of_mem (List.mem_of_mem_head? hfirst) hle
  have htrackedV := (hl.inForce_eq t).symm.trans hv
  have hep' : (tracked state calls).Pairwise fun c d => c.1 < d.1 := hep.filter _
  obtain ⟨b, d, a, hsplit, hdt, -, -⟩ := exists_of_inForce_eq_some hep' htrackedV
  obtain ⟨before, c, after, rfl, hct, hafter, hc⟩ :=
    exists_last_call hep hseen (hsplit ▸ by simp) hdt
  obtain ⟨q, hq⟩ := Option.isSome_iff_exists.mp hc
  -- and it is that of the last call
  have hinForce : inForce Prod.fst (fun c => qArrayToJson (c.2.row state))
      (tracked state (before ++ c :: after)) t = some (qArrayToJson (c.2.row state)) := by
    unfold tracked
    rw [List.filter_append, List.filter_cons, if_pos hc]
    exact inForce_append_cons hct fun e he => hafter e (List.mem_of_mem_filter he)
  have hrow : c.2.row state = q := by
    simp [Host.row, QTable.row, hq]
  refine ⟨before, c, after, rfl, hct, hafter, q, hq, fun fuel hfuel => ?_⟩
  rw [← hrow]
  exact getQValues_eq hl.increasing hfit hfuel ((hl.inForce_eq t).trans hinForce)

/-! ### A log that is too long -/

/-- When the probes are all on or before `t` and the bounds do not fit, the
search never ends: the low bound falls back before it reaches the high one. -/
theorem getQValuesLoop_circles (hall : ∀ s ∈ snapshots, s.ep ≤ targetEp)
    (hlong : 2 ^ 31 < snapshots.length) (fuel : ℕ) (lo : ℤ) (best : Option (List (Option ℚ)))
    (h0 : 0 ≤ lo) (hle : lo ≤ snapshots.length - 1) :
    getQValuesLoop snapshots targetEp fuel lo (snapshots.length - 1) best = .error .outOfFuel := by
  induction fuel generalizing lo best with
  | zero => rfl
  | succ fuel ih =>
      unfold getQValuesLoop
      rw [if_pos hle]
      have hmid : 0 ≤ shiftRightOne (lo + (snapshots.length - 1)) ∧
          shiftRightOne (lo + (snapshots.length - 1)) + 1 ≤ snapshots.length - 1 := by
        unfold shiftRightOne
        omega
      obtain ⟨hnonneg, hbelow⟩ := hmid
      generalize shiftRightOne (lo + (snapshots.length - 1)) = mid at hnonneg hbelow
      have hm : mid.toNat < snapshots.length := by omega
      simp only [List.getElem?_eq_getElem hm, if_pos (hall _ (List.getElem_mem hm))]
      exact ih _ _ (by omega) hbelow

/-- An agent whose row for the empty board is `k mod 2` on every cell. -/
def blinkHost (k : ℕ) : Host Unit Unit :=
  (greedyWorld ((∅ : QTable).insert initialBoard fun _ => some ((k % 2 : ℕ) : ℚ))).host

def blinkSnapshot (k : ℕ) : Snapshot := ⟨k + 1, List.ofFn fun _ : Fin 9 => some ((k % 2 : ℕ) : ℚ)⟩

/-- One call after each of the first `n` episodes. -/
def blinks (n : ℕ) : List (ℕ × Host Unit Unit) := (List.range n).map fun k => (k + 1, blinkHost k)

theorem lookup_blinkHost (k : ℕ) : (blinkHost k).agent.qTable.lookup initialBoard
    = some fun _ => some ((k % 2 : ℕ) : ℚ) := AList.lookup_insert _

theorem blinkHost_tracks (k : ℕ) : (blinkHost k).tracks initialBoard = true := by
  rw [Host.tracks, lookup_blinkHost, Option.isSome_some]

theorem blinkHost_row (k : ℕ) :
    qArrayToJson ((blinkHost k).row initialBoard) = (blinkSnapshot k).q := by
  rw [Host.row, QTable.row, lookup_blinkHost]
  rfl

theorem blinkSnapshot_ne (k : ℕ) : (blinkSnapshot k).q ≠ (blinkSnapshot (k + 1)).q := by
  intro heq
  have hhead := congrArg List.head? heq
  have hmod : k % 2 = (k + 1) % 2 := by simpa [blinkSnapshot] using hhead
  omega

/-- Every call is stored. -/
theorem recordAll_blinks (n : ℕ) :
    (CaseLogger.new initialBoard).recordAll (blinks n)
      = .ok ⟨initialBoard, (List.range n).map blinkSnapshot,
          ((List.range n).map blinkSnapshot).getLast?.map Snapshot.q⟩ := by
  induction n with
  | zero => rfl
  | succ n ih =>
      have hlast : ((List.range n).map blinkSnapshot).getLast?.map Snapshot.q
          ≠ some (blinkSnapshot n).q := by
        cases n with
        | zero => simp
        | succ n =>
            rw [List.range_succ, List.map_append, List.map_singleton, List.getLast?_concat]
            exact fun heq => blinkSnapshot_ne n (Option.some.inj heq)
      have hnote : note Snapshot.q ((List.range n).map blinkSnapshot) (blinkSnapshot n)
          = (List.range (n + 1)).map blinkSnapshot := by
        rw [note, if_neg hlast, List.range_succ, List.map_append, List.map_singleton]
      have hblinks : blinks (n + 1) = blinks n ++ [(n + 1, blinkHost n)] := by
        simp [blinks, List.range_succ]
      have hsnapshot : (⟨n + 1, (blinkSnapshot n).q⟩ : Snapshot) = blinkSnapshot n := rfl
      rw [hblinks, recordAll_append ih, CaseLogger.recordAll_cons (exec_record_note rfl),
        if_pos (blinkHost_tracks n), blinkHost_row, hsnapshot, hnote, List.range_succ,
        List.map_append, List.map_singleton, List.getLast?_concat]
      rfl

theorem blinks_pairwise (n : ℕ) : (blinks n).Pairwise fun c d => c.1 < d.1 :=
  List.Pairwise.map _ (fun _ _ hjk => Nat.succ_lt_succ hjk) List.pairwise_lt_range

theorem tracks_of_mem_blinks {n : ℕ} {c : ℕ × Host Unit Unit} (hc : c ∈ blinks n) :
    c.2.tracks initialBoard = true := by
  obtain ⟨k, -, rfl⟩ := List.mem_map.mp hc
  exact blinkHost_tracks k

theorem blinks_circle {n : ℕ} (hlong : 2 ^ 31 < n) :
    ∃ logger, (CaseLogger.new initialBoard).recordAll (blinks n) = .ok logger ∧
      logger.snapshots.length = n ∧
      ∀ fuel, getQValues fuel logger.snapshots n = .error .outOfFuel := by
  refine ⟨_, recordAll_blinks n, by simp, fun fuel => ?_⟩
  have hall : ∀ s ∈ (List.range n).map blinkSnapshot, s.ep ≤ n := by
    intro s hs
    obtain ⟨k, hk, rfl⟩ := List.mem_map.mp hs
    exact List.mem_range.mp hk
  have hlength : 2 ^ 31 < ((List.range n).map blinkSnapshot).length := by simpa using hlong
  unfold getQValues
  rw [getQValuesLoop_circles hall hlength fuel 0 none le_rfl (by omega)]
  rfl

/-- With 2³¹ + 1 snapshots the page never finds the row of the last episode. -/
theorem qStateLog_circles :
    ∃ calls : List (ℕ × Host Unit Unit), (calls.Pairwise fun c d => c.1 < d.1) ∧
      (∀ c ∈ calls, c.2.tracks initialBoard) ∧
      ∃ logger, (CaseLogger.new initialBoard).recordAll calls = .ok logger ∧
        logger.snapshots.length = 2 ^ 31 + 1 ∧
        ∀ fuel, getQValues fuel logger.snapshots (2 ^ 31 + 1) = .error .outOfFuel := by
  exact ⟨blinks (2 ^ 31 + 1), blinks_pairwise _, fun c hc => tracks_of_mem_blinks hc,
    blinks_circle (Nat.lt_succ_self _)⟩

theorem qStateLog_lossless_blinks :
    ∃ logger, (CaseLogger.new initialBoard).recordAll (blinks 2) = .ok logger ∧
      logger.snapshots.Pairwise fun a b => a.ep < b.ep := by
  have hseen : (blinks 2).Pairwise fun c d => c.2.tracks initialBoard → d.2.tracks initialBoard :=
    List.Pairwise.imp_of_mem (fun _ hd _ _ => tracks_of_mem_blinks hd) (blinks_pairwise 2)
  obtain ⟨logger, hrun, hinc, -, -⟩ := qStateLog_lossless (blinks_pairwise 2) hseen
  exact ⟨logger, hrun, hinc⟩

end MyTests.RlTtt
