/-
MyTests/RlTtt/Undisturbed.lean

Learning never disturbs the episode it learns from.

Along an episode the number of empty cells falls, and an update writes only to
the row of a board that has more empty cells than every board consulted later.
So the hosts of the two runs, with and without training, stay alike as far as
boards with at most as many empty cells as the current one are concerned
(`Alike`).  The record of the episode says the same: no row that has been
written to is looked at again (`Unread`).
-/
import MyTests.RlTtt.Episode
import MyTests.Lib.Agree

namespace MyTests.RlTtt

open Lib

variable {ρ ξ : Type} {G : Generator ρ} {n m : ℕ} {h k : Host ρ ξ} {b : Board}

/-! ### Hosts that are alike -/

/-- No choice on a board of at most `n` empty cells tells the hosts apart. -/
structure Alike (n : ℕ) (h k : Host ρ ξ) : Prop where
  epsilon : h.agent.epsilon = k.agent.epsilon
  rng : h.agent.rng = k.agent.rng
  rows : ∀ b, empties b ≤ n → h.row b = k.row b
  gens : h.gens = k.gens

theorem Alike.refl (n : ℕ) (h : Host ρ ξ) : Alike n h h := ⟨rfl, rfl, fun _ _ => rfl, rfl⟩

theorem Alike.mono (hk : Alike n h k) (hm : m ≤ n) : Alike m h k :=
  ⟨hk.epsilon, hk.rng, fun b hb => hk.rows b (hb.trans hm), hk.gens⟩

theorem Alike.setGen (hk : Alike n h k) (id : GenId) (g : ρ) :
    Alike n (h.setGen id g) (k.setGen id g) :=
  ⟨hk.epsilon, hk.rng, hk.rows, by simp [Host.setGen, hk.gens]⟩

theorem pick_alike {α : Type} {draw : (n : ℕ) → 0 < n → ρ → Fin n × ρ} {id : GenId} {l : List α}
    {hl : 0 < l.length} :
    Agree (Alike n : Host ρ ξ → Host ρ ξ → Prop) (pick draw id l hl) (pick draw id l hl)
      (fun _ => Alike n) (Alike n) := by
  intro h k hk
  rw [exec_pick, exec_pick, ← hk.gens]
  exact ⟨rfl, hk.setGen _ _⟩

theorem qValues_alike (hb : empties b ≤ n) :
    Agree (Alike n : Host ρ ξ → Host ρ ξ → Prop) (qValues b) (qValues b)
      (fun _ => Alike n) (Alike n) := by
  intro h k hk
  rw [exec_qValues, exec_qValues]
  refine ⟨hk.rows b hb, hk.epsilon, hk.rng, fun b' hb' => ?_, hk.gens⟩
  exact QTable.row_touch.trans ((hk.rows b' hb').trans QTable.row_touch.symm)

theorem nanmax_alike (q : Row) :
    Agree (Alike n : Host ρ ξ → Host ρ ξ → Prop) (nanmax q) (nanmax q)
      (fun _ => Alike n) (Alike n) := by
  intro h k hk
  rw [exec_nanmax, exec_nanmax]
  split
  · exact ⟨rfl, hk.epsilon, hk.rng, hk.rows, hk.gens⟩
  · exact ⟨rfl, hk⟩

/-- **Alike hosts choose alike.** -/
theorem selectAction_alike (hb : empties b ≤ n) :
    Agree (Alike n : Host ρ ξ → Host ρ ξ → Prop) (selectAction G b) (selectAction G b)
      (fun _ => Alike n) (Alike n) := by
  intro h k hk
  simp only [selectAction]
  split
  · exact ⟨rfl, hk⟩
  · rw [exec_bind_ok (exec_get h), exec_bind_ok (exec_get k), exec_bind_ok (exec_drawRandom G),
      exec_bind_ok (exec_drawRandom G), ← hk.epsilon, ← hk.rng, ← hk.gens]
    have hdrawn := hk.setGen h.agent.rng (G.random (h.gens h.agent.rng)).2
    refine (?_ : Agree (Alike n) _ _ (fun _ => Alike n) (Alike n)) _ _ hdrawn
    split
    · exact pick_alike
    · refine Agree.bind (qValues_alike hb) fun q => Agree.bind (nanmax_alike q) fun maxQ => ?_
      split
      · exact Agree.throw fun _ _ hst => hst
      · exact pick_alike

/-- An update of a board that is not consulted again goes unnoticed. -/
theorem Updates.alike {s : Board} {a : Fin 9} {reward : ℚ} {sNext : Option Board} {h' : Host ρ ξ}
    (hu : Updates h s a reward sNext h') (hk : Alike n h k) (hs : n < empties s) : Alike n h' k := by
  have hagent := hu.agent
  refine ⟨?_, ?_, fun b hb => ?_, hu.gens.trans hk.gens⟩
  · rw [hagent]; exact hk.epsilon
  · rw [hagent]; exact hk.rng
  · have hbs : b ≠ s := by
      rintro rfl
      exact absurd hs (not_lt.mpr hb)
    exact (hu.row_of_ne hbs).trans (hk.rows b hb)

/-! ### Worlds that are alike -/

/-- A recorded event, as an episode without training records it. -/
def Event.untrained : Event → Option Event
  | .start _ first => some (.start false first)
  | .ply _ byTrainee board action => some (.ply false byTrainee board action)
  | .update _ _ _ _ => none

/-- The first movers and the plies of a record. -/
def World.plies (w : World ρ ξ) : List Event := w.trace.filterMap Event.untrained

/-- The same plies were made, and the hosts are alike. -/
def AlikeWorlds (n : ℕ) (w v : World ρ ξ) : Prop := Alike n w.host v.host ∧ w.plies = v.plies

theorem AlikeWorlds.mono {w v : World ρ ξ} (hw : AlikeWorlds n w v) (hm : m ≤ n) :
    AlikeWorlds m w v :=
  ⟨hw.1.mono hm, hw.2⟩

theorem onHost_alike {α : Type} {x y : Method ρ ξ α}
    (hx : Agree (Alike n) x y (fun _ => Alike n) (Alike n)) :
    Agree (AlikeWorlds n) (onHost x) (onHost y) (fun _ => AlikeWorlds n) (AlikeWorlds n) := by
  refine Agree.onPart fun w v hw => hx.weaken ?_ ?_ ?_
  · rintro s t ⟨rfl, rfl⟩
    exact hw.1
  · exact fun _ _ _ hst => ⟨hst, hw.2⟩
  · exact fun _ _ hst => ⟨hst, hw.2⟩

theorem record_alike {e e' : Event} (he : e.untrained = e'.untrained) :
    Agree (AlikeWorlds n : World ρ ξ → World ρ ξ → Prop) (record e) (record e')
      (fun _ => AlikeWorlds n) (AlikeWorlds n) := by
  intro w v hw
  refine ⟨rfl, hw.1, ?_⟩
  show (w.trace ++ [e]).filterMap _ = (v.trace ++ [e']).filterMap _
  rw [List.filterMap_append, List.filterMap_append]
  simp only [List.filterMap_cons, List.filterMap_nil, he]
  exact congrArg (· ++ _) hw.2

/-- The update that training makes is not seen from the boards to come. -/
theorem updateLast_unseen {last : Option (Board × Fin 9)} {reward : ℚ} {sNext : Option Board}
    (hlast : ∀ sa, last = some sa → n < empties sa.1) (v : World ρ ξ) :
    Returns (fun w : World ρ ξ => AlikeWorlds n w v) (updateLast true last reward sNext)
      fun _ w => AlikeWorlds n w v := by
  cases last with
  | none => exact Sat.pure fun _ hw => hw
  | some sa =>
      obtain ⟨s, a⟩ := sa
      have hrecord : Returns (fun w : World ρ ξ => AlikeWorlds n w v)
          (record (.update s a reward sNext)) fun _ w => AlikeWorlds n w v := by
        refine Sat.modify fun w hw => ⟨hw.1, ?_⟩
        show (w.trace ++ [Event.update s a reward sNext]).filterMap _ = v.plies
        rw [List.filterMap_append]
        exact (List.append_nil _).trans hw.2
      refine Sat.bind hrecord fun _ => Sat.onPart fun w hw => ?_
      refine (update_sat w.host s a reward sNext).weaken (fun _ hs => hs) ?_ fun _ _ he => he
      exact fun _ k hu => ⟨hu.alike hw.1 (hlast _ rfl), hw.2⟩

/-! ### Opponents -/

/-- An opponent whose answer depends only on the board and its random stream. -/
def StreamPlayer (opponent : Player ρ ξ) (rng : GenId) : Prop :=
  ∃ f : Board → ρ → Except PyErr ℤ × ρ, ∀ b (h : Host ρ ξ),
    exec (opponent b (some rng)) h = ((f b (h.gens rng)).1, h.setGen rng (f b (h.gens rng)).2)

/-- An opponent that answers alike hosts alike. -/
def AlikePlayer (opponent : Player ρ ξ) (rng : GenId) : Prop :=
  ∀ b n, empties b ≤ n → Agree (Alike n) (opponent b (some rng)) (opponent b (some rng))
    (fun _ => Alike n) (Alike n)

theorem StreamPlayer.alike {opponent : Player ρ ξ} {rng : GenId} (h : StreamPlayer opponent rng) :
    AlikePlayer opponent rng := by
  obtain ⟨f, hf⟩ := h
  intro b n _ h k hk
  rw [hf, hf, ← hk.gens]
  rcases (f b (h.gens rng)).1 with _ | _ <;> exact ⟨rfl, hk.setGen _ _⟩

theorem selfPlayOpponent_alike (G : Generator ρ) (rng : GenId) :
    AlikePlayer (selfPlayOpponent G : Player ρ ξ) rng :=
  fun _ _ hb => Agree.bind (selectAction_alike hb) fun _ => Agree.pure fun _ _ hst => hst

/-! ### The episode -/

variable {opponent : Player ρ ξ} {rng : GenId}

/-- **The loop plays alike with and without training.** -/
theorem episodeLoop_alike (hopp : AlikePlayer opponent rng) (fuel : ℕ) :
    ∀ turn board (last : Option (Board × Fin 9)),
      (∀ sa, last = some sa → empties board < empties sa.1) →
      Agree (AlikeWorlds (empties board)) (episodeLoop G opponent rng true fuel turn board last)
        (episodeLoop G opponent rng false fuel turn board last) (fun _ => AlikeWorlds 0)
        (AlikeWorlds 0) := by
  induction fuel with
  | zero => exact fun _ _ _ _ => Agree.throw fun _ _ hw => hw.mono (Nat.zero_le _)
  | succ fuel ih =>
      intro turn board last hlast
      -- the boards to come have fewer empty cells
      have hless : ∀ i, board i = 0 → empties (flipPerspective (place board i)) < empties board := by
        intro i hi
        rw [← empties_flip_place hi]
        exact Nat.lt_succ_self _
      cases turn with
      | true =>
          refine Agree.bind (Agree.weaken (onHost_alike (selectAction_alike le_rfl)) (fun _ _ hw => hw)
            (fun _ _ _ hw => hw) fun _ _ hw => hw.mono (Nat.zero_le _)) fun a => ?_
          refine Agree.bind_orRaise (fun newBoard hmove => ?_) fun _ _ hw => hw.mono (Nat.zero_le _)
          obtain ⟨i, hi, hlegal, rfl⟩ := legal_of_applyMove hmove
          obtain rfl : a = i := Fin.ext (by exact_mod_cast hi)
          refine Agree.bind (Agree.weaken (record_alike rfl) (fun _ _ hw => hw) (fun _ _ _ hw => hw)
            fun _ _ hw => hw.mono (Nat.zero_le _)) fun _ => ?_
          dsimp only
          split
          · -- the last update of the episode: nothing is consulted any more
            have hpos : 0 < empties board := Nat.zero_lt_of_lt (hless a hlegal)
            refine Agree.left (fun v => Sat.weaken (updateLast_unseen (n := 0) ?_ v)
              (fun _ hw => hw.mono (Nat.zero_le _)) (fun _ _ hw => hw) fun _ _ he => he)
              (Agree.pure fun _ _ hw => hw)
            rintro sa ⟨⟩
            exact hpos
          · refine Agree.weaken (ih false _ _ ?_) (fun _ _ hw => hw.mono (hless a hlegal).le)
              (fun _ _ _ hw => hw) fun _ _ hw => hw
            rintro sa ⟨⟩
            exact hless a hlegal
      | false =>
          refine Agree.bind (Agree.weaken (onHost_alike (hopp board _ le_rfl)) (fun _ _ hw => hw)
            (fun _ _ _ hw => hw) fun _ _ hw => hw.mono (Nat.zero_le _)) fun a => ?_
          refine Agree.bind_orRaise (fun newBoard hmove => ?_) fun _ _ hw => hw.mono (Nat.zero_le _)
          obtain ⟨i, -, hlegal, rfl⟩ := legal_of_applyMove hmove
          refine Agree.bind (Agree.weaken (record_alike rfl) (fun _ _ hw => hw) (fun _ _ _ hw => hw)
            fun _ _ hw => hw.mono (Nat.zero_le _)) fun _ => ?_
          dsimp only
          split
          · exact Agree.left (fun v => Sat.weaken (updateLast_unseen hlast v) (fun _ hw => hw)
              (fun _ _ hw => hw.mono (Nat.zero_le _)) fun _ _ he => he) (Agree.pure fun _ _ hw => hw)
          · refine Agree.left (fun v => Sat.weaken (updateLast_unseen hlast v) (fun _ hw => hw)
              (fun _ _ hw => hw.mono (hless i hlegal).le) fun _ _ he => he) ?_
            exact ih true _ last fun sa hsa => (hless i hlegal).trans (hlast sa hsa)

/-! ### The rows of the record -/

/-- The board whose row an event writes to. -/
def Event.writes : Event → Option Board
  | .update s _ _ _ => some s
  | _ => none

/-- The boards whose rows are consulted for an event. -/
def Event.consults : Event → List Board
  | .start _ _ => []
  | .ply _ _ board _ => [board]
  | .update s _ _ sNext => s :: sNext.toList

/-- No row is consulted after it has been written to. -/
def Unread (es : List Event) : Prop :=
  es.Pairwise fun e e' => ∀ s, e.writes = some s → s ∉ e'.consults

/-- What has been recorded after `tr`: no row is consulted that has been written to, and those
written to are of boards with more than `n` empty cells. -/
def UnreadFrom (tr : List Event) (n : ℕ) (w : World ρ ξ) : Prop :=
  ∃ es, w.trace = tr ++ es ∧ Unread es ∧ ∀ e ∈ es, ∀ s, e.writes = some s → n < empties s

variable {tr : List Event} {w : World ρ ξ}

theorem UnreadFrom.mono (hw : UnreadFrom tr n w) (hm : m ≤ n) : UnreadFrom tr m w := by
  obtain ⟨es, htrace, hunread, hbig⟩ := hw
  exact ⟨es, htrace, hunread, fun e he s hs => hm.trans_lt (hbig e he s hs)⟩

theorem onHost_unread {α : Type} {x : Method ρ ξ α} : Keeps (UnreadFrom tr n) (onHost x) := by
  refine Sat.onPart fun w hw s hs => ?_
  rcases exec x s with ⟨_ | _, t⟩ <;> exact hw

/-- An event that consults only boards of at most `n` empty cells may come next. -/
theorem record_unread {e : Event} (hm : m ≤ n) (hconsults : ∀ b ∈ e.consults, empties b ≤ n)
    (hwrites : ∀ s, e.writes = some s → m < empties s) :
    Sat (UnreadFrom tr n : World ρ ξ → Prop) (record e) (fun _ => UnreadFrom tr m)
      fun _ => UnreadFrom tr 0 := by
  refine Sat.modify fun w hw => ?_
  obtain ⟨es, htrace, hunread, hbig⟩ := hw
  refine ⟨es ++ [e], ?_, List.pairwise_append.mpr ⟨hunread, List.pairwise_singleton _ _, ?_⟩, ?_⟩
  · show w.trace ++ [e] = tr ++ (es ++ [e])
    rw [htrace, List.append_assoc]
  · intro e₁ he₁ e₂ he₂ s hs hmem
    obtain rfl := List.mem_singleton.mp he₂
    exact absurd (hbig e₁ he₁ s hs) (not_lt.mpr (hconsults s hmem))
  · intro e₁ he₁ s hs
    rcases List.mem_append.mp he₁ with he₁ | he₁
    · exact hm.trans_lt (hbig e₁ he₁ s hs)
    · obtain rfl := List.mem_singleton.mp he₁
      exact hwrites s hs

/-- The update of a board with more empty cells than the boards to come. -/
theorem updateLast_unread {last : Option (Board × Fin 9)} {reward : ℚ} {sNext : Option Board}
    (hm : m ≤ n) (hlast : ∀ sa, last = some sa → m < empties sa.1 ∧ empties sa.1 ≤ n)
    (hnext : ∀ b, sNext = some b → empties b ≤ n) :
    Sat (UnreadFrom tr n : World ρ ξ → Prop) (updateLast true last reward sNext)
      (fun _ => UnreadFrom tr m) fun _ => UnreadFrom tr 0 := by
  cases last with
  | none => exact Sat.pure fun _ hw => hw.mono hm
  | some sa =>
      obtain ⟨s, a⟩ := sa
      obtain ⟨hlt, hle⟩ := hlast _ rfl
      refine Sat.bind (record_unread hm (fun b hb => ?_) fun b hb => ?_) fun _ =>
        onHost_unread.weaken (fun _ hw => hw) (fun _ _ hw => hw) fun _ _ hw => hw.mono (Nat.zero_le m)
      · rcases List.mem_cons.mp hb with rfl | hb
        · exact hle
        · exact hnext b (Option.mem_toList.mp hb)
      · obtain rfl := Option.some.inj hb
        exact hlt

/-- **The loop never consults a row again that it has written to.**  Until the update of the
buffered pair its board bounds what has been written to. -/
theorem episodeLoop_unread (fuel : ℕ) :
    ∀ turn board (last : Option (Board × Fin 9)) n, empties board ≤ n →
      (turn = false → ∀ sa, last = some sa → empties board < empties sa.1 ∧ empties sa.1 ≤ n) →
      Sat (UnreadFrom tr n : World ρ ξ → Prop)
        (episodeLoop G opponent rng true fuel turn board last) (fun _ => UnreadFrom tr 0)
        fun _ => UnreadFrom tr 0 := by
  induction fuel with
  | zero => exact fun _ _ _ _ _ _ => Sat.throw fun _ hw => hw.mono (Nat.zero_le _)
  | succ fuel ih =>
      intro turn board last n hn hlast
      -- every ply leaves the next mover a board with fewer empty cells
      have hless : ∀ i, board i = 0 → empties (flipPerspective (place board i)) < empties board := by
        intro i hi
        rw [← empties_flip_place hi]
        exact Nat.lt_succ_self _
      have hhost : ∀ {α : Type} (x : Method ρ ξ α), Sat (UnreadFrom tr n : World ρ ξ → Prop)
          (onHost x) (fun _ => UnreadFrom tr n) fun _ => UnreadFrom tr 0 := fun x =>
        onHost_unread.weaken (fun _ hw => hw) (fun _ _ hw => hw) fun _ _ hw => hw.mono (Nat.zero_le n)
      cases turn with
      | true =>
          refine Sat.bind (hhost _) fun a => ?_
          cases hmove : applyMove board (a : ℕ) with
          | error e => exact Sat.throw fun _ hw => hw.mono (Nat.zero_le n)
          | ok newBoard =>
              obtain ⟨i, hi, hlegal, rfl⟩ := legal_of_applyMove hmove
              obtain rfl : a = i := Fin.ext (by exact_mod_cast hi)
              refine Sat.bind_ok (Sat.bind (record_unread hn ?_ nofun) fun _ => ?_)
              · rintro b hb
                obtain rfl := List.mem_singleton.mp hb
                exact hn
              dsimp only
              split
              · refine Sat.bind (updateLast_unread (Nat.zero_le _) ?_ nofun) fun _ =>
                  Sat.pure fun _ hw => hw
                -- the game is over, so no board is consulted after this update
                rintro sa ⟨⟩
                exact ⟨Nat.zero_lt_of_lt (hless a hlegal), le_rfl⟩
              -- the pair is buffered: its board is larger than what is consulted before its update
              · refine ih false _ _ _ (hless a hlegal).le fun _ sa hsa => ?_
                obtain rfl := Option.some.inj hsa
                exact ⟨hless a hlegal, le_rfl⟩
      | false =>
          refine Sat.bind (hhost _) fun a => ?_
          cases hmove : applyMove board a with
          | error e => exact Sat.throw fun _ hw => hw.mono (Nat.zero_le n)
          | ok newBoard =>
              obtain ⟨i, -, hlegal, rfl⟩ := legal_of_applyMove hmove
              refine Sat.bind_ok (Sat.bind (record_unread le_rfl ?_ nofun) fun _ => ?_)
              · rintro b hb
                obtain rfl := List.mem_singleton.mp hb
                exact hn
              have hnext := hless i hlegal
              dsimp only
              split
              · refine Sat.bind (updateLast_unread (Nat.zero_le n) (fun sa hsa => ?_) nofun) fun _ =>
                  Sat.pure fun _ hw => hw
                obtain ⟨hlt, hle⟩ := hlast rfl sa hsa
                exact ⟨Nat.zero_lt_of_lt hlt, hle⟩
              -- the next board is smaller than the pair's, which is written to now
              · refine Sat.bind (updateLast_unread (hnext.le.trans hn) (fun sa hsa => ?_) ?_)
                  fun _ => ih true _ last _ le_rfl nofun
                · obtain ⟨hlt, hle⟩ := hlast rfl sa hsa
                  exact ⟨hnext.trans hlt, hle⟩
                · rintro b ⟨⟩
                  exact hnext.le.trans hn

theorem runEpisode_unread (G : Generator ρ) (opponent : Player ρ ξ) (rng : GenId) (w : World ρ ξ) :
    ∃ es, (exec (runEpisode G opponent rng true) w).2.trace = w.trace ++ es ∧ Unread es := by
  have hsat : Sat (UnreadFrom w.trace 9 : World ρ ξ → Prop) (runEpisode G opponent rng true)
      (fun _ => UnreadFrom w.trace 0) fun _ => UnreadFrom w.trace 0 := by
    have hcoin : Sat (UnreadFrom w.trace 9 : World ρ ξ → Prop) (onHost (coinFlip G rng))
        (fun _ => UnreadFrom w.trace 9) fun _ => UnreadFrom w.trace 0 :=
      onHost_unread.weaken (fun _ hw => hw) (fun _ _ hw => hw) fun _ _ hw => hw.mono (Nat.zero_le 9)
    refine Sat.bind hcoin fun first => Sat.bind (record_unread le_rfl nofun nofun) fun _ => ?_
    exact episodeLoop_unread 9 first initialBoard none 9 empties_initialBoard.le nofun
  have hw := hsat w ⟨[], (List.append_nil _).symm, List.Pairwise.nil, nofun⟩
  rcases hx : exec (runEpisode G opponent rng true) w with ⟨_ | _, w'⟩ <;> rw [hx] at hw
  · obtain ⟨es, htrace, hunread, -⟩ := hw
    exact ⟨es, htrace, hunread⟩
  · obtain ⟨es, htrace, hunread, -⟩ := hw
    exact ⟨es, htrace, hunread⟩

theorem row_update_of_ne {s : Board} (a : Fin 9) (reward : ℚ) (sNext : Option Board)
    (h : Host ρ ξ) (hbs : b ≠ s) : (exec (update s a reward sNext) h).2.row b = h.row b := by
  have hu := update_sat h s a reward sNext h rfl
  rcases hx : exec (update s a reward sNext) h with ⟨_ | _, k⟩ <;> rw [hx] at hu
  · exact hu.elim
  · exact Updates.row_of_ne hu hbs

/-- **Learning never disturbs the episode it learns from.**  From one state, the
episode with training and the episode without make the same plies, leave every
generator in the same state and have the same outcome; for a generator that
keeps a log of its draws this says that the draws are the same.  In the episode
with training an update changes no row but that of its board, and no row is
consulted after it has been written to. -/
theorem runEpisode_undisturbed (G : Generator ρ) (opponent : Player ρ ξ) (rng : GenId)
    (hopp : StreamPlayer opponent rng ∨ opponent = selfPlayOpponent G) (w : World ρ ξ) :
    let trained := exec (runEpisode G opponent rng true) w
    let untrained := exec (runEpisode G opponent rng false) w
    trained.1 = untrained.1 ∧ trained.2.plies = untrained.2.plies ∧
      trained.2.host.gens = untrained.2.host.gens ∧
      (∃ es, trained.2.trace = w.trace ++ es ∧ Unread es) ∧
      ∀ (h : Host ρ ξ) s a reward sNext b, b ≠ s →
        (exec (update s a reward sNext) h).2.row b = h.row b := by
  have hplayer : AlikePlayer opponent rng := by
    rcases hopp with h | rfl
    · exact h.alike
    · exact selfPlayOpponent_alike G rng
  -- the coin and the first record come before any update
  have hagree : Agree (AlikeWorlds 9 : World ρ ξ → World ρ ξ → Prop) (runEpisode G opponent rng true)
      (runEpisode G opponent rng false) (fun _ => AlikeWorlds 0) (AlikeWorlds 0) := by
    refine Agree.bind (Agree.weaken (onHost_alike pick_alike) (fun _ _ hw => hw)
      (fun _ _ _ hw => hw) fun _ _ hw => hw.mono (Nat.zero_le _)) fun first => ?_
    refine Agree.bind (Agree.weaken (record_alike rfl) (fun _ _ hw => hw) (fun _ _ _ hw => hw)
      fun _ _ hw => hw.mono (Nat.zero_le _)) fun _ => ?_
    exact Agree.weaken (episodeLoop_alike hplayer 9 first initialBoard none nofun)
      (fun _ _ hw => hw.mono empties_initialBoard.le) (fun _ _ _ hw => hw) fun _ _ hw => hw
  have hw := hagree w w ⟨Alike.refl 9 w.host, rfl⟩
  have hunread := runEpisode_unread G opponent rng w
  have hrows : ∀ (h : Host ρ ξ) s a reward sNext b, b ≠ s →
      (exec (update s a reward sNext) h).2.row b = h.row b :=
    fun h s a reward sNext b hbs => row_update_of_ne a reward sNext h hbs
  rcases hx : exec (runEpisode G opponent rng true) w with ⟨_ | _, w₁⟩ <;>
    rcases hy : exec (runEpisode G opponent rng false) w with ⟨_ | _, w₂⟩ <;> rw [hx, hy] at hw <;>
    rw [hx] at hunread
  · exact ⟨congrArg Except.error hw.1, hw.2.2, hw.2.1.gens, hunread, hrows⟩
  · exact hw.elim
  · exact hw.elim
  · exact ⟨congrArg Except.ok hw.1, hw.2.2, hw.2.1.gens, hunread, hrows⟩

theorem runEpisode_undisturbed_selfPlay :
    (exec (runEpisode lastGen (selfPlayOpponent lastGen) 0 true) (greedyWorld ∅)).1
      = (exec (runEpisode lastGen (selfPlayOpponent lastGen) 0 false) (greedyWorld ∅)).1 :=
  (runEpisode_undisturbed lastGen (selfPlayOpponent lastGen) 0 (Or.inr rfl) (greedyWorld ∅)).1

end MyTests.RlTtt
