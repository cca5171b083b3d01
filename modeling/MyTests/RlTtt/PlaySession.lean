/-
MyTests/RlTtt/PlaySession.lean

The interactive game is the game of training.

A session of `_cmd_play` records its plies with the boards that the movers see.
Let a scripted opponent answer each of these boards as the human did: the loop
of `_run_episode` against it plays the same plies, hands the agent the same
boards and returns what the session announces (`playLoop_session`).

The session tests for the end of the game before a move and the episode after
it, so a session is followed to the test that ends it (`exec_playLoop_over`).
-/
import MyTests.RlTtt.TableInvariant

namespace MyTests.RlTtt

open Lib

variable {ρ ξ : Type} {G : Generator ρ} {py : TextBuiltins}

/-! ### What a round does -/

variable {absolute : Board} {fuel : ℕ} {w : World ρ ξ} {inputs printed : List String}

/-- What the session says at the end of a game of value `r` for the agent. -/
def verdict (r : ℤ) : String :=
  if r = 1 then "Agent wins!" else if r = -1 then "You win!" else "Draw."

/-- A cell that the human may take, as typed; `none` is rejected. -/
def humanMove (py : TextBuiltins) (absolute : Board) (line : String) : Option (Fin 9) :=
  (py.int (py.strip line)).bind fun a => (legalMoves absolute).find? fun i : Fin 9 => ((i : ℕ) : ℤ) = a

theorem exec_onWorld {α : Type} {x : Session ρ ξ α} {w' : World ρ ξ} {a : α} {c : Console ρ ξ}
    (hx : exec x c.world = (.ok a, w')) : exec (onWorld x) c = (.ok a, { c with world := w' }) := by
  rw [onWorld, exec_onPart, hx]

theorem exec_print (line : String) (c : Console ρ ξ) :
    exec (print line) c = (.ok (), { c with printed := c.printed ++ [line] }) := rfl

/-- On a finished board the session announces and ends. -/
theorem exec_playLoop_over (hdone : (isTerminal absolute).1 = true) (humanToMove : Bool) :
    exec (playLoop G py (fuel + 1) absolute humanToMove) ⟨w, inputs, printed⟩
      = (.ok (), ⟨w, inputs,
          printed ++ [renderHumanView absolute] ++ [verdict (-(isTerminal absolute).2)]⟩) := by
  unfold playLoop
  rw [exec_bind_ok (exec_print _ _)]
  unfold isTerminal at hdone ⊢
  rcases winner_cases absolute with hw | hw | hw
  · by_cases hl : legalMoves absolute = []
    · simp only [hw, hl]
      rfl
    · simp [hw, hl] at hdone
  · simp only [hw]
    rfl
  · simp only [hw]
    rfl

variable (hgo : isTerminal absolute = (false, 0))
include hgo

theorem exec_playLoop_eof :
    exec (playLoop G py (fuel + 1) absolute true) ⟨w, [], printed⟩
      = (.ok (), ⟨w, [], printed ++ [renderHumanView absolute] ++ ["Your move (0-8): "] ++ ["\nbye"]⟩) := by
  obtain ⟨hw, hl⟩ := isTerminal_eq_false.mp hgo
  unfold playLoop
  rw [exec_bind_ok (exec_print _ _)]
  simp only [hw, hl]
  rfl

/-- A rejected line leaves the board and the turn as they are. -/
theorem exec_playLoop_rejected {line : String} (hrej : humanMove py absolute line = none) :
    ∃ message, exec (playLoop G py (fuel + 1) absolute true) ⟨w, line :: inputs, printed⟩
      = exec (playLoop G py fuel absolute true)
          ⟨w, inputs, printed ++ [renderHumanView absolute] ++ ["Your move (0-8): "] ++ [message]⟩ := by
  obtain ⟨hw, hl⟩ := isTerminal_eq_false.mp hgo
  unfold humanMove at hrej
  have hinput : exec (input "Your move (0-8): ")
      (⟨w, line :: inputs, printed ++ [renderHumanView absolute]⟩ : Console ρ ξ)
      = (.ok (some line),
          ⟨w, inputs, printed ++ [renderHumanView absolute] ++ ["Your move (0-8): "]⟩) := rfl
  conv => enter [1, message, 1]; unfold playLoop
  simp only [hw, hl, exec_bind_ok (exec_print _ _), zero_ne_one, if_false, if_true,
    show ¬ (0 : ℤ) = -1 by decide]
  rw [exec_bind_ok hinput]
  cases hint : py.int (py.strip line) with
  | none =>
      simp only [hint, exec_bind_ok (exec_print _ _)]
      exact ⟨_, rfl⟩
  | some a =>
      rw [hint, Option.bind_some] at hrej
      simp only [hint, hrej, exec_bind_ok (exec_print _ _)]
      exact ⟨_, rfl⟩

/-- An accepted line is a move of the human. -/
theorem exec_playLoop_accepted {line : String} {i : Fin 9}
    (hacc : humanMove py absolute line = some i) :
    exec (playLoop G py (fuel + 1) absolute true) ⟨w, line :: inputs, printed⟩
      = exec (playLoop G py fuel (place absolute i) false)
          ⟨⟨w.host, w.trace ++ [.ply false false absolute (i : ℕ)]⟩, inputs,
            printed ++ [renderHumanView absolute] ++ ["Your move (0-8): "]⟩ := by
  obtain ⟨hw, hl⟩ := isTerminal_eq_false.mp hgo
  have hinput : exec (input "Your move (0-8): ")
      (⟨w, line :: inputs, printed ++ [renderHumanView absolute]⟩ : Console ρ ξ)
      = (.ok (some line),
          ⟨w, inputs, printed ++ [renderHumanView absolute] ++ ["Your move (0-8): "]⟩) := rfl
  obtain ⟨a, hint, hfind⟩ := Option.bind_eq_some_iff.mp hacc
  conv_lhs => unfold playLoop
  simp only [hw, hl, exec_bind_ok (exec_print _ _), zero_ne_one, if_false, if_true,
    show ¬ (0 : ℤ) = -1 by decide]
  rw [exec_bind_ok hinput]
  simp only [hint, hfind]
  rw [exec_bind_ok (exec_onWorld (exec_record _))]

omit hgo in
theorem humanMove_legal {line : String} {i : Fin 9} (hacc : humanMove py absolute line = some i) :
    absolute i = 0 := by
  obtain ⟨a, -, hfind⟩ := Option.bind_eq_some_iff.mp hacc
  exact mem_legalMoves.mp (List.mem_of_find?_eq_some hfind)

/-- A move of the agent. -/
theorem exec_playLoop_agent {k : Host ρ ξ} {a : Fin 9}
    (hselect : exec (selectAction G (flipPerspective absolute)) w.host = (.ok a, k)) :
    ∃ message, exec (playLoop G py (fuel + 1) absolute false) ⟨w, inputs, printed⟩
      = exec (playLoop G py fuel (placeAgent absolute a) true)
          ⟨⟨k, w.trace ++ [.ply false true (flipPerspective absolute) (a : ℕ)]⟩, inputs,
            printed ++ [renderHumanView absolute] ++ [message]⟩ := by
  obtain ⟨hw, hl⟩ := isTerminal_eq_false.mp hgo
  conv => enter [1, message, 1]; unfold playLoop
  simp only [hw, hl, exec_bind_ok (exec_print _ _), zero_ne_one, if_false, Bool.false_eq_true,
    show ¬ (0 : ℤ) = -1 by decide]
  rw [exec_bind_ok (exec_onWorld (exec_onHost hselect)), exec_bind_ok (exec_onWorld (exec_record _)),
    exec_bind_ok (exec_print _ _)]
  exact ⟨_, rfl⟩

omit hgo

/-! ### A session beside an episode -/

/-- An opponent that answers by a function of the board. -/
def humanPlayer (human : Board → Fin 9) : Player ρ ξ := fun board _ => pure ((human board : ℕ) : ℤ)

/-- The function answers as the human did. -/
def Follows (human : Board → Fin 9) (ps : List Ply) : Prop :=
  ∀ p ∈ ps, p.byTrainee = false → human p.board = p.action

/-- What a session that goes on from `board` leaves behind: `ps` are its plies,
and either it announces the value of the episode that they make, or the input
ended and the plies are the beginning of that episode. -/
structure SessionPost (G : Generator ρ) (rng : GenId) (w : World ρ ξ) (traineeToMove : Bool)
    (board : Board) (c : Console ρ ξ) (ps : List Ply) : Prop where
  trace : c.world.trace = w.trace ++ ps.map (Ply.event false)
  length : ps.length ≤ empties board
  ongoing : ∀ p ∈ ps, isTerminal p.board = (false, 0) ∧ empties p.board ≤ empties board
  falling : ps.Pairwise fun p q => empties q.board < empties p.board
  outcome :
    (∃ r, (r = 1 ∨ r = -1 ∨ r = 0) ∧ c.printed.getLast? = some (verdict r) ∧
      ∀ human, Follows human ps → ∀ last fuel, empties board ≤ fuel →
        exec (episodeLoop G (humanPlayer human) rng false fuel traineeToMove board last) w
          = (.ok r, c.world)) ∨
    (c.printed.getLast? = some "\nbye" ∧
      ∀ human, Follows human ps → ∀ last fuel, empties board ≤ fuel →
        c.world.trace <+:
          (exec (episodeLoop G (humanPlayer human) rng false fuel traineeToMove board last) w).2.trace)

variable {board : Board} {i : Fin 9} {c : Console ρ ξ} {ps : List Ply} {rng : GenId}
  {human : Board → Fin 9}

theorem Follows.tail {p : Ply} (h : Follows human (p :: ps)) : Follows human ps :=
  fun q hq => h q (List.mem_cons_of_mem _ hq)

theorem exec_humanPlayer (h : Host ρ ξ) (hmove : human board = i) :
    exec (humanPlayer human board (some rng)) h = (.ok ((i : ℕ) : ℤ), h) := by
  rw [← hmove]
  rfl

/-- A move that ends the game. -/
theorem SessionPost.of_end {w' : World ρ ξ} {t : Bool} (ha : board i = 0)
    (hgo : isTerminal board = (false, 0)) (htrace : w'.trace = w.trace ++ [Ply.event false ⟨t, board, i⟩])
    (hsaid : c.printed.getLast? = some (verdict ((if t then 1 else -1) * (isTerminal (place board i)).2)))
    (hworld : c.world = w')
    (hexec : ∀ human : Board → Fin 9, (t = false → human board = i) → ∀ last fuel,
      exec (episodeLoop G (humanPlayer human) rng false (fuel + 1) t board last) w
        = (.ok ((if t then 1 else -1) * (isTerminal (place board i)).2), w')) :
    SessionPost G rng w t board c [⟨t, board, i⟩] where
  trace := by rw [hworld]; exact htrace
  length := List.length_pos_of_mem (mem_legalMoves.mpr ha)
  ongoing := by
    rintro p hp
    obtain rfl := List.mem_singleton.mp hp
    exact ⟨hgo, le_rfl⟩
  falling := List.pairwise_singleton _ _
  outcome := by
    refine Or.inl ⟨_, ?_, hsaid, fun human hf last fuel hle => ?_⟩
    · rcases isTerminal_snd_cases (place board i) with e | e | e <;> cases t <;> simp [e]
    · obtain ⟨n, rfl⟩ : ∃ n, fuel = n + 1 := by
        have hplace := empties_place ha
        exact ⟨fuel - 1, by omega⟩
      rw [hworld]
      exact hexec human (fun ht => hf _ (List.mem_singleton_self _) ht) last n

/-- A move after which the session goes on. -/
theorem SessionPost.of_cons {w₁ : World ρ ξ} {t : Bool} (ha : board i = 0)
    (hgo : isTerminal board = (false, 0)) (htrace : w₁.trace = w.trace ++ [Ply.event false ⟨t, board, i⟩])
    (hexec : ∀ human : Board → Fin 9, (t = false → human board = i) → ∀ last fuel, ∃ last',
      exec (episodeLoop G (humanPlayer human) rng false (fuel + 1) t board last) w
        = exec (episodeLoop G (humanPlayer human) rng false fuel (!t) (flipPerspective (place board i))
            last') w₁)
    (h : SessionPost G rng w₁ (!t) (flipPerspective (place board i)) c ps) :
    SessionPost G rng w t board c (⟨t, board, i⟩ :: ps) := by
  have hless := empties_flip_place ha
  -- the move has filled a cell, so what is left suffices for the rest
  have hfuel : ∀ fuel, empties board ≤ fuel →
      ∃ n, fuel = n + 1 ∧ empties (flipPerspective (place board i)) ≤ n :=
    fun fuel hle => ⟨fuel - 1, by omega, by omega⟩
  refine ⟨?_, ?_, ?_, ?_, ?_⟩
  · rw [h.trace, htrace]
    simp
  · have hlength := h.length
    simp only [List.length_cons]
    omega
  · rintro p hp
    rcases List.mem_cons.mp hp with rfl | hp
    · exact ⟨hgo, le_rfl⟩
    · exact ⟨(h.ongoing p hp).1, by have hle := (h.ongoing p hp).2; omega⟩
  · refine List.pairwise_cons.mpr ⟨fun q hq => ?_, h.falling⟩
    have hle := (h.ongoing q hq).2
    show empties q.board < empties board
    omega
  · -- the episode takes the same move first, then follows the rest of the session
    rcases h.outcome with ⟨r, hr, hsaid, hplays⟩ | ⟨hsaid, hplays⟩
    · refine Or.inl ⟨r, hr, hsaid, fun human hf last fuel hle => ?_⟩
      obtain ⟨n, rfl, hn⟩ := hfuel fuel hle
      obtain ⟨last', hstep⟩ := hexec human (fun ht => hf _ List.mem_cons_self ht) last n
      rw [hstep]
      exact hplays human hf.tail last' n hn
    · refine Or.inr ⟨hsaid, fun human hf last fuel hle => ?_⟩
      obtain ⟨n, rfl, hn⟩ := hfuel fuel hle
      obtain ⟨last', hstep⟩ := hexec human (fun ht => hf _ List.mem_cons_self ht) last n
      rw [hstep]
      exact hplays human hf.tail last' n hn

/-- An episode only adds to the record. -/
theorem episodeLoop_trace_prefix (human : Board → Fin 9) (rng : GenId) (fuel : ℕ)
    (traineeToMove : Bool) (board : Board) (last : Option (Board × Fin 9)) (w : World ρ ξ) :
    w.trace <+:
      (exec (episodeLoop G (humanPlayer human) rng false fuel traineeToMove board last) w).2.trace := by
  have hhost : ∀ {α : Type} (x : Method ρ ξ α), Keeps (fun v : World ρ ξ => w.trace <+: v.trace)
      (onHost x) := by
    intro α x v hv
    rw [onHost, exec_onPart]
    rcases (exec x v.host).1 with _ | _ <;> exact hv
  have hrule : LoopRule G (fun v : World ρ ξ => w.trace <+: v.trace) (fun _ => True) false
      (humanPlayer human) rng :=
    { closed := fun _ _ _ _ _ => trivial
      select := fun b _ => hhost _
      player := fun b _ => hhost _
      ply := fun _ _ _ => Sat.modify fun v hv => hv.trans (List.prefix_append _ _)
      update := fun h => absurd h Bool.false_ne_true }
  exact (hrule.episodeLoop fuel traineeToMove board last trivial fun h =>
    absurd h Bool.false_ne_true).state (List.prefix_refl _)

/-! The plies of an episode without training, as world transformers. -/

theorem exec_trainee_end {k : Host ρ ξ} (hselect : exec (selectAction G board) w.host = (.ok i, k))
    (ha : board i = 0) (hdone : (isTerminal (place board i)).1 = true)
    (human : Board → Fin 9) (last : Option (Board × Fin 9)) (fuel : ℕ) :
    exec (episodeLoop G (humanPlayer human) rng false (fuel + 1) true board last) w
      = (.ok (1 * (isTerminal (place board i)).2), ⟨k, w.trace ++ [Ply.event false ⟨true, board, i⟩]⟩) := by
  rw [exec_episodeLoop_trainee false fuel hselect ha, if_pos hdone, one_mul]
  rfl

theorem exec_human_end (hmove : human board = i) (ha : board i = 0)
    (hdone : (isTerminal (place board i)).1 = true) (last : Option (Board × Fin 9)) (fuel : ℕ) :
    exec (episodeLoop G (humanPlayer human) rng false (fuel + 1) false board last) w
      = (.ok (-1 * (isTerminal (place board i)).2),
          ⟨w.host, w.trace ++ [Ply.event false ⟨false, board, i⟩]⟩) := by
  rw [exec_episodeLoop_opponent false fuel (exec_humanPlayer w.host hmove) ha, if_pos hdone,
    neg_one_mul]
  rfl

theorem exec_trainee_goOn {k : Host ρ ξ} (hselect : exec (selectAction G board) w.host = (.ok i, k))
    (ha : board i = 0) (hdone : (isTerminal (place board i)).1 = false)
    (human : Board → Fin 9) (last : Option (Board × Fin 9)) (fuel : ℕ) :
    exec (episodeLoop G (humanPlayer human) rng false (fuel + 1) true board last) w
      = exec (episodeLoop G (humanPlayer human) rng false fuel false (flipPerspective (place board i))
          (some (board, i))) ⟨k, w.trace ++ [Ply.event false ⟨true, board, i⟩]⟩ := by
  rw [exec_episodeLoop_trainee false fuel hselect ha, hdone]
  rfl

theorem exec_human_goOn (hmove : human board = i) (ha : board i = 0)
    (hdone : (isTerminal (place board i)).1 = false) (last : Option (Board × Fin 9)) (fuel : ℕ) :
    exec (episodeLoop G (humanPlayer human) rng false (fuel + 1) false board last) w
      = exec (episodeLoop G (humanPlayer human) rng false fuel true (flipPerspective (place board i))
          last) ⟨w.host, w.trace ++ [Ply.event false ⟨false, board, i⟩]⟩ := by
  rw [exec_episodeLoop_opponent false fuel (exec_humanPlayer w.host hmove) ha, hdone]
  rfl

/-! ### The simulation -/

theorem placeAgent_eq (absolute : Board) (a : Fin 9) :
    placeAgent absolute a = flipPerspective (place (flipPerspective absolute) a) :=
  view_agent_move absolute a

/-- **A session is an episode.**  From a board on which the game goes on, the
session returns, and its plies are those of an episode against the human. -/
theorem playLoop_session (rng : GenId) (fuel : ℕ) :
    ∀ absolute humanToMove (w : World ρ ξ) inputs printed, w.Playable →
      isTerminal absolute = (false, 0) →
      2 * inputs.length + (if humanToMove then 2 else 3) ≤ fuel →
      ∃ c ps, exec (playLoop G py fuel absolute humanToMove) ⟨w, inputs, printed⟩ = (.ok (), c) ∧
        c.world.Playable ∧ SessionPost G rng w (!humanToMove) (view humanToMove absolute) c ps := by
  induction fuel with
  | zero =>
      intro absolute humanToMove w inputs printed _ _ hfuel
      cases humanToMove <;> simp at hfuel
  | succ fuel ih =>
      intro absolute humanToMove w inputs printed hw hgo hfuel
      cases humanToMove with
      | true =>
          cases inputs with
          | nil =>
              refine ⟨_, [], exec_playLoop_eof hgo, hw, ⟨(List.append_nil _).symm, Nat.zero_le _,
                nofun, List.Pairwise.nil, Or.inr ⟨List.getLast?_concat, ?_⟩⟩⟩
              exact fun human _ last fuel _ => episodeLoop_trace_prefix human rng fuel _ _ last w
          | cons line inputs =>
              simp only [List.length_cons, if_true] at hfuel
              cases hmove : humanMove py absolute line with
              | none =>
                  -- the line is lost, and nothing else
                  obtain ⟨message, hexec⟩ := exec_playLoop_rejected (G := G) (w := w) hgo hmove
                  rw [hexec]
                  exact ih absolute true w inputs _ hw hgo (by simp only [if_true]; omega)
              | some i =>
                  have ha : absolute i = 0 := humanMove_legal hmove
                  rw [exec_playLoop_accepted hgo hmove]
                  cases hdone : (isTerminal (place absolute i)).1 with
                  | true =>
                      obtain ⟨n, rfl⟩ : ∃ n, fuel = n + 1 := ⟨fuel - 1, by omega⟩
                      refine ⟨_, [⟨false, absolute, i⟩], exec_playLoop_over hdone false, hw, ?_⟩
                      refine SessionPost.of_end ha hgo rfl ?_ rfl ?_
                      · rw [List.getLast?_concat]
                        simp [view]
                      · exact fun human hf last fuel => exec_human_end (hf rfl) ha hdone last fuel
                  | false =>
                      have hgo' := isTerminal_place_go hgo ha hdone
                      obtain ⟨c, ps, hexec, hc, hpost⟩ := ih (place absolute i) false
                        ⟨w.host, w.trace ++ [.ply false false absolute (i : ℕ)]⟩ inputs
                        (printed ++ [renderHumanView absolute] ++ ["Your move (0-8): "]) hw hgo'
                        (by simp only [Bool.false_eq_true, if_false]; omega)
                      refine ⟨c, ⟨false, absolute, i⟩ :: ps, hexec, hc, ?_⟩
                      refine SessionPost.of_cons ha hgo rfl ?_ hpost
                      exact fun human hf last fuel =>
                        ⟨last, exec_human_goOn (hf rfl) ha hdone last fuel⟩
      | false =>
          simp only [Bool.false_eq_true, if_false] at hfuel
          have hgov := isTerminal_flip_go hgo
          obtain ⟨a, k, hselect, hk, ha⟩ :=
            (selectAction_legal (G := G) (isTerminal_eq_false.mp hgov).2).exists hw
          obtain ⟨message, hexec⟩ := exec_playLoop_agent hgo hselect
          rw [hexec, placeAgent_eq]
          cases hdone : (isTerminal (place (flipPerspective absolute) a)).1 with
          | true =>
              obtain ⟨n, rfl⟩ : ∃ n, fuel = n + 1 := ⟨fuel - 1, by omega⟩
              have hover := isTerminal_flipPerspective (place (flipPerspective absolute) a)
              refine ⟨_, [⟨true, flipPerspective absolute, a⟩],
                exec_playLoop_over (by rw [hover]; exact hdone) true, hk, ?_⟩
              refine SessionPost.of_end ha hgov rfl ?_ rfl ?_
              · rw [List.getLast?_concat, hover]
                simp [view]
              · exact fun human _ last fuel => exec_trainee_end hselect ha hdone human last fuel
          | false =>
              have hgo' := isTerminal_flip_go (isTerminal_place_go hgov ha hdone)
              obtain ⟨c, ps, hexec', hc, hpost⟩ := ih
                (flipPerspective (place (flipPerspective absolute) a)) true
                ⟨k, w.trace ++ [.ply false true (flipPerspective absolute) (a : ℕ)]⟩ inputs
                (printed ++ [renderHumanView absolute] ++ [message]) hk hgo'
                (by simp only [if_true]; omega)
              refine ⟨c, ⟨true, flipPerspective absolute, a⟩ :: ps, hexec', hc, ?_⟩
              refine SessionPost.of_cons ha hgov rfl ?_ hpost
              exact fun human _ last fuel => ⟨_, exec_trainee_goOn hselect ha hdone human last fuel⟩

/-- The boards of a session are all different, so some opponent answers each of
them as the human did. -/
theorem exists_follows (hfall : ps.Pairwise fun p q => empties q.board < empties p.board) :
    ∃ human, Follows human ps := by
  induction ps with
  | nil => exact ⟨fun _ => 0, nofun⟩
  | cons p ps ih =>
      obtain ⟨hp, hps⟩ := List.pairwise_cons.mp hfall
      obtain ⟨human, hf⟩ := ih hps
      refine ⟨Function.update human p.board p.action, fun q hq ht => ?_⟩
      rcases List.mem_cons.mp hq with rfl | hq
      · exact Function.update_self _ _ _
      · have hne : q.board ≠ p.board := fun e => (hp q hq).ne (congrArg empties e)
        rw [Function.update_of_ne hne]
        exact hf q hq ht

/-- **Interactive play follows the game of training.**  For every table that the
agent can play with, every stream, first mover and input, the session returns
after at most nine accepted moves; it hands the agent the boards on which
`_run_episode` asks it against an opponent that answers as the human did, none
of them terminal; it announces what that episode returns; and a rejected line
changes neither the board nor the turn. -/
theorem cmdPlay_follows_episode (G : Generator ρ) (py : TextBuiltins) (rng : GenId) (humanFirst : Bool)
    (w : World ρ ξ) (hw : w.Playable) (inputs printed : List String) :
    (∃ c ps, exec (playLoop G py (playFuel ⟨w, inputs, printed⟩) initialBoard humanFirst)
          ⟨w, inputs, printed⟩ = (.ok (), c) ∧
        c.world.trace = w.trace ++ ps.map (Ply.event false) ∧ ps.length ≤ 9 ∧
        (∀ p ∈ ps, isTerminal p.board = (false, 0)) ∧ (∃ human, Follows human ps) ∧
        ((∃ r, (r = 1 ∨ r = -1 ∨ r = 0) ∧ c.printed.getLast? = some (verdict r) ∧
            ∀ human, Follows human ps →
              exec (episodeLoop G (humanPlayer human) rng false 9 (!humanFirst) initialBoard none) w
                = (.ok r, c.world)) ∨
          (c.printed.getLast? = some "\nbye" ∧ ∀ human, Follows human ps →
            c.world.trace <+:
              (exec (episodeLoop G (humanPlayer human) rng false 9 (!humanFirst) initialBoard none)
                w).2.trace))) ∧
      ∀ absolute fuel line, isTerminal absolute = (false, 0) → humanMove py absolute line = none →
        ∃ message, exec (playLoop G py (fuel + 1) absolute true) ⟨w, line :: inputs, printed⟩
          = exec (playLoop G py fuel absolute true) ⟨w, inputs,
              printed ++ [renderHumanView absolute] ++ ["Your move (0-8): "] ++ [message]⟩ := by
  refine ⟨?_, fun absolute fuel line hgo hrej => exec_playLoop_rejected hgo hrej⟩
  have hfuel : 2 * inputs.length + (if humanFirst then 2 else 3) ≤ playFuel ⟨w, inputs, printed⟩ := by
    show _ ≤ 2 * inputs.length + 3
    split <;> omega
  obtain ⟨c, ps, hexec, -, hpost⟩ := playLoop_session rng _ initialBoard humanFirst w inputs printed
    hw isTerminal_initialBoard hfuel
  -- the empty board looks the same from both sides
  have hview : view humanFirst initialBoard = initialBoard := by
    cases humanFirst <;> decide
  rw [hview] at hpost
  have hnine := empties_initialBoard.le
  refine ⟨c, ps, hexec, hpost.trace, hpost.length.trans hnine, fun p hp => (hpost.ongoing p hp).1,
    exists_follows hpost.falling, ?_⟩
  rcases hpost.outcome with ⟨r, hr, hsaid, hplays⟩ | ⟨hsaid, hplays⟩
  · exact Or.inl ⟨r, hr, hsaid, fun human hf => hplays human hf none 9 hnine⟩
  · exact Or.inr ⟨hsaid, fun human hf => hplays human hf none 9 hnine⟩

/-- Text built-ins that know one number. -/
def onlyZero : TextBuiltins := ⟨fun s => if s = "0" then some 0 else none, id, id⟩

/-- The board after the human has taken cell 0, as the agent sees it. -/
def zeroTaken : Board := flipPerspective (place initialBoard 0)

/-- A table that knows the answer to that. -/
def answerTable : QTable :=
  (∅ : QTable).insert zeroTaken fun i => if i = 0 then none else some (if i = 4 then 1 else 0)

theorem answerTable_playable : answerTable.Playable := by
  have hempty : QTable.Playable ∅ := fun b q hq => by cases hq
  refine QTable.Playable.insert hempty (by decide) fun _ => ?_
  exact rowMax_ne_none (i := 4) (Option.some_ne_none _)

theorem cmdPlay_follows_episode_answer : ∃ c, ∃ ps : List Ply,
    exec (playLoop lastGen onlyZero 7 initialBoard true) ⟨greedyWorld answerTable, ["0", "x"], []⟩
      = (.ok (), c) ∧
      c.world.trace = (greedyWorld answerTable).trace ++ ps.map (Ply.event false) ∧
      ps.length ≤ 9 := by
  obtain ⟨⟨c, ps, hexec, htrace, hlen, -⟩, -⟩ := cmdPlay_follows_episode lastGen onlyZero 0 true
    (greedyWorld answerTable) answerTable_playable ["0", "x"] []
  exact ⟨c, ps, hexec, htrace, hlen⟩

/-- With a number on an occupied cell the session lets the agent take the
human's cell, where the episode raises. -/
theorem cmdPlay_overwrites_cell :
    let table : QTable := AList.singleton zeroTaken fun i => if i = 0 then some 1 else none
    let session := exec (playLoop lastGen onlyZero 5 initialBoard true) ⟨greedyWorld table, ["0"], []⟩
    let episode := exec (episodeLoop lastGen (humanPlayer fun _ => 0) 0 false 9 false initialBoard none)
      (greedyWorld table)
    session.1 = .ok () ∧ session.2.world.trace.length = 2 ∧
      episode.1 = .error (.valueError "action 0 targets occupied cell (value=-1)") ∧
      episode.2.trace.length = 1 := by
  decide +kernel

end MyTests.RlTtt
