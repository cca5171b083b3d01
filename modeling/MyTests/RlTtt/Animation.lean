/-
MyTests/RlTtt/Animation.lean

The page `web/qstate-animation.html`: any number of panels, each with its own
Play and Reset button and its own interval timer, playing the log of one state
in 600 frames.

Three kinds of event reach the page, in any order: a click on a button that is
not disabled, and a tick of a live interval.  A handler that throws ends the
session in an error.  `Panel.after` says what each event does to its panel;
`fire_eq` that the handlers do that, throw nothing, and leave the live
intervals to be exactly those that the panels hold.  Both main results are
read off it: what holds of the page after any session (`animation_sound`), and
what a panel shows that is left alone while it plays (`playback`).

Arithmetic is exact, as in the rest of the development; the log's total of
150000 is a multiple of the number of frames, where the page's own division is
exact too.  Left out: the look of the page (layout, phase marker), and the
wall-clock time between two ticks.
-/
import MyTests.Lib.Transition
import MyTests.RlTtt.QStateLog

namespace MyTests.RlTtt

open Lib

namespace Animation

/-! ### What a panel shows -/

/-- A `qvalSpans[i]` with the background of its cell; `none` is white. -/
structure QCell where
  background : Option (ℕ × ℤ)
  textContent : Option ℚ
  color : String
deriving DecidableEq

/-- `qColor(q)`: hue and lightness. -/
def qColor : Option ℚ → Option (ℕ × ℤ)
  | none => none
  | some q =>
      if q = 0 then none
      else
        let clamped := max (-1) (min 1 q)
        let lightness := ⌊100 - |clamped| * 60 + 1 / 2⌋
        let hue := if clamped < 0 then 120 else 0
        some (hue, lightness)

/-- `textColor(q)` -/
def textColor : Option ℚ → String
  | none => "#222"
  | some q => if |q| > 1 / 2 then "#fff" else "#222"

/-- A cell as painted for `q`: `null` shows no text. -/
def QCell.of (q : Option ℚ) : QCell := ⟨qColor q, q, textColor q⟩

/-- A cell that `buildPanel` and `resetPanel` write: `0.000` on white. -/
def QCell.zero : QCell := ⟨none, some 0, "#222"⟩

/-- The cells without a piece, the filled part of the bar in percent, and the two numbers
of the label. -/
structure View where
  cells : Fin 9 → Option QCell
  progressFill : ℚ
  epLabel : ℕ × ℕ

/-! ### Panels -/

inductive Glyph where
  | X
  | O
deriving DecidableEq

def TOTAL_FRAMES : ℕ := 600

/-- `TOTAL_EPISODES`, until a log is loaded. -/
def TOTAL_EPISODES : ℕ := 150000

structure Panel where
  pieceMap : Fin 9 → Option Glyph
  snapshots : List Snapshot
  disabled : Bool
  view : View
  btnPlay : String
  frameIndex : ℕ
  playing : Bool
  timerId : Option ℕ

/-- The free cells all at zero. -/
def blankCells (pieceMap : Fin 9 → Option Glyph) (i : Fin 9) : Option QCell :=
  if (pieceMap i).isSome then none else some .zero

/-- `buildPanel(label, pieces, phaseBoundary)` -/
def buildPanel (pieceMap : Fin 9 → Option Glyph) : Panel where
  pieceMap := pieceMap
  snapshots := []
  disabled := true
  view := ⟨blankCells pieceMap, 0, (0, TOTAL_EPISODES)⟩
  btnPlay := "Play"
  frameIndex := 0
  playing := false
  timerId := none

/-- `Math.min(TOTAL_EPISODES, Math.ceil((p.frameIndex + 1) * EPISODES_PER_FRAME))` -/
def targetEp (total frameIndex : ℕ) : ℕ :=
  min total ⌈((frameIndex + 1 : ℕ) : ℚ) * ((total : ℚ) / (TOTAL_FRAMES : ℚ))⌉₊

def Panel.setCells (p : Panel) (cells : Fin 9 → Option QCell) : Panel :=
  { p with view := { p.view with cells := cells } }

/-- One round of the loop of `renderPanel`: `undefined.toFixed` is a type error. -/
def paint (qs : List (Option ℚ)) (p : Panel) (i : Fin 9) : Except JsErr Panel :=
  if (p.pieceMap i).isSome then .ok p
  else match qs[i.val]? with
    | none => .error .typeError
    | some q => .ok (p.setCells (Function.update p.view.cells i (some (.of q))))

/-- `renderPanel(p)` -/
def renderPanel (total : ℕ) (p : Panel) : Except JsErr Panel := do
  let ep := targetEp total p.frameIndex
  let qs ← getQValues (p.snapshots.length + 1) p.snapshots ep
  let p ← (List.finRange 9).foldlM (paint qs) p
  pure { p with view := { p.view with
    progressFill := (ep : ℚ) / total * 100
    epLabel := (ep, total) } }

/-! ### The page -/

/-- The panels, the live intervals by their ids, and the id that the browser gives next. -/
structure Page (n : ℕ) where
  panel : Fin n → Panel
  interval : ℕ → Option (Fin n)
  nextId : ℕ

variable {n : ℕ}

def Page.setPanel (s : Page n) (i : Fin n) (p : Panel) : Page n :=
  { s with panel := Function.update s.panel i p }

def Page.clearInterval (s : Page n) (id : ℕ) : Page n :=
  { s with interval := Function.update s.interval id none }

/-- `setInterval`, for the callback of panel `i`; the new id is the old `nextId`. -/
def Page.setInterval (s : Page n) (i : Fin n) : Page n :=
  { s with interval := Function.update s.interval s.nextId (some i), nextId := s.nextId + 1 }

/-- `stopPanel(p)` -/
def Page.stopPanel (s : Page n) (i : Fin n) : Page n :=
  match (s.panel i).timerId with
  | none => s
  | some id => (s.clearInterval id).setPanel i { s.panel i with timerId := none }

/-- `startPanel(p)` -/
def Page.startPanel (s : Page n) (i : Fin n) : Page n :=
  let s := s.stopPanel i
  (s.setInterval i).setPanel i { s.panel i with timerId := some s.nextId }

/-- The first line of `playPanel`: from the last frame back to the first. -/
def rewind (total : ℕ) (p : Panel) : Except JsErr Panel :=
  if p.frameIndex ≥ TOTAL_FRAMES - 1 then renderPanel total { p with frameIndex := 0 } else .ok p

/-- `playPanel(p)` -/
def Page.playPanel (total : ℕ) (s : Page n) (i : Fin n) : Except JsErr (Page n) := do
  let p ← rewind total (s.panel i)
  pure ((s.setPanel i { p with playing := true, btnPlay := "Pause" }).startPanel i)

/-- `pausePanel(p)` -/
def Page.pausePanel (s : Page n) (i : Fin n) : Page n :=
  let s := (s.setPanel i { s.panel i with playing := false }).stopPanel i
  s.setPanel i { s.panel i with btnPlay := "Play" }

/-- `resetPanel(p)` -/
def Page.resetPanel (total : ℕ) (s : Page n) (i : Fin n) : Page n :=
  let s := (s.setPanel i { s.panel i with frameIndex := 0, playing := false }).stopPanel i
  let p := s.panel i
  s.setPanel i { p with
    btnPlay := "Play"
    view :=
      { cells := fun c => if (p.pieceMap c).isSome then p.view.cells c else some .zero
        progressFill := 0
        epLabel := (0, total) } }

/-- The first `if` of the callback of `startPanel`: on to the next frame. -/
def advance (total : ℕ) (p : Panel) : Except JsErr Panel :=
  if p.frameIndex < TOTAL_FRAMES - 1 then
    renderPanel total { p with frameIndex := p.frameIndex + 1 }
  else .ok p

/-- Its second `if`: a panel on the last frame stops. -/
def Page.halt (s : Page n) (i : Fin n) : Page n :=
  if (s.panel i).frameIndex ≥ TOTAL_FRAMES - 1 then
    let s := (s.setPanel i { s.panel i with playing := false }).stopPanel i
    s.setPanel i { s.panel i with btnPlay := "Play" }
  else s

/-- The callback that `startPanel` gives to `setInterval`. -/
def Page.tick (total : ℕ) (s : Page n) (i : Fin n) : Except JsErr (Page n) := do
  let p ← advance total (s.panel i)
  pure ((s.setPanel i p).halt i)

/-- The page with its data loaded: `cases` are the logs of the first panels; the buttons of
the others stay disabled. -/
def Page.load (pieces : Fin n → Fin 9 → Option Glyph) (cases : List (List Snapshot)) :
    Page n where
  panel i :=
    match cases[i.val]? with
    | none => buildPanel (pieces i)
    | some snapshots =>
        { buildPanel (pieces i) with snapshots := snapshots, disabled := false }
  interval _ := none
  nextId := 0

/-! ### Sessions -/

inductive Event (n : ℕ) where
  | play (i : Fin n)
  | reset (i : Fin n)
  | tick (id : ℕ) (i : Fin n)
deriving DecidableEq

/-- The panel of an event. -/
def Event.on : Event n → Fin n
  | play i => i
  | reset i => i
  | tick _ i => i

def Page.enabled (s : Page n) : Event n → Bool
  | .play i => !(s.panel i).disabled
  | .reset i => !(s.panel i).disabled
  | .tick id i => s.interval id = some i

/-- The handler of an event. -/
def Page.fire (total : ℕ) (s : Page n) : Event n → Except JsErr (Page n)
  | .play i => if (s.panel i).playing then .ok (s.pausePanel i) else s.playPanel total i
  | .reset i => .ok (s.resetPanel total i)
  | .tick _ i => s.tick total i

/-- One event; nothing happens on a page after an error. -/
def act (total : ℕ) (e : Event n) :
    Except JsErr (Page n) → Option (List (Event n) × Except JsErr (Page n))
  | .error _ => none
  | .ok s => if s.enabled e then some ([e], s.fire total e) else none

def Step (total : ℕ) (s : Except JsErr (Page n)) (es : List (Event n))
    (t : Except JsErr (Page n)) : Prop :=
  StepOf (act total) s es t

/-! ### What each event does to its panel -/

/-- The row shown at an episode: that of the log, or the one `getQValues` makes up. -/
def rowAt (snapshots : List Snapshot) (ep : ℕ) : List (Option ℚ) :=
  (inForce Snapshot.ep Snapshot.q snapshots ep).getD
    [some 0, some 0, some 0, some 0, none, some 0, some 0, some 0, some 0]

/-- The view of a frame. -/
def Panel.viewOf (total : ℕ) (p : Panel) (frame : ℕ) : View where
  cells i :=
    if (p.pieceMap i).isSome then none
    else some (.of ((rowAt p.snapshots (targetEp total frame))[i.val]?.getD none))
  progressFill := (targetEp total frame : ℚ) / total * 100
  epLabel := (targetEp total frame, total)

/-- The view after a reset. -/
def Panel.viewReset (total : ℕ) (p : Panel) : View := ⟨blankCells p.pieceMap, 0, (0, total)⟩

/-- A panel that shows a frame. -/
def Panel.showing (total : ℕ) (p : Panel) (frame : ℕ) : Panel :=
  { p with frameIndex := frame, view := p.viewOf total frame }

/-- A panel that plays, on the interval `id`. -/
def Panel.started (p : Panel) (id : ℕ) : Panel :=
  { p with playing := true, btnPlay := "Pause", timerId := some id }

/-- A panel that does not play. -/
def Panel.stopped (p : Panel) : Panel :=
  { p with playing := false, btnPlay := "Play", timerId := none }

/-- The panel that Play starts from. -/
def Panel.rewound (total : ℕ) (p : Panel) : Panel :=
  if p.frameIndex ≥ TOTAL_FRAMES - 1 then p.showing total 0 else p

/-- The panel one frame on, if there is one. -/
def Panel.advanced (total : ℕ) (p : Panel) : Panel :=
  if p.frameIndex < TOTAL_FRAMES - 1 then p.showing total (p.frameIndex + 1) else p

/-- The panel stopped, if it is at its last frame. -/
def Panel.halted (p : Panel) : Panel :=
  if p.frameIndex ≥ TOTAL_FRAMES - 1 then p.stopped else p

/-- The panel after an event; `id` is the interval that it starts, if it does. -/
def Panel.after (total : ℕ) (p : Panel) (id : ℕ) : Event n → Panel
  | .play _ => if p.playing then p.stopped else (p.rewound total).started id
  | .reset _ => { p with frameIndex := 0, view := p.viewReset total }.stopped
  | .tick _ _ => (p.advanced total).halted

/-- A log as the writer leaves it: increasing episodes, nine values in a row, and no longer than
the reader's bisection can halve. -/
structure LogOk (snapshots : List Snapshot) : Prop where
  increasing : snapshots.Pairwise fun a b => a.ep < b.ep
  nine : ∀ s ∈ snapshots, s.q.length = 9
  fits : snapshots.length ≤ 2 ^ 31

theorem LogOk.getQValues {snapshots : List Snapshot} (h : LogOk snapshots) (ep : ℕ) :
    getQValues (snapshots.length + 1) snapshots ep = .ok (rowAt snapshots ep) := by
  unfold MyTests.RlTtt.getQValues rowAt
  rw [getQValuesLoop_eq h.increasing h.fits _ 0 _ none Bracket.init (by omega)]
  rfl

theorem LogOk.length_rowAt {snapshots : List Snapshot} (h : LogOk snapshots) (ep : ℕ) :
    (rowAt snapshots ep).length = 9 := by
  unfold rowAt
  cases hrow : inForce Snapshot.ep Snapshot.q snapshots ep with
  | none => rfl
  | some q =>
      obtain ⟨before, s, after, rfl, -, -, rfl⟩ := exists_of_inForce_eq_some h.increasing hrow
      exact h.nine s (by simp)

/-! ### The loop of `renderPanel` -/

/-- The cells after the loop has been over `is`. -/
def paintedCells (qs : List (Option ℚ)) (p : Panel) (is : List (Fin 9)) (i : Fin 9) :
    Option QCell :=
  if i ∈ is ∧ (p.pieceMap i).isNone then some (.of (qs[i.val]?.getD none)) else p.view.cells i

theorem foldlM_paint {qs : List (Option ℚ)} (hlen : qs.length = 9) (is : List (Fin 9))
    (p : Panel) : is.foldlM (paint qs) p = .ok (p.setCells (paintedCells qs p is)) := by
  induction is generalizing p with
  | nil =>
      have hcells : paintedCells qs p [] = p.view.cells := by
        funext i
        simp [paintedCells]
      rw [hcells]
      rfl
  | cons j is ih =>
      rw [List.foldlM_cons]
      by_cases hpiece : (p.pieceMap j).isSome
      -- a cell with a piece has no value to show
      · have hpaint : paint qs p j = .ok p := if_pos hpiece
        have hcells : paintedCells qs p (j :: is) = paintedCells qs p is := by
          funext i
          by_cases hij : i = j
          · subst hij
            simp [paintedCells, Option.isSome_iff_ne_none.mp hpiece]
          · simp [paintedCells, hij]
        rw [hpaint, hcells]
        exact ih p
      -- the nine values reach to every cell, so nothing is thrown
      · obtain ⟨q, hq⟩ : ∃ q, qs[j.val]? = some q :=
          ⟨_, List.getElem?_eq_getElem (by omega)⟩
        have hpaint : paint qs p j
            = .ok (p.setCells (Function.update p.view.cells j (some (.of q)))) := by
          unfold paint
          rw [if_neg hpiece]
          simp only [hq]
        have hcells : paintedCells qs (p.setCells (Function.update p.view.cells j (some (.of q))))
            is = paintedCells qs p (j :: is) := by
          rw [Option.not_isSome_iff_eq_none] at hpiece
          funext i
          by_cases hij : i = j
          · subst hij
            simp [paintedCells, Panel.setCells, hpiece, hq]
          · simp [paintedCells, Panel.setCells, hij]
        rw [hpaint]
        show is.foldlM (paint qs) _ = _
        rw [ih, hcells]
        rfl

/-- `renderPanel` in closed form: the view is that of the frame, and nothing else changes. -/
theorem renderPanel_eq {p : Panel} (hlog : LogOk p.snapshots)
    (hblank : ∀ i, (p.pieceMap i).isSome → p.view.cells i = none) (total : ℕ) :
    renderPanel total p = .ok (p.showing total p.frameIndex) := by
  have hloop := foldlM_paint (hlog.length_rowAt (targetEp total p.frameIndex)) (List.finRange 9) p
  have hcells : paintedCells (rowAt p.snapshots (targetEp total p.frameIndex)) p
      (List.finRange 9) = (p.viewOf total p.frameIndex).cells := by
    funext i
    cases hpiece : p.pieceMap i with
    | none => simp [paintedCells, Panel.viewOf, hpiece]
    | some g => simp [paintedCells, Panel.viewOf, hpiece, hblank i (by simp [hpiece])]
  rw [hcells] at hloop
  unfold renderPanel
  dsimp only
  rw [hlog.getQValues]
  show ((List.finRange 9).foldlM (paint _) p >>= _) = _
  rw [hloop]
  rfl

/-! ### The intervals -/

/-- The live intervals are those that the panels hold, each its own. -/
structure Wired (s : Page n) : Prop where
  live : ∀ id i, s.interval id = some i ↔ (s.panel i).timerId = some id
  fresh : ∀ id, s.nextId ≤ id → s.interval id = none

/-- The page `t` is `s` with `p` for the panel `i`, and well wired. -/
structure Becomes (s : Page n) (i : Fin n) (p : Panel) (t : Page n) : Prop where
  panel_eq : t.panel = Function.update s.panel i p
  wired : Wired t

variable {s t : Page n} {i : Fin n} {p q : Panel} {total : ℕ}

theorem Becomes.refl (hs : Wired s) : Becomes s i (s.panel i) s :=
  ⟨(Function.update_eq_self i s.panel).symm, hs⟩

theorem Becomes.panel_self (h : Becomes s i p t) : t.panel i = p := by
  rw [h.panel_eq, Function.update_self]

theorem Becomes.setPanel (h : Becomes s i p t) (htimer : q.timerId = p.timerId) :
    Becomes s i q (t.setPanel i q) := by
  refine ⟨?_, ?_, h.wired.fresh⟩
  · show Function.update t.panel i q = _
    rw [h.panel_eq, Function.update_idem]
  · intro id j
    rw [show (t.setPanel i q).interval id = t.interval id from rfl, h.wired.live id j]
    by_cases hij : j = i
    · subst hij
      rw [h.panel_self, ← htimer]
      simp [Page.setPanel]
    · simp [Page.setPanel, hij]

/-- `stopPanel` ends the interval of its panel and no other. -/
theorem Becomes.stopPanel (h : Becomes s i p t) :
    Becomes s i { p with timerId := none } (t.stopPanel i) := by
  unfold Page.stopPanel
  cases htimer : (t.panel i).timerId with
  | none =>
      have hp : { p with timerId := none } = p := by
        rw [h.panel_self] at htimer
        rw [← htimer]
      rw [hp]
      exact h
  | some id =>
      have hown : t.interval id = some i := (h.wired.live id i).mpr htimer
      refine ⟨?_, ?_, ?_⟩
      · show Function.update t.panel i _ = _
        rw [h.panel_self, h.panel_eq, Function.update_idem]
      · intro id' j
        show Function.update t.interval id none id' = some j
          ↔ (Function.update t.panel i { t.panel i with timerId := none } j).timerId = some id'
        by_cases hid : id' = id
        · -- the interval that ends was the panel's own
          subst hid
          rw [Function.update_self]
          by_cases hij : j = i
          · subst hij
            simp
          · rw [Function.update_of_ne hij, ← h.wired.live, hown]
            simp [Ne.symm hij]
        · rw [Function.update_of_ne hid]
          by_cases hij : j = i
          · subst hij
            rw [Function.update_self, h.wired.live, htimer]
            simp [Ne.symm hid]
          · rw [Function.update_of_ne hij, h.wired.live]
      · intro id' hle
        show Function.update t.interval id none id' = none
        by_cases hid : id' = id
        · rw [hid, Function.update_self]
        · rw [Function.update_of_ne hid]
          exact h.wired.fresh id' hle

/-- `startPanel` leaves its panel with one interval, a new one. -/
theorem Becomes.startPanel (h : Becomes s i p t) :
    ∃ id, Becomes s i { p with timerId := some id } (t.startPanel i) := by
  have hstop := h.stopPanel
  unfold Page.startPanel
  dsimp only
  generalize t.stopPanel i = u at hstop
  -- the number of the new interval has not been given out
  have hnew : u.interval u.nextId = none := hstop.wired.fresh _ le_rfl
  have hidle : (u.panel i).timerId = none := by rw [hstop.panel_self]
  refine ⟨u.nextId, ?_, ?_, ?_⟩
  · show Function.update u.panel i _ = _
    rw [hstop.panel_self, hstop.panel_eq, Function.update_idem]
  · intro id j
    show Function.update u.interval u.nextId (some i) id = some j
      ↔ (Function.update u.panel i { u.panel i with timerId := some u.nextId } j).timerId = some id
    by_cases hij : j = i
    · subst hij
      rw [Function.update_self]
      by_cases hid : id = u.nextId
      · subst hid
        simp
      · rw [Function.update_of_ne hid, hstop.wired.live, hidle]
        simp [Ne.symm hid]
    · rw [Function.update_of_ne hij, ← hstop.wired.live]
      by_cases hid : id = u.nextId
      · subst hid
        simp [hnew, Ne.symm hij]
      · rw [Function.update_of_ne hid]
  · intro id hle
    have hne : id ≠ u.nextId := by
      rintro rfl
      exact absurd (show u.nextId + 1 ≤ u.nextId from hle) (by omega)
    show Function.update u.interval u.nextId (some i) id = none
    rw [Function.update_of_ne hne]
    exact hstop.wired.fresh id ((Nat.le_succ _).trans hle)

/-! ### What the handlers do -/

/-- What holds of a panel between two events. -/
structure Panel.Sound (total : ℕ) (p : Panel) : Prop where
  log : LogOk p.snapshots
  playing_lt : p.playing = true → p.frameIndex < TOTAL_FRAMES - 1
  frame_le : p.frameIndex ≤ TOTAL_FRAMES - 1
  timer : p.timerId.isSome = p.playing
  button : p.btnPlay = if p.playing then "Pause" else "Play"
  view : p.view = p.viewOf total p.frameIndex
    ∨ p.frameIndex = 0 ∧ (p.view = p.viewReset total ∨ p.view = p.viewReset TOTAL_EPISODES)

theorem Panel.Sound.cells_piece (hp : p.Sound total) {c : Fin 9} (hc : (p.pieceMap c).isSome) :
    p.view.cells c = none := by
  rcases hp.view with hview | ⟨-, hview | hview⟩
  · rw [hview]
    simp [Panel.viewOf, hc]
  all_goals
    rw [hview]
    simp [Panel.viewReset, blankCells, hc]

/-- `renderPanel` on a panel that is sound but for its frame. -/
theorem Panel.Sound.renderPanel (hp : p.Sound total) (frame : ℕ) :
    renderPanel total { p with frameIndex := frame } = .ok (p.showing total frame) :=
  renderPanel_eq (p := { p with frameIndex := frame }) hp.log (fun _ hc => hp.cells_piece hc) total

theorem Panel.Sound.rewind (hp : p.Sound total) : rewind total p = .ok (p.rewound total) := by
  unfold Animation.rewind Panel.rewound
  rw [hp.renderPanel]
  split <;> rfl

theorem Panel.Sound.advance (hp : p.Sound total) : advance total p = .ok (p.advanced total) := by
  unfold Animation.advance Panel.advanced
  rw [hp.renderPanel]
  split <;> rfl

theorem Panel.timerId_rewound : (p.rewound total).timerId = p.timerId := by
  unfold Panel.rewound
  split <;> rfl

theorem Panel.timerId_advanced : (p.advanced total).timerId = p.timerId := by
  unfold Panel.advanced
  split <;> rfl

/-- What `pausePanel` does, and with it the end of the playback. -/
theorem Becomes.pause (h : Becomes s i p t) : Becomes s i p.stopped (t.pausePanel i) := by
  have hstop := (h.setPanel (q := { p with playing := false }) rfl).stopPanel
  unfold Page.pausePanel
  rw [h.panel_self]
  dsimp only
  rw [hstop.panel_self]
  exact hstop.setPanel rfl

theorem Becomes.halt (h : Becomes s i p t) : Becomes s i p.halted (t.halt i) := by
  unfold Page.halt Panel.halted
  rw [h.panel_self]
  split
  · have hpause := h.pause
    unfold Page.pausePanel at hpause
    rw [h.panel_self] at hpause
    exact hpause
  · exact h

theorem Becomes.play (h : Becomes s i p s) (hp : p.Sound total) :
    ∃ id t, s.playPanel total i = .ok t ∧ Becomes s i ((p.rewound total).started id) t := by
  have hset := h.setPanel (q := { p.rewound total with playing := true, btnPlay := "Pause" })
    Panel.timerId_rewound
  obtain ⟨id, hstart⟩ := hset.startPanel
  refine ⟨id, _, ?_, hstart⟩
  unfold Page.playPanel
  rw [h.panel_self, hp.rewind]
  rfl

theorem Becomes.tick (h : Becomes s i p s) (hp : p.Sound total) :
    ∃ t, s.tick total i = .ok t ∧ Becomes s i (p.advanced total).halted t := by
  refine ⟨_, ?_, (h.setPanel Panel.timerId_advanced).halt⟩
  unfold Page.tick
  rw [h.panel_self, hp.advance]
  rfl

theorem Becomes.reset (h : Becomes s i p t) (hp : p.Sound total) :
    Becomes s i { p with frameIndex := 0, view := p.viewReset total }.stopped
      (t.resetPanel total i) := by
  have hstop := (h.setPanel (q := { p with frameIndex := 0, playing := false }) rfl).stopPanel
  have hcells : (fun c => if (p.pieceMap c).isSome then p.view.cells c else some .zero)
      = blankCells p.pieceMap := by
    funext c
    unfold blankCells
    split
    · exact hp.cells_piece ‹_›
    · rfl
  unfold Page.resetPanel
  rw [h.panel_self]
  dsimp only
  rw [hstop.panel_self]
  dsimp only
  rw [hcells]
  exact hstop.setPanel rfl

/-- **What an event does**: its panel becomes the one of `Panel.after`, the others stay, and no
handler throws. -/
theorem fire_eq (hs : Wired s) (hp : ∀ i, (s.panel i).Sound total) (e : Event n) :
    ∃ id t, s.fire total e = .ok t ∧ Becomes s e.on ((s.panel e.on).after total id e) t := by
  have hrefl : Becomes s e.on (s.panel e.on) s := .refl hs
  cases e with
  | play i =>
      by_cases hplaying : (s.panel i).playing = true
      · refine ⟨0, _, if_pos hplaying, ?_⟩
        rw [show (s.panel (Event.play i).on).after total 0 (.play i) = _ from if_pos hplaying]
        exact hrefl.pause
      · obtain ⟨id, t, hfire, ht⟩ := hrefl.play (hp i)
        refine ⟨id, t, (if_neg hplaying).trans hfire, ?_⟩
        rw [show (s.panel (Event.play i).on).after total id (.play i) = _ from if_neg hplaying]
        exact ht
  | reset i => exact ⟨0, _, rfl, hrefl.reset (hp i)⟩
  | tick id i =>
      obtain ⟨t, hfire, ht⟩ := hrefl.tick (hp i)
      exact ⟨0, t, hfire, ht⟩

/-! ### Every session -/

/-- A page between two events. -/
structure Page.Sound (total : ℕ) (s : Page n) : Prop where
  panels : ∀ i, (s.panel i).Sound total
  wired : Wired s

theorem Panel.Sound.stopped {frame : ℕ} {view : View} (hp : p.Sound total)
    (hle : frame ≤ TOTAL_FRAMES - 1)
    (hview : view = p.viewOf total frame
      ∨ frame = 0 ∧ (view = p.viewReset total ∨ view = p.viewReset TOTAL_EPISODES)) :
    ({ p with frameIndex := frame, view := view }.stopped).Sound total :=
  ⟨hp.log, fun h => absurd h Bool.false_ne_true, hle, rfl, rfl, hview⟩

theorem Panel.Sound.showing {frame : ℕ} (hp : p.Sound total) (hle : frame ≤ TOTAL_FRAMES - 1)
    (hlt : p.playing = true → frame < TOTAL_FRAMES - 1) : (p.showing total frame).Sound total :=
  ⟨hp.log, hlt, hle, hp.timer, hp.button, .inl rfl⟩

theorem Panel.Sound.started (hp : p.Sound total) (hlt : p.frameIndex < TOTAL_FRAMES - 1) (id : ℕ) :
    (p.started id).Sound total :=
  ⟨hp.log, fun _ => hlt, hp.frame_le, rfl, rfl, hp.view⟩

/-- A panel stays sound.  Only a panel that plays has a tick. -/
theorem Panel.Sound.after (hp : p.Sound total) (id : ℕ) (e : Event n) :
    (p.after total id e).Sound total := by
  cases e with
  | play j =>
      unfold Panel.after
      dsimp only
      split
      · exact hp.stopped hp.frame_le hp.view
      · unfold Panel.rewound
        split
        · have hfirst : 0 < TOTAL_FRAMES - 1 := by decide
          exact (hp.showing hfirst.le fun _ => hfirst).started hfirst id
        · exact hp.started (not_le.mp ‹_›) id
  | reset j => exact hp.stopped (Nat.zero_le _) (.inr ⟨rfl, .inl rfl⟩)
  | tick id' j =>
      unfold Panel.after Panel.halted
      dsimp only
      split
      · -- the last frame
        unfold Panel.advanced
        split
        · exact hp.stopped (by omega) (.inl rfl)
        · exact hp.stopped hp.frame_le hp.view
      · rename_i hlast
        unfold Panel.advanced at hlast ⊢
        split
        · rename_i hlt
          rw [if_pos hlt] at hlast
          have hnext : p.frameIndex + 1 < TOTAL_FRAMES - 1 := not_le.mp hlast
          exact hp.showing hnext.le fun _ => hnext
        · exact hp

theorem load_sound (total : ℕ) (pieces : Fin n → Fin 9 → Option Glyph) (cases : List (List Snapshot))
    (hlogs : ∀ snapshots ∈ cases, LogOk snapshots) : (Page.load pieces cases).Sound total := by
  have hstart : ∀ i, ((Page.load pieces cases).panel i).timerId = none := by
    intro i
    show (match cases[i.val]? with | none => _ | some _ => _ : Panel).timerId = none
    split <;> rfl
  refine ⟨fun i => ?_, fun id i => ?_, fun _ _ => rfl⟩
  · show (match cases[i.val]? with | none => _ | some _ => _ : Panel).Sound total
    split
    · exact ⟨⟨.nil, by simp [buildPanel], by simp [buildPanel]⟩, fun h => absurd h Bool.false_ne_true,
        Nat.zero_le _, rfl, rfl, .inr ⟨rfl, .inr rfl⟩⟩
    · exact ⟨hlogs _ (List.mem_of_getElem? ‹_›), fun h => absurd h Bool.false_ne_true,
        Nat.zero_le _, rfl, rfl, .inr ⟨rfl, .inr rfl⟩⟩
  · rw [hstart]
    exact ⟨fun h => absurd h (by simp [Page.load]), fun h => absurd h (by simp)⟩

theorem Page.Sound.fire (hs : s.Sound total) (e : Event n) :
    ∃ id t, s.fire total e = .ok t ∧ t.Sound total
      ∧ t.panel = Function.update s.panel e.on ((s.panel e.on).after total id e) := by
  obtain ⟨id, t, hfire, ht⟩ := fire_eq hs.wired hs.panels e
  refine ⟨id, t, hfire, ⟨fun j => ?_, ht.wired⟩, ht.panel_eq⟩
  rw [ht.panel_eq]
  by_cases hj : j = e.on
  · subst hj
    rw [Function.update_self]
    exact (hs.panels e.on).after id e
  · rw [Function.update_of_ne hj]
    exact hs.panels j

/-- A step of a sound page is one event, and no error. -/
theorem Page.Sound.step (hs : s.Sound total) {es : List (Event n)} {u : Except JsErr (Page n)}
    (h : Step total (.ok s) es u) : ∃ e id t, es = [e] ∧ u = .ok t ∧ s.enabled e = true
      ∧ t.Sound total
      ∧ t.panel = Function.update s.panel e.on ((s.panel e.on).after total id e) := by
  obtain ⟨e, hact⟩ := h
  unfold act at hact
  dsimp only at hact
  split at hact
  · obtain ⟨rfl, rfl⟩ := Prod.mk.inj (Option.some.inj hact)
    obtain ⟨id, t, hfire, ht, hpanel⟩ := hs.fire e
    exact ⟨e, id, t, rfl, hfire, ‹_›, ht, hpanel⟩
  · cases hact

theorem Page.Sound.run (hs : s.Sound total) {es : List (Event n)} {u : Except JsErr (Page n)}
    (h : Run (Step total) (.ok s) es u) : ∃ t, u = .ok t ∧ t.Sound total := by
  refine Run.invariant (I := fun _ u => ∃ t : Page n, u = .ok t ∧ t.Sound total)
    ⟨s, rfl, hs⟩ ?_ h
  rintro _ _ e v ⟨t, rfl, ht⟩ hstep
  obtain ⟨-, -, u, -, rfl, -, hu, -⟩ := ht.step hstep
  exact ⟨u, rfl, hu⟩

/-- **After any session on any number of panels**, whatever the order of the clicks and of the
ticks of all the intervals: no handler has thrown; the live intervals are those the panels hold,
one for each panel that plays and none for the others; the button says what a click will do;
and a panel shows the log at its frame, or is as reset at frame 0. -/
theorem animation_sound {pieces : Fin n → Fin 9 → Option Glyph} {cases : List (List Snapshot)}
    (hlogs : ∀ snapshots ∈ cases, LogOk snapshots) {es : List (Event n)}
    {u : Except JsErr (Page n)}
    (hrun : Run (Step total) (.ok (Page.load pieces cases)) es u) :
    ∃ t : Page n, u = .ok t
      ∧ (∀ id i, t.interval id = some i ↔ (t.panel i).timerId = some id)
      ∧ ∀ i, (t.panel i).timerId.isSome = (t.panel i).playing
        ∧ (t.panel i).btnPlay = (if (t.panel i).playing then "Pause" else "Play")
        ∧ (t.panel i).frameIndex ≤ TOTAL_FRAMES - 1
        ∧ ((t.panel i).view = (t.panel i).viewOf total (t.panel i).frameIndex
          ∨ (t.panel i).frameIndex = 0 ∧ ((t.panel i).view = (t.panel i).viewReset total
            ∨ (t.panel i).view = (t.panel i).viewReset TOTAL_EPISODES)) := by
  obtain ⟨t, rfl, ht⟩ := (load_sound total pieces cases hlogs).run hrun
  refine ⟨t, rfl, ht.wired.live, fun i => ?_⟩
  have hp := ht.panels i
  exact ⟨hp.timer, hp.button, hp.frame_le, hp.view⟩

def sampleLogs : List (List Snapshot) :=
  [[⟨1, List.replicate 9 (some 0)⟩, ⟨4, List.replicate 9 (some 1)⟩],
    [⟨2, List.replicate 9 (some 0)⟩]]

/-- Two panels. -/
def samplePage : Page 2 := .load (fun _ _ => none) sampleLogs

theorem samplePage_logs : ∀ snapshots ∈ sampleLogs, LogOk snapshots := by
  intro snapshots hmem
  obtain rfl | hmem := List.mem_cons.mp hmem
  · exact ⟨by simp, by simp, by simp⟩
  · obtain rfl := List.mem_singleton.mp hmem
    exact ⟨by simp, by simp, by simp⟩

theorem animation_sound_sample : ∃ (es : List (Event 2)) (t : Page 2),
    Run (Step 6) (.ok samplePage) es (.ok t)
      ∧ (t.panel 0).view.cells 3 = some (.of (some 1))
      ∧ (t.panel 0).frameIndex ≤ TOTAL_FRAMES - 1 := by
  obtain ⟨es, u, hrun, hgood⟩ := exists_run_of_schedule (stepOf_of_act (act 6)) (s := .ok samplePage)
    (.play 0 :: .tick 0 0 :: .play 0 :: .play 0 :: List.replicate 310 (.tick 1 0))
    (fun _ u => match u with
      | .ok t => decide ((t.panel 0).view.cells 3 = some (.of (some 1)))
      | .error _ => false) (by decide +kernel)
  obtain ⟨t, rfl, -, hpanel⟩ := animation_sound samplePage_logs hrun
  exact ⟨es, t, hrun, of_decide_eq_true hgood, (hpanel 0).2.2.1⟩

/-! ### A panel left alone -/

/-- The number of ticks of a panel's interval. -/
def ticks (i : Fin n) (es : List (Event n)) : ℕ :=
  es.countP fun e => match e with
    | .tick _ j => j = i
    | _ => false

theorem targetEp_mono (total : ℕ) {f g : ℕ} (h : f ≤ g) : targetEp total f ≤ targetEp total g := by
  unfold targetEp
  gcongr

/-- The last frame shows the end of the log. -/
theorem targetEp_last (total : ℕ) : targetEp total (TOTAL_FRAMES - 1) = total := by
  have hall : ((TOTAL_FRAMES - 1 + 1 : ℕ) : ℚ) * ((total : ℚ) / (TOTAL_FRAMES : ℚ)) = total := by
    rw [show TOTAL_FRAMES - 1 + 1 = TOTAL_FRAMES from rfl]
    exact mul_div_cancel₀ _ (by norm_num [TOTAL_FRAMES])
  unfold targetEp
  rw [hall, Nat.ceil_natCast, min_self]

/-- What a panel has come to, `k` ticks after it showed frame `f` and played. -/
structure Played (total f k : ℕ) (p₀ p : Panel) : Prop where
  le : f + k ≤ TOTAL_FRAMES - 1
  frame : p.frameIndex = f + k
  playing : p.playing = decide (f + k < TOTAL_FRAMES - 1)
  snapshots : p.snapshots = p₀.snapshots
  pieceMap : p.pieceMap = p₀.pieceMap
  view : p.view = if k = 0 then p₀.view else p₀.viewOf total (f + k)

theorem Played.tick {f k : ℕ} {p₀ : Panel} (h : Played total f k p₀ p)
    (hplaying : p.playing = true) (id id' : ℕ) :
    Played total f (k + 1) p₀ (p.after total id (.tick id' i)) := by
  have hlt : f + k < TOTAL_FRAMES - 1 := of_decide_eq_true (h.playing.symm.trans hplaying)
  have hadv : p.advanced total = p.showing total (f + k + 1) := by
    unfold Panel.advanced
    rw [h.frame, if_pos hlt]
  have hview : (p.showing total (f + k + 1)).view = p₀.viewOf total (f + (k + 1)) := by
    show p.viewOf total (f + k + 1) = _
    unfold Panel.viewOf
    rw [h.snapshots, h.pieceMap, Nat.add_assoc]
  show Played total f (k + 1) p₀ (p.advanced total).halted
  rw [hadv]
  unfold Panel.halted
  -- `halted` stops the panel on its last frame
  split
  · rename_i hlast
    have hlast : f + k + 1 ≥ TOTAL_FRAMES - 1 := hlast
    refine ⟨by omega, rfl, ?_, h.snapshots, h.pieceMap, hview⟩
    exact (decide_eq_false (by omega)).symm
  · rename_i hlast
    have hlast : ¬ f + k + 1 ≥ TOTAL_FRAMES - 1 := hlast
    refine ⟨by omega, rfl, ?_, h.snapshots, h.pieceMap, hview⟩
    exact hplaying.trans (decide_eq_true (by omega)).symm

/-- A panel shows no episode after that of its frame. -/
theorem Panel.Sound.label_le (hp : p.Sound total) {frame : ℕ} (hle : p.frameIndex ≤ frame) :
    p.view.epLabel.1 ≤ targetEp total frame := by
  rcases hp.view with hview | ⟨-, hview | hview⟩
  · rw [hview]
    exact targetEp_mono total hle
  all_goals
    rw [hview]
    exact Nat.zero_le _

theorem ticks_append (i : Fin n) (es : List (Event n)) (e : Event n) :
    ticks i (es ++ [e]) = ticks i es + ticks i [e] :=
  List.countP_append

theorem ticks_of_on_ne {e : Event n} (h : i ≠ e.on) : ticks i [e] = 0 := by
  cases e with
  | play j => rfl
  | reset j => rfl
  | tick id j => simp [ticks, show ¬ j = i from fun hj => h hj.symm]

theorem ticks_tick (id : ℕ) (i : Fin n) : ticks i [Event.tick id i] = 1 := by
  simp [ticks]

/-- Only a panel that plays has a tick. -/
theorem Page.Sound.playing_of_tick (hs : s.Sound total) {id : ℕ}
    (he : s.enabled (.tick id i) = true) : (s.panel i).playing = true := by
  have hlive : s.interval id = some i := of_decide_eq_true he
  rw [← (hs.panels i).timer, (hs.wired.live id i).mp hlive]
  rfl

theorem Page.Sound.played (hs : s.Sound total) (hplay : (s.panel i).playing = true)
    {es : List (Event n)} {u : Except JsErr (Page n)} (hrun : Run (Step total) (.ok s) es u)
    (halone : ∀ e ∈ es, e.on = i → ∃ id, e = .tick id i) : ∃ t, u = .ok t ∧ t.Sound total
      ∧ Played total (s.panel i).frameIndex (ticks i es) (s.panel i) (t.panel i) := by
  have hstart : Played total (s.panel i).frameIndex (ticks i ([] : List (Event n)))
      (s.panel i) (s.panel i) :=
    ⟨(hs.panels i).frame_le, rfl,
      hplay.trans (decide_eq_true ((hs.panels i).playing_lt hplay)).symm, rfl, rfl, rfl⟩
  refine Run.invariant (I := fun es u => (∀ e ∈ es, e.on = i → ∃ id, e = .tick id i) →
    ∃ t, u = .ok t ∧ t.Sound total
      ∧ Played total (s.panel i).frameIndex (ticks i es) (s.panel i) (t.panel i))
    (fun _ => ⟨s, rfl, hs, hstart⟩) (fun es u₁ e u₂ ih hstep halone => ?_) hrun halone
  obtain ⟨t, rfl, ht, hplayed⟩ := ih fun e he => halone e (List.mem_append_left _ he)
  obtain ⟨e, id, t', rfl, rfl, hen, ht', hpanel⟩ := ht.step hstep
  refine ⟨t', rfl, ht', ?_⟩
  rw [hpanel, ticks_append]
  by_cases hi : i = e.on
  · obtain ⟨id', rfl⟩ := halone e (by simp) hi.symm
    rw [ticks_tick, show (Event.tick id' i).on = i from rfl, Function.update_self]
    exact hplayed.tick (ht.playing_of_tick hen) id id'
  · rw [ticks_of_on_ne hi, Function.update_of_ne hi]
    exact hplayed

/-- **A panel that plays and is left alone plays its log to the end**, whatever is done to the
other panels meanwhile: each of its ticks takes it one frame on, it goes on having ticks until
the last frame, and there it stops with the whole log shown.  It takes `599 - f` ticks from
frame `f`, and the episode shown never goes back. -/
theorem playback {pieces : Fin n → Fin 9 → Option Glyph} {cases : List (List Snapshot)}
    (hlogs : ∀ snapshots ∈ cases, LogOk snapshots) {es₀ es : List (Event n)} {s : Page n}
    {u : Except JsErr (Page n)}
    (hrun₀ : Run (Step total) (.ok (Page.load pieces cases)) es₀ (.ok s)) {i : Fin n}
    (hplay : (s.panel i).playing = true) (hrun : Run (Step total) (.ok s) es u)
    (halone : ∀ e ∈ es, e.on = i → ∃ id, e = .tick id i) :
    ∃ t : Page n, u = .ok t
      ∧ (t.panel i).frameIndex = (s.panel i).frameIndex + ticks i es
      ∧ (s.panel i).view.epLabel.1 ≤ (t.panel i).view.epLabel.1
      ∧ (0 < ticks i es → (t.panel i).view = (s.panel i).viewOf total (t.panel i).frameIndex)
      ∧ ((t.panel i).frameIndex < TOTAL_FRAMES - 1 ∧ (∃ id, t.enabled (.tick id i) = true)
        ∨ (t.panel i).frameIndex = TOTAL_FRAMES - 1 ∧ (t.panel i).playing = false
          ∧ (t.panel i).timerId = none ∧ (t.panel i).view.epLabel = (total, total)) := by
  obtain ⟨s', hs', hs⟩ := (load_sound total pieces cases hlogs).run hrun₀
  obtain rfl := Except.ok.inj hs'
  obtain ⟨t, rfl, ht, hp⟩ := hs.played hplay hrun halone
  have hlt := (hs.panels i).playing_lt hplay
  refine ⟨t, rfl, hp.frame, ?_, fun hpos => ?_, ?_⟩
  · rw [hp.view]
    split
    · exact le_rfl
    · exact (hs.panels i).label_le (Nat.le_add_right _ _)
  · rw [hp.view, if_neg hpos.ne', hp.frame]
  -- before the last frame the panel still has its interval, at the last it has cleared it
  by_cases hend : (t.panel i).frameIndex < TOTAL_FRAMES - 1
  · refine .inl ⟨hend, ?_⟩
    have hplaying : (t.panel i).playing = true := by
      rw [hp.playing, ← hp.frame]
      exact decide_eq_true hend
    rw [← (ht.panels i).timer] at hplaying
    obtain ⟨id, hid⟩ := Option.isSome_iff_exists.mp hplaying
    exact ⟨id, decide_eq_true ((ht.wired.live id i).mpr hid)⟩
  · have hle := hp.le
    have hframe := hp.frame
    have hstopped : (t.panel i).playing = false := by
      rw [hp.playing, ← hframe]
      exact decide_eq_false hend
    have htimer := (ht.panels i).timer
    rw [hstopped, Option.isSome_eq_false_iff, Option.isNone_iff_eq_none] at htimer
    -- a panel that has just stopped has ticked, so it shows its last frame
    have hlabel : (t.panel i).view.epLabel = (total, total) := by
      have hlast : (s.panel i).frameIndex + ticks i es = TOTAL_FRAMES - 1 := by omega
      rw [hp.view, if_neg (by omega), hlast]
      show (targetEp total (TOTAL_FRAMES - 1), total) = _
      rw [targetEp_last]
    exact .inr ⟨by omega, hstopped, htimer, hlabel⟩

/-- The first panel plays on while the second is started, paused and reset. -/
def meanwhile : List (Event 2) :=
  [.tick 0 0, .play 1, .tick 0 0, .tick 1 1, .tick 1 1, .play 1, .tick 0 0, .reset 1]
    ++ List.replicate 96 (.tick 0 0)

theorem playback_sample : ∃ s t : Page 2, Run (Step 6) (.ok s) meanwhile (.ok t)
    ∧ (s.panel 0).playing = true ∧ (t.panel 0).frameIndex = (s.panel 0).frameIndex + 99 := by
  obtain ⟨es, u, hrun, htest⟩ := exists_run_of_schedule (stepOf_of_act (act 6))
    (s := .ok samplePage) [.play 0] (fun _ u => match u with
      | .ok s => (s.panel 0).playing
          && (schedule (act 6) meanwhile (.ok s)).any fun r => decide (r.1 = meanwhile)
      | .error _ => false) (by decide +kernel)
  obtain ⟨s, rfl, -, -⟩ := animation_sound samplePage_logs hrun
  obtain ⟨hplay, hlater⟩ := Bool.and_eq_true_iff.mp htest
  obtain ⟨fs, v, hrun', hfs⟩ := exists_run_of_schedule (stepOf_of_act (act 6)) meanwhile
    (fun fs _ => decide (fs = meanwhile)) hlater
  obtain rfl := of_decide_eq_true hfs
  have halone : ∀ e ∈ meanwhile, e.on = 0 → ∃ id, e = .tick id 0 := by
    intro e he hon
    have hself : e = .tick 0 0 := by
      revert e
      decide +kernel
    exact ⟨0, hself⟩
  have hticks : ticks (0 : Fin 2) meanwhile = 99 := by decide +kernel
  obtain ⟨t, rfl, hframe, -⟩ := playback samplePage_logs hrun hplay hrun' halone
  rw [hticks] at hframe
  exact ⟨s, t, hrun', hplay, hframe⟩

end Animation

end MyTests.RlTtt
