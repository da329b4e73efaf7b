import Xv6Gui.CursorCoordinates
import Xv6Gui.WindowGestures

/-!
# Dragging a window by its title bar

The displacement of a move is tested, added to the cursor and clamped, and the window follows by
the difference of two cursor positions. The second test reads the wrong parameter, so that a fast
move to the right is dropped, and only a window with a title bar follows.
-/
namespace TitleDrags

open WindowManagerState WindowManager WindowManagerSteps WindowMessages WindowMessageOutcomes
open MessageDeliveries CursorCoordinates WindowSessions GuardedRuns
open WindowGestures (pressOnTitle)

variable {scr : Screen} {s t : Wm} {m : Message}

/-- A move by less than the screen. -/
structure IsMove (scr : Screen) (m : Message) : Prop where
  type : m.msgType = .mouseMove
  dx : -(scr.screenWidth : ℤ) < m.param 0 ∧ m.param 0 < scr.screenWidth
  dy : -(scr.screenHeight : ℤ) < m.param 1 ∧ m.param 1 < scr.screenHeight

/-- The button is held on the title of the focused window. -/
structure Dragging (scr : Screen) (s : Wm) : Prop where
  title : s.clickedOnTitle = true
  window : InBounds s.windowlisttail
  cursor : OnScreen scr s.wmMousePos

/-- The rectangle of the window that is dragged. -/
def draggedRect (s : Wm) : WinRect := (s.windowlist.wnd s.windowlisttail).position

def SameSize (r r' : WinRect) : Prop :=
  i32 (r'.xmax - r'.xmin) = i32 (r.xmax - r.xmin) ∧ i32 (r'.ymax - r'.ymin) = i32 (r.ymax - r.ymin)

/-- The distance from `p` to the corner of `r` is that from `p'` to the corner of `r'`. -/
def SameOffset (r r' : WinRect) (p p' : Point) : Prop :=
  i32 (r'.xmin - p'.x) = i32 (r.xmin - p.x) ∧ i32 (r'.ymin - p'.y) = i32 (r.ymin - p.y)

/-- Where the move takes the cursor, cut at the edges of the screen. -/
def target (scr : Screen) (s : Wm) (m : Message) : Point :=
  ⟨max 0 (min (s.wmMousePos.x + m.param 0) scr.screenWidth),
    max 0 (min (s.wmMousePos.y - m.param 1) scr.screenHeight)⟩

/-- The cursor goes where the move takes it, and the window goes with it. -/
structure DragStep (scr : Screen) (m : Message) (s t : Wm) : Prop where
  cursor : t.wmMousePos = target scr s m
  window : t.windowlisttail = s.windowlisttail
  size : SameSize (draggedRect s) (draggedRect t)
  offset : SameOffset (draggedRect s) (draggedRect t) s.wmMousePos t.wmMousePos

def DragLaw (scr : Screen) (s : Wm) (m : Message) : Prop :=
  ∃ t, wmHandleMessage scr s m = .ok t ∧ DragStep scr m s t

/-- The move only pushes the cursor against edges where it already is. -/
structure Pinned (scr : Screen) (p : Point) (dx dy : ℤ) : Prop where
  x : dx = 0 ∨ dx < 0 ∧ p.x = 0 ∨ 0 < dx ∧ p.x = scr.screenWidth
  y : dy = 0 ∨ 0 < dy ∧ p.y = 0 ∨ dy < 0 ∧ p.y = scr.screenHeight

/-- The window has a title bar and the move passes the test of the wrong parameter, or else the
move has no effect. -/
def Follows (scr : Screen) (s : Wm) (m : Message) : Prop :=
  Pinned scr s.wmMousePos (m.param 0) (m.param 1) ∨
    m.param 0 < scr.screenHeight ∧ (s.windowlist.wnd s.windowlisttail).hasTitleBar ≠ 0

instance (scr : Screen) (p : Point) (dx dy : ℤ) : Decidable (Pinned scr p dx dy) :=
  decidable_of_iff (_ ∧ _) ⟨fun h => ⟨h.1, h.2⟩, fun h => ⟨h.x, h.y⟩⟩

instance (scr : Screen) (s : Wm) (m : Message) : Decidable (Follows scr s m) :=
  inferInstanceAs (Decidable (_ ∨ _ ∧ _))

section Cursor

theorem point_eq_iff {p q : Point} : p = q ↔ p.x = q.x ∧ p.y = q.y := by
  cases p
  cases q
  exact Point.mk.injEq _ _ _ _ ▸ Iff.rfl

theorem clampMousePos_eq (p : Point) :
    clampMousePos scr p = ⟨max 0 (min p.x scr.screenWidth), max 0 (min p.y scr.screenHeight)⟩ := by
  have hw : (0 : ℤ) ≤ scr.screenWidth := Int.natCast_nonneg _
  have hh : (0 : ℤ) ≤ scr.screenHeight := Int.natCast_nonneg _
  have hclamp : ∀ v e : ℤ, 0 ≤ e →
      (if (if v > e then e else v) < 0 then 0 else if v > e then e else v) = max 0 (min v e) := by
    intro v e he
    split <;> split <;> omega
  rw [clampMousePos, hclamp _ _ hw, hclamp _ _ hh]

theorem clampMousePos_onScreen {p : Point} (h : OnScreen scr p) : clampMousePos scr p = p := by
  obtain ⟨hx, hx', hy, hy'⟩ := h
  rw [clampMousePos_eq, min_eq_left hx', min_eq_left hy', max_eq_right hx, max_eq_right hy]

/-- The second test compares the horizontal displacement with the height of the screen. -/
theorem moveMouse_cursor (hm : IsMove scr m) (hs : OnScreen scr s.wmMousePos) :
    (followed scr s m).wmMousePos =
      if m.param 0 < scr.screenHeight then target scr s m else s.wmMousePos := by
  obtain ⟨_, ⟨h1, h2⟩, h3, _⟩ := hm
  rw [followed, moveMouse]
  dsimp only
  split
  case isTrue h => rw [if_pos h.2.2.2, clampMousePos_eq, target]
  case isFalse h =>
    rw [if_neg fun hlt => h ⟨h1, h2, h3, hlt⟩, clampMousePos_onScreen hs]

/-- A move leaves the cursor in its place exactly when it only pushes against the edges. -/
theorem pinned_iff (hs : OnScreen scr s.wmMousePos) :
    Pinned scr s.wmMousePos (m.param 0) (m.param 1) ↔ target scr s m = s.wmMousePos := by
  obtain ⟨hx, hx', hy, hy'⟩ := hs
  rw [point_eq_iff, target]
  dsimp only
  constructor
  · rintro ⟨hpx, hpy⟩
    constructor <;> omega
  · rintro ⟨hcx, hcy⟩
    constructor <;> omega

end Cursor

section Drag

/-- The state after a move while the title is held. -/
def dragTo (scr : Screen) (s : Wm) (m : Message) : Wm :=
  updateWnd { followed scr s m with mouseShape := 1 } s.windowlisttail
    (dragged ((followed scr s m).wmMousePos.x - s.wmMousePos.x)
      ((followed scr s m).wmMousePos.y - s.wmMousePos.y))

theorem handle_drag (h : Dragging scr s) (hm : m.msgType = .mouseMove) :
    wmHandleMessage scr s m = .ok (dragTo scr s m) := by
  rw [wmHandleMessage, hm]
  change handleMouseMove scr s m = _
  unfold handleMouseMove
  dsimp only
  rw [if_pos (by exact h.title)]
  exact setWnd_eq h.window

theorem draggedRect_dragTo :
    draggedRect (dragTo scr s m) =
      (dragged ((followed scr s m).wmMousePos.x - s.wmMousePos.x)
        ((followed scr s m).wmMousePos.y - s.wmMousePos.y)
        (s.windowlist.wnd s.windowlisttail)).position :=
  congrArg KernelWindow.position (Function.update_self _ _ _)

theorem dragging_dragTo (h : Dragging scr s) : Dragging scr (dragTo scr s m) :=
  ⟨h.title, h.window, moveMouse_onScreen scr s _ _⟩

theorem sameSize_dragged (dx dy : ℤ) (w : KernelWindow) :
    SameSize w.position (dragged dx dy w).position := by
  rw [dragged]
  split
  · exact ⟨i32_translate _ _ _, i32_translate _ _ _⟩
  · exact ⟨rfl, rfl⟩

theorem offset_moved (a p p' : ℤ) : i32 (i32 (a + (p' - p)) - p') = i32 (a - p) := by
  have := i32_mod (a + (p' - p))
  rw [i32_congr]
  omega

theorem offset_stays {a p p' e : ℤ} (hp : 0 ≤ p) (hpe : p ≤ e) (hp' : 0 ≤ p') (hpe' : p' ≤ e)
    (he : e < 65536) : i32 (a - p') = i32 (a - p) ↔ p' = p := by
  rw [i32_congr]
  omega

/-- A window with a title bar keeps its offset; another one keeps it only under a cursor that
stays. -/
theorem sameOffset_dragged_iff {w : KernelWindow} {p p' : Point} (h : OnScreen scr p)
    (h' : OnScreen scr p') :
    SameOffset w.position (dragged (p'.x - p.x) (p'.y - p.y) w).position p p' ↔
      w.hasTitleBar ≠ 0 ∨ p' = p := by
  rw [dragged]
  by_cases hbar : w.hasTitleBar ≠ 0
  · rw [if_pos hbar]
    exact iff_of_true ⟨offset_moved _ _ _, offset_moved _ _ _⟩ (Or.inl hbar)
  · have hw := scr.width_lt
    have hh := scr.height_lt
    rw [if_neg hbar, or_iff_right hbar, SameOffset,
      offset_stays h.xmin h.xmax h'.xmin h'.xmax (by omega),
      offset_stays h.ymin h.ymax h'.ymin h'.ymax (by omega)]
    exact point_eq_iff.symm

theorem dragLaw_iff_cursor (h : Dragging scr s) (hm : IsMove scr m) :
    DragLaw scr s m ↔ (followed scr s m).wmMousePos = target scr s m ∧
      ((s.windowlist.wnd s.windowlisttail).hasTitleBar ≠ 0 ∨
        (followed scr s m).wmMousePos = s.wmMousePos) := by
  have hoffset := sameOffset_dragged_iff (w := s.windowlist.wnd s.windowlisttail) h.cursor
    (moveMouse_onScreen scr s (m.param 0) (m.param 1))
  constructor
  · rintro ⟨t, ht, hpos, _, _, ho⟩
    cases (handle_drag h hm.type).symm.trans ht
    rw [draggedRect_dragTo] at ho
    exact ⟨hpos, hoffset.mp ho⟩
  · rintro ⟨hpos, ho⟩
    refine ⟨_, handle_drag h hm.type, hpos, rfl, ?_, ?_⟩
    · rw [draggedRect_dragTo]
      exact sameSize_dragged _ _ _
    · rw [draggedRect_dragTo]
      exact hoffset.mpr ho

theorem dragLaw_iff (h : Dragging scr s) (hm : IsMove scr m) :
    DragLaw scr s m ↔ Follows scr s m := by
  rw [dragLaw_iff_cursor h hm, Follows, pinned_iff h.cursor, moveMouse_cursor hm h.cursor]
  by_cases hdx : m.param 0 < scr.screenHeight
  · rw [if_pos hdx, and_iff_right rfl, and_iff_right hdx, or_comm]
  · rw [if_neg hdx, and_iff_left (Or.inr rfl), or_iff_left fun h => hdx h.1, eq_comm]

/-- Along any run of moves during a drag, the cursor and the window do what the moves ask for if
and only if each move passes the test with a title bar, or has no effect. -/
theorem drag_follows_iff {ms : List Message} (h : Dragging scr s)
    (hm : Along (wmHandleMessage scr) (fun _ m => IsMove scr m) s ms) :
    Along (wmHandleMessage scr) (DragLaw scr) s ms ↔
      Along (wmHandleMessage scr) (Follows scr) s ms := by
  refine along_iff (fun s m => dragLaw_iff) ?_ h hm
  intro s m t hs hmove _ ht
  cases (handle_drag hs hmove.type).symm.trans ht
  exact dragging_dragTo hs

/-- A session in which the title of the window in slot 1 is held at (200, 90). -/
theorem title_pressed :
    ∃ s : Session, Execution (step desktopScreen) (start desktopScreen)
      pressOnTitle s ∧ Dragging desktopScreen s.wm ∧ s.wm.wmMousePos = ⟨200, 90⟩ ∧
      Along (wmHandleMessage desktopScreen) (Follows desktopScreen) s.wm
        [newmsgAt .mouseMove 599 100, newmsgAt .mouseMove (-799) (-599)] := by
  obtain ⟨s, hs, hfacts⟩ := execution_of_map (step desktopScreen)
    (start desktopScreen) pressOnTitle
    (fun s => (s.wm.clickedOnTitle, s.wm.windowlisttail, s.wm.wmMousePos,
      decide (Along (wmHandleMessage desktopScreen) (Follows desktopScreen) s.wm
        [newmsgAt .mouseMove 599 100, newmsgAt .mouseMove (-799) (-599)])))
    (b := (true, 1, ⟨200, 90⟩, true)) (by decide +kernel)
  simp only [Prod.mk.injEq] at hfacts
  obtain ⟨htitle, htail, hpos, hfollows⟩ := hfacts
  refine ⟨s, hs, ⟨htitle, by rw [htail]; decide, ?_⟩, hpos, of_decide_eq_true hfollows⟩
  rw [hpos]
  constructor <;> decide

theorem drag_follows_to_corner :
    ∃ s : Session, Execution (step desktopScreen) (start desktopScreen)
      pressOnTitle s ∧
      Along (wmHandleMessage desktopScreen) (DragLaw desktopScreen) s.wm
        [newmsgAt .mouseMove 599 100, newmsgAt .mouseMove (-799) (-599)] := by
  obtain ⟨s, hs, hdrag, _, hfollows⟩ := title_pressed
  refine ⟨s, hs, (drag_follows_iff hdrag ?_).mpr hfollows⟩
  exact ⟨⟨rfl, by decide, by decide⟩, fun _ _ => ⟨⟨rfl, by decide, by decide⟩, fun _ _ => trivial⟩⟩

/-- A move by the height of the screen to the right is dropped, although the screen is wider. -/
theorem fast_move_dropped :
    ¬∀ (scr : Screen) (s : Session) (ms : List Message),
      Reachable (step scr) (start scr) s → Dragging scr s.wm →
      Along (wmHandleMessage scr) (fun _ m => IsMove scr m) s.wm ms →
      Along (wmHandleMessage scr) (DragLaw scr) s.wm ms := by
  intro h
  obtain ⟨s, hs, hdrag, hpos, _⟩ := title_pressed
  have hmove : IsMove desktopScreen (newmsgAt .mouseMove 600 0) := ⟨rfl, by decide, by decide⟩
  have hlaw := (h desktopScreen s [newmsgAt .mouseMove 600 0] ⟨_, hs⟩ hdrag
    ⟨hmove, fun _ _ => trivial⟩).1
  rcases (dragLaw_iff hdrag hmove).mp hlaw with hpin | ⟨hlt, _⟩
  · rw [hpos] at hpin
    exact absurd hpin (by decide)
  · exact absurd hlt (by decide)

end Drag

end TitleDrags
