import Xv6Gui.WindowFrames
import Xv6Gui.CursorCoordinates

/-!
# What a press is taken for

A press is on the popup, on the title strip of the window it focuses or on its content. The
three flags remember which; only a press sets one, and a release clears them all.
-/
namespace WindowPresses

open WindowManagerState WindowManager WindowManagerSteps WindowMessages WindowMessageOutcomes
open WindowSessions WindowFrames CursorCoordinates MessageDeliveries MessageQueues LinkedSlots
open GuardedRuns

/-- What a press was taken for. -/
structure Flags where
  title : Bool
  content : Bool
  popup : Bool
  deriving DecidableEq, Repr

def flags (s : Wm) : Flags := ⟨s.clickedOnTitle, s.clickedOnContent, s.clickedOnPopup⟩

structure AtMostOne (f : Flags) : Prop where
  title_content : ¬(f.title = true ∧ f.content = true)
  title_popup : ¬(f.title = true ∧ f.popup = true)
  content_popup : ¬(f.content = true ∧ f.popup = true)

instance (f : Flags) : Decidable (AtMostOne f) :=
  decidable_of_iff (¬(f.title = true ∧ f.content = true) ∧ ¬(f.title = true ∧ f.popup = true) ∧
    ¬(f.content = true ∧ f.popup = true))
    ⟨fun h => ⟨h.1, h.2.1, h.2.2⟩, fun h => ⟨h.1, h.2, h.3⟩⟩

/-- The window that has the focus after a press on target `w`. -/
def pressed (s : Wm) (w : ℤ) : ℤ := if w = -1 then s.windowlisttail else w

/-- The cursor is on the strip above a rectangle, where a window has its title bar. -/
def OnStrip (s : Wm) (r : WinRect) : Prop :=
  isInRect r.xmin (i32 (r.ymin - titleHeight)) r.xmax r.ymin s.wmMousePos.x s.wmMousePos.y = true

instance (s : Wm) (r : WinRect) : Decidable (OnStrip s r) := inferInstanceAs (Decidable (_ = true))

/-- The strip without the two buttons at its end. -/
def OnDragStrip (s : Wm) (r : WinRect) : Prop := OnStrip s r ∧ s.wmMousePos.x + 60 ≤ r.xmax

instance (s : Wm) (r : WinRect) : Decidable (OnDragStrip s r) := inferInstanceAs (Decidable (_ ∧ _))

/-- The rectangle of the window that a press on target `w` focuses. -/
def pressedRect (s : Wm) (w : ℤ) : WinRect := (s.windowlist.wnd (pressed s w)).position

section Flags

variable {scr : Screen} {s t : Wm} {m : Message}

theorem flags_blind : Blind flags where
  links _ _ := rfl
  wnd _ _ _ _ := rfl
  popup _ _ := rfl
  cursor _ _ _ _ := rfl

theorem focused_tail_eq (s : Wm) (w : ℤ) : (focused (links s) w).tail = pressed s w := by
  unfold pressed
  split
  case isTrue h => rw [h, focused_neg]; rfl
  case isFalse h => exact focused_tail h

theorem pressTitleBar_flags {w : KernelWindow} (h : pressTitleBar s w = .ok t) :
    flags t = ⟨s.clickedOnTitle || decide (OnDragStrip s w.position), s.clickedOnContent,
      s.clickedOnPopup⟩ := by
  unfold pressTitleBar at h
  split at h
  case isTrue hstrip =>
    split at h
    case isTrue hclose =>
      rw [dispatchTo_keeps flags_blind _ _ t h, decide_eq_false, Bool.or_false]
      · rfl
      · intro hd
        have := hd.2
        omega
    case isFalse hclose =>
      split at h
      case isTrue hmin =>
        rw [dispatchTo_keeps flags_blind _ _ t h, decide_eq_false, Bool.or_false]
        · rfl
        · intro hd
          have := hd.2
          omega
      case isFalse hmin =>
        cases h
        have hdrag : OnDragStrip s w.position := ⟨hstrip, by omega⟩
        rw [decide_eq_true hdrag, Bool.or_true]
        rfl
  case isFalse hstrip =>
    cases h
    rw [decide_eq_false, Bool.or_false]
    · rfl
    · exact fun hd => hstrip hd.1

theorem pressContent_flags {w : KernelWindow} {τ : MsgType} (h : pressContent s w τ = .ok t) :
    flags t = ⟨s.clickedOnTitle, s.clickedOnContent || decide (OnContent s w.position),
      s.clickedOnPopup⟩ := by
  unfold pressContent at h
  split at h
  case isTrue hc =>
    rw [dispatchTo_keeps flags_blind _ _ t h, decide_eq_true (by exact hc), Bool.or_true]
    rfl
  case isFalse hc =>
    cases h
    rw [decide_eq_false (by exact hc), Bool.or_false]
    rfl

/-- Both tests of a press look at the same rectangle. -/
theorem press_flags {u : Wm} {x : ℤ} {τ : MsgType}
    (hu : pressTitleBar s (s.windowlist.wnd x) = .ok u)
    (ht : pressContent u (u.windowlist.wnd x) τ = .ok t) :
    flags t = ⟨s.clickedOnTitle || decide (OnDragStrip s (s.windowlist.wnd x).position),
      s.clickedOnContent || decide (OnContent s (s.windowlist.wnd x).position),
      s.clickedOnPopup⟩ := by
  have hpost := (pressTitleBar_posted hu).1
  have hcontent : OnContent u (s.windowlist.wnd x).position ↔
      OnContent s (s.windowlist.wnd x).position := by
    unfold OnContent
    rw [hpost.mouse]
  have hflags := pressTitleBar_flags hu
  rw [pressContent_flags ht, hpost.position, decide_eq_decide.mpr hcontent]
  rw [flags, Flags.mk.injEq] at hflags
  rw [hflags.1, hflags.2.1, hflags.2.2]

/-- A press outside the popup adds the flags of what it hits and clears none. -/
theorem handleMouseDown_flags (hr : Ranged (links s)) (hd : IsLink s.desktopId)
    (hp : ¬OnPopup s) {w : ℤ} (hw : MouseTarget s w) (h : handleMouseDown s m = .ok t) :
    flags t = ⟨s.clickedOnTitle || decide (OnDragStrip s (pressedRect s w)),
      s.clickedOnContent || decide (OnContent s (pressedRect s w)), s.clickedOnPopup⟩ := by
  rw [handleMouseDown_eq hr m hp hw] at h
  obtain ⟨u, hu, h⟩ := bind_eq_ok.mp h
  have hfocus := focusWindow_ok (s := dispatchToPopup s (newmsg .windowClose)) hr
    (hw.isLink hr hd) hu
  subst hfocus
  rw [links_dispatchToPopup, setLinks_dispatchToPopup] at h
  obtain ⟨p, hpos, h⟩ := bind_eq_ok.mp h
  obtain ⟨_, rfl⟩ := index_eq_ok.mp hpos
  obtain ⟨v, hv, h⟩ := bind_eq_ok.mp h
  have hflags := press_flags hv h
  unfold pressedRect
  rw [← focused_tail_eq]
  exact hflags

theorem handleMouseUp_flags (h : handleMouseUp s m = .ok t) : flags t = ⟨false, false, false⟩ := by
  rw [handleMouseUp] at h
  dsimp only at h
  split at h
  case isTrue hc =>
    obtain ⟨u, hu, h⟩ := bind_eq_ok.mp h
    cases h
    have hflags := dispatchToFocused_keeps flags_blind _ u hu
    rw [flags, flags, Flags.mk.injEq] at hflags
    rw [flags, Flags.mk.injEq]
    exact ⟨rfl, hflags.2⟩
  case isFalse hc =>
    cases h
    rw [flags, Bool.eq_false_iff.mpr hc]

theorem handleClick_flags (h : handleClick scr s m = .ok t) : flags t = ⟨false, false, false⟩ := by
  obtain ⟨u, _, h⟩ := bind_eq_ok.mp h
  exact handleMouseUp_flags h

/-- A step other than a press keeps the flags or clears them. -/
theorem step_flags {s t : Session} {c : Call} (hs : Sane s) (ht : step scr s c = .ok t)
    (hc : ∀ m, c = .wmHandleMessage m → m.msgType ≠ .mouseDown) :
    flags t.wm = flags s.wm ∨ flags t.wm = ⟨false, false, false⟩ := by
  cases step_effect hs.ranged hs.desktop ht with
  | full | placed _ _ | closed _ | minimized _ _ | maximized _ _ => exact .inl rfl
  | quiet hq => exact .inl (quiet_keeps flags_blind hq ht)
  | @message m x wm =>
    obtain ⟨u, hm, hu⟩ := bind_eq_ok.mp ht
    have hwm : u = wm := congrArg Session.wm (Except.ok.inj hu)
    subst hwm
    dsimp only
    unfold wmHandleMessage at hm
    split at hm
    · exact .inl (handleMouseMove_keeps flags_blind m u hm)
    · next hdown => exact absurd hdown (hc m rfl)
    · exact .inr (handleClick_flags hm)
    · exact .inr (handleClick_flags hm)
    · exact .inr (handleClick_flags hm)
    · exact .inr (handleMouseUp_flags hm)
    · exact .inl (dispatchTo_keeps flags_blind _ m u hm)
    · exact .inl (dispatchTo_keeps flags_blind _ m u hm)
    · cases hm
      exact .inl rfl

/-- The press does not add a flag beside another. -/
structure Apart (s : Wm) (r : WinRect) : Prop where
  drag : OnDragStrip s r →
    s.clickedOnContent = false ∧ s.clickedOnPopup = false ∧ ¬OnContent s r
  content : OnContent s r → s.clickedOnTitle = false ∧ s.clickedOnPopup = false

instance (s : Wm) (r : WinRect) : Decidable (Apart s r) :=
  decidable_of_iff ((OnDragStrip s r →
      s.clickedOnContent = false ∧ s.clickedOnPopup = false ∧ ¬OnContent s r) ∧
    (OnContent s r → s.clickedOnTitle = false ∧ s.clickedOnPopup = false))
    ⟨fun h => ⟨h.1, h.2⟩, fun h => ⟨h.1, h.2⟩⟩

/-- A press on the popup finds no flag of a window, and one on a window sets one flag at most
and finds no other. -/
def PressApart (s : Wm) : Prop :=
  if OnPopup s then s.clickedOnTitle = false ∧ s.clickedOnContent = false
  else ∀ w, MouseTarget s w → PressInBounds s w → Apart s (pressedRect s w)

def PressesApart (s : Session) : Call → Prop
  | .wmHandleMessage m => m.msgType = .mouseDown → PressApart s.wm
  | _ => True

theorem press_atMostOne_iff (hf : AtMostOne (flags s)) (r : WinRect) :
    AtMostOne ⟨s.clickedOnTitle || decide (OnDragStrip s r),
      s.clickedOnContent || decide (OnContent s r), s.clickedOnPopup⟩ ↔ Apart s r := by
  obtain ⟨htc, htp, hcp⟩ := hf
  simp only [flags] at htc htp hcp
  constructor
  · rintro ⟨h1, h2, h3⟩
    simp only [Bool.or_eq_true, decide_eq_true_eq] at h1 h2 h3
    constructor <;> grind
  · rintro ⟨hd, hc⟩
    constructor <;> simp only [Bool.or_eq_true, decide_eq_true_eq] <;> grind

theorem target_of_ok {s : Session} (hs : Sane s) (hp : ¬OnPopup s.wm)
    (h : handleMouseDown s.wm m = .ok t) : ∃ w, MouseTarget s.wm w ∧ PressInBounds s.wm w := by
  by_cases hw : ∃ w, MouseTarget s.wm w
  · obtain ⟨w, hw⟩ := hw
    refine ⟨w, hw, ?_⟩
    by_contra hin
    exact not_outOfBounds_of_ok h (handleMouseDown_out hs.ranged hs.desktop m hp hw hin)
  · cases (handleMouseDown_diverges hs.ranged m hp (not_exists.mp hw)).symm.trans h

/-- What a press does to the flags, in terms of the state before it. -/
theorem press_atMostOne {s : Session} (hs : Sane s) (hf : AtMostOne (flags s.wm))
    (hm : m.msgType = .mouseDown) :
    (∀ t, step scr s (.wmHandleMessage m) = .ok t → AtMostOne (flags t.wm)) ↔
      PressApart s.wm := by
  have hstep : (∀ t, step scr s (.wmHandleMessage m) = .ok t → AtMostOne (flags t.wm)) ↔
      ∀ t, handleMouseDown s.wm m = .ok t → AtMostOne (flags t) := by
    constructor
    · intro h t ht
      refine h { s with
        wm := t
        popupPlaced := s.popupPlaced ++ List.replicate (popupGrowth s.wm t) s.popupOwner } ?_
      rw [step, wmHandleMessage, hm]
      dsimp only
      rw [ht]
      rfl
    · intro h t ht
      obtain ⟨u, hu, ht⟩ := bind_eq_ok.mp ht
      cases ht
      rw [wmHandleMessage, hm] at hu
      exact h u hu
  rw [hstep, PressApart]
  split
  case isTrue hp =>
    rw [handleMouseDown, if_pos hp]
    constructor
    · intro h
      obtain ⟨-, h1, h2⟩ := h _ rfl
      exact ⟨by simpa [flags] using h1, by simpa [flags] using h2⟩
    · rintro ⟨ht, hc⟩ t ⟨⟩
      constructor <;> simp [flags, ht, hc]
  case isFalse hp =>
    constructor
    · intro h w hw hin
      obtain ⟨t, ht, -⟩ := handleMouseDown_delivers hs.ranged hs.desktop m hp hw hin
      rw [← press_atMostOne_iff hf, ← handleMouseDown_flags hs.ranged hs.desktop hp hw ht]
      exact h t ht
    · intro h t ht
      obtain ⟨w, hw, hin⟩ := target_of_ok hs hp ht
      rw [handleMouseDown_flags hs.ranged hs.desktop hp hw ht, press_atMostOne_iff hf]
      exact h w hw hin

/-- A run keeps at most one flag set exactly when its presses keep apart. -/
theorem at_most_one_flag_iff (scr : Screen) (calls : List Call) :
    Visits (step scr) (fun s => AtMostOne (flags s.wm)) (start scr) calls ↔
      Along (step scr) PressesApart (start scr) calls := by
  have hiff : ∀ (s : Session) (c : Call), Sane s ∧ AtMostOne (flags s.wm) → True →
      ((∀ t, step scr s c = .ok t → AtMostOne (flags t.wm)) ↔ PressesApart s c) := by
    rintro s c ⟨hs, hf⟩ -
    by_cases hc : ∃ m, c = .wmHandleMessage m ∧ m.msgType = .mouseDown
    · obtain ⟨m, rfl, hm⟩ := hc
      rw [press_atMostOne hs hf hm]
      exact ⟨fun h _ => h, fun h => h hm⟩
    · have hother : ∀ m, c = .wmHandleMessage m → m.msgType ≠ .mouseDown :=
        fun m hcm hm => hc ⟨m, hcm, hm⟩
      refine iff_of_true ?_ ?_
      · intro t ht
        rcases step_flags hs ht hother with h | h
        · rw [h]
          exact hf
        · rw [h]
          constructor <;> exact fun h => Bool.false_ne_true h.1
      · cases c with
        | wmHandleMessage m => exact fun hm => absurd hm (hother m rfl)
        | _ => trivial
  refine visits_iff (fun s (h : Sane s ∧ AtMostOne (flags s.wm)) => h.2) hiff ?_
    ⟨start_sane scr, ?_⟩ (along_of_forall (fun _ _ => trivial) _ _)
  · rintro s c t h - hg ht
    exact ⟨step_sane h.1 ht, (hiff s c h trivial).mpr hg t ht⟩
  · constructor <;> exact fun h => Bool.false_ne_true h.1

end Flags

/-- The cursor is moved to the row where the title strip and the content of the window meet. -/
def pressOnBorder : List Call :=
  twoWindows ++ [.wmHandleMessage (newmsgAt .mouseMove (-250) 200),
    .wmHandleMessage (newmsg .mouseDown)]

theorem press_on_border_sets_both :
    ¬∀ (scr : Screen) (calls : List Call),
      Visits (step scr) (fun s => AtMostOne (flags s.wm)) (start scr) calls := by
  intro h
  obtain ⟨s, hs, hf⟩ := execution_of_map (step desktopScreen) (start desktopScreen) pressOnBorder
    (fun s => decide (flags s.wm = ⟨true, true, false⟩)) (b := true) (by decide +kernel)
  have hlast := (h desktopScreen pressOnBorder).last hs
  rw [of_decide_eq_true hf] at hlast
  exact hlast.title_content ⟨rfl, rfl⟩

section Chrome

variable {scr : Screen} {s t : Wm} {m : Message}

/-- The messages of the buttons in the title bar. -/
def IsButton (x : Message) : Prop := x.msgType = .windowClose ∨ x.msgType = .windowMinimize

/-- Only a window with a title bar is closed, minimised or taken by it. -/
structure OnlyTitled (s t : Wm) : Prop where
  button : ∀ i, ∀ x ∈ arrivals (s.windowlist.wnd i).msgBuf (t.windowlist.wnd i).msgBuf,
    IsButton x → (s.windowlist.wnd i).hasTitleBar ≠ 0
  drag : s.clickedOnTitle = false → t.clickedOnTitle = true →
    (s.windowlist.wnd t.windowlisttail).hasTitleBar ≠ 0

/-- Each press closes, minimises or takes only a window with a title bar. -/
def TitleLaw (scr : Screen) (s : Session) : Call → Prop
  | .wmHandleMessage m => m.msgType = .mouseDown →
      ∀ t, wmHandleMessage scr s.wm m = .ok t → OnlyTitled s.wm t
  | _ => True

/-- A press on the strip has no effect: the queue is full, or a drag goes on already. -/
def StripIdle (s : Wm) (w : KernelWindow) : Prop :=
  if s.wmMousePos.x + 60 > w.position.xmax then w.msgBuf.cnt ≥ msgBufSize
  else s.clickedOnTitle = true

/-- A press on the strip above a window finds a title bar there. -/
def StripTitled (s : Wm) (w : KernelWindow) : Prop :=
  OnStrip s w.position → w.hasTitleBar ≠ 0 ∨ StripIdle s w

def PressTitled (s : Wm) : Prop :=
  OnPopup s ∨ ∀ w, MouseTarget s w → PressInBounds s w →
    StripTitled s (s.windowlist.wnd (pressed s w))

def PressesTitled (s : Session) : Call → Prop
  | .wmHandleMessage m => m.msgType = .mouseDown → PressTitled s.wm
  | _ => True

theorem titleMessages_of_not_strip {w : KernelWindow} (h : ¬OnStrip s w.position) :
    titleMessages s w = [] := if_neg h

theorem titleMessages_of_drag {w : KernelWindow} (h : s.wmMousePos.x + 60 ≤ w.position.xmax) :
    titleMessages s w = [] := by
  have hclose : ¬s.wmMousePos.x + 30 > w.position.xmax := by omega
  have hmin : ¬(s.wmMousePos.x + 60 > w.position.xmax ∧ s.wmMousePos.x + 30 ≤ w.position.xmax) := by
    omega
  unfold titleMessages
  rw [if_neg hclose, if_neg hmin, ite_self]

theorem titleMessages_of_button {w : KernelWindow} (h : OnStrip s w.position)
    (hx : s.wmMousePos.x + 60 > w.position.xmax) : ∃ x, titleMessages s w = [x] ∧ IsButton x := by
  unfold OnStrip at h
  unfold titleMessages
  rw [if_pos h]
  split
  case isTrue => exact ⟨_, rfl, .inl rfl⟩
  case isFalse hclose =>
    rw [if_pos ⟨hx, by omega⟩]
    exact ⟨_, rfl, .inr rfl⟩

theorem pressedMessages_not_button {r : WinRect} {τ : MsgType} (hτ : τ = .mouseDown) {x : Message}
    (hx : x ∈ pressedMessages s r τ) : ¬IsButton x := by
  rw [(mem_pressedMessages.mp hx).2, hτ]
  rintro (h | h) <;> cases h

/-- A button of the strip takes effect where the queue has room. -/
theorem button_arrives {w : ℤ} (hr : Ranged (links s)) (hd : IsLink s.desktopId) (hp : ¬OnPopup s)
    (hw : MouseTarget s w) (h : handleMouseDown s m = .ok t)
    (hs : OnStrip s (pressedRect s w)) (hx : s.wmMousePos.x + 60 > (pressedRect s w).xmax)
    (hroom : (s.windowlist.wnd (pressed s w)).msgBuf.cnt < msgBufSize) :
    ∃ x ∈ arrivals (s.windowlist.wnd (pressed s w)).msgBuf (t.windowlist.wnd (pressed s w)).msgBuf,
      IsButton x := by
  obtain ⟨x, hmsg, hbutton⟩ := titleMessages_of_button hs hx
  have hpost := (handleMouseDown_posted hr hd hp hw h).1
  rw [focused_tail_eq] at hpost
  refine ⟨x, ?_, hbutton⟩
  rw [arrivals_posted hpost, sole_self, arrivals_post _ (press_length s _ _), hmsg]
  obtain ⟨n, hn⟩ : ∃ n, (msgBufSize - (s.windowlist.wnd (pressed s w)).msgBuf.cnt).toNat = n + 1 :=
    Nat.exists_eq_succ_of_ne_zero (by omega)
  rw [hn]
  exact List.mem_cons_self

/-- A button that arrives was under the cursor, and its window had room. -/
theorem button_of_arrival {w : ℤ} (hr : Ranged (links s)) (hd : IsLink s.desktopId)
    (hp : ¬OnPopup s) (hw : MouseTarget s w) (hm : m.msgType = .mouseDown)
    (h : handleMouseDown s m = .ok t) {i : ℤ} {x : Message}
    (hx : x ∈ arrivals (s.windowlist.wnd i).msgBuf (t.windowlist.wnd i).msgBuf)
    (hbutton : IsButton x) :
    i = pressed s w ∧ OnStrip s (pressedRect s w) ∧
      s.wmMousePos.x + 60 > (pressedRect s w).xmax ∧
      (s.windowlist.wnd (pressed s w)).msgBuf.cnt < msgBufSize := by
  have hpost := (handleMouseDown_posted hr hd hp hw h).1
  rw [focused_tail_eq] at hpost
  rw [arrivals_posted hpost] at hx
  obtain ⟨rfl, hmem⟩ := mem_sole (mem_of_mem_arrivals hx)
  have htitle : x ∈ titleMessages s (s.windowlist.wnd (pressed s w)) := by
    rcases List.mem_append.mp hmem with h | h
    · exact h
    · exact absurd hbutton (pressedMessages_not_button hm h)
  refine ⟨rfl, ?_, ?_, ?_⟩
  · by_contra hs
    rw [titleMessages_of_not_strip hs] at htitle
    cases htitle
  · by_contra hle
    rw [titleMessages_of_drag (not_lt.mp hle)] at htitle
    cases htitle
  · by_contra hfull
    rw [sole_self, arrivals_of_full (press_length s _ _) (not_lt.mp hfull)] at hx
    cases hx

theorem onlyTitled_iff {w : ℤ} (hr : Ranged (links s)) (hd : IsLink s.desktopId) (hp : ¬OnPopup s)
    (hw : MouseTarget s w) (hm : m.msgType = .mouseDown) (h : handleMouseDown s m = .ok t) :
    OnlyTitled s t ↔ StripTitled s (s.windowlist.wnd (pressed s w)) := by
  have htail := (handleMouseDown_posted hr hd hp hw h).2
  have hflags := handleMouseDown_flags hr hd hp hw h
  rw [focused_tail_eq] at htail
  have htitle : t.clickedOnTitle = (s.clickedOnTitle || decide (OnDragStrip s (pressedRect s w))) :=
    congrArg Flags.title hflags
  constructor
  · rintro ⟨hbutton, hdrag⟩ hs
    by_cases hx : s.wmMousePos.x + 60 > (pressedRect s w).xmax
    · by_cases hroom : (s.windowlist.wnd (pressed s w)).msgBuf.cnt < msgBufSize
      · obtain ⟨x, hmem, hb⟩ := button_arrives hr hd hp hw h hs hx hroom
        exact .inl (hbutton _ x hmem hb)
      · right
        unfold StripIdle
        rw [if_pos (by exact hx)]
        exact not_lt.mp hroom
    · cases hc : s.clickedOnTitle with
      | true =>
        right
        unfold StripIdle
        rwa [if_neg (by exact hx)]
      | false =>
        left
        rw [← htail]
        apply hdrag hc
        rw [htitle, decide_eq_true ⟨hs, not_lt.mp hx⟩, Bool.or_true]
  · intro hs
    constructor
    · intro i x hx hb
      obtain ⟨rfl, hstrip, hend, hroom⟩ := button_of_arrival hr hd hp hw hm h hx hb
      refine (hs hstrip).resolve_right ?_
      intro hidle
      unfold StripIdle at hidle
      rw [if_pos (by exact hend)] at hidle
      omega
    · intro hc ht
      rw [htitle, hc, Bool.false_or, decide_eq_true_eq] at ht
      rw [htail]
      refine (hs ht.1).resolve_right ?_
      intro hidle
      unfold StripIdle at hidle
      rw [if_neg (by exact not_lt.mpr ht.2), hc] at hidle
      cases hidle

theorem press_titled {s : Session} (hs : Sane s) (hm : m.msgType = .mouseDown) :
    (∀ t, wmHandleMessage scr s.wm m = .ok t → OnlyTitled s.wm t) ↔ PressTitled s.wm := by
  simp only [wmHandleMessage, hm, PressTitled]
  by_cases hp : OnPopup s.wm
  · refine iff_of_true ?_ (.inl hp)
    intro t ht
    rw [handleMouseDown, if_pos hp] at ht
    cases ht
    constructor
    · intro i x hx
      rw [arrivals_self] at hx
      cases hx
    · intro hc ht
      exact absurd (hc.symm.trans ht) Bool.false_ne_true
  · rw [or_iff_right hp]
    constructor
    · intro h w hw hin
      obtain ⟨t, ht, -⟩ := handleMouseDown_delivers hs.ranged hs.desktop m hp hw hin
      exact (onlyTitled_iff hs.ranged hs.desktop hp hw hm ht).mp (h t ht)
    · intro h t ht
      obtain ⟨w, hw, hin⟩ := target_of_ok hs hp ht
      exact (onlyTitled_iff hs.ranged hs.desktop hp hw hm ht).mpr (h w hw hin)

/-- In a run, presses close, minimise or take only windows with a title bar, exactly when the
strips they hit belong to such windows or have no effect. -/
theorem titled_presses_iff (scr : Screen) (calls : List Call) :
    Along (step scr) (TitleLaw scr) (start scr) calls ↔
      Along (step scr) PressesTitled (start scr) calls := by
  refine along_iff ?_ (fun s c t (h : Sane s) _ _ ht => step_sane h ht) (start_sane scr)
    (along_of_forall (fun _ _ => trivial) _ _)
  intro s c hs _
  cases c with
  | wmHandleMessage m => exact forall_congr' fun hm => press_titled hs hm
  | _ => exact Iff.rfl

end Chrome

/-- The cursor is moved to the upper right corner of the screen, which only the desktop covers. -/
def moveToCorner : List Call :=
  [.createWindow 0 desktopWindow [], .wmHandleMessage (newmsgAt .mouseMove 390 300)]

/-- What a press puts into the desktop's queue. -/
def desktopArrivals (s : Wm) : Except Fault (List MsgType) :=
  (wmHandleMessage desktopScreen s (newmsg .mouseDown)).map fun t =>
    (arrivals (s.windowlist.wnd 0).msgBuf (t.windowlist.wnd 0).msgBuf).map (·.msgType)

/-- The desktop has no title bar, yet a press in the corner tells it to close. -/
theorem press_closes_desktop :
    ¬∀ (scr : Screen) (calls : List Call), Along (step scr) (TitleLaw scr) (start scr) calls := by
  intro h
  obtain ⟨s, hs, hf⟩ := execution_of_map (step desktopScreen) (start desktopScreen) moveToCorner
    (fun s => decide ((s.wm.windowlist.wnd 0).hasTitleBar = 0 ∧
      desktopArrivals s.wm = .ok [.windowClose, .mouseDown])) (b := true) (by decide +kernel)
  obtain ⟨hbar, hafter⟩ := of_decide_eq_true hf
  have hlaw := (h desktopScreen
    (moveToCorner ++ .wmHandleMessage (newmsg .mouseDown) :: [])).reached hs rfl
  simp only [desktopArrivals] at hafter
  cases ht : wmHandleMessage desktopScreen s.wm (newmsg .mouseDown) with
  | error e =>
    rw [ht] at hafter
    cases hafter
  | ok t =>
    rw [ht] at hafter
    have hmap : (arrivals (s.wm.windowlist.wnd 0).msgBuf (t.windowlist.wnd 0).msgBuf).map
        (·.msgType) = [.windowClose, .mouseDown] := Except.ok.inj hafter
    have hmem : MsgType.windowClose ∈ (arrivals (s.wm.windowlist.wnd 0).msgBuf
        (t.windowlist.wnd 0).msgBuf).map (·.msgType) := by
      rw [hmap]
      exact List.mem_cons_self
    obtain ⟨x, hx, hclose⟩ := List.mem_map.mp hmem
    exact (hlaw t ht).button 0 x hx (.inl hclose) hbar

end WindowPresses
