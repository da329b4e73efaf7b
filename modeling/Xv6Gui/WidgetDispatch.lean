import Xv6Gui.TextLayouts

/-!
# Painting widgets and dispatching messages to them

repaintWindow and updateWindow of user_window.c. Painting follows the list from the head and
the search for a clicked widget follows it from the tail. Both are bounded by the number of
slots; a walk that passes more slots than that goes round and never ends.
-/
namespace WidgetDispatch

open WindowManagerState UserWidgets WidgetList LinkedSlots GuardedRuns TextLayouts

def isInRect (xmin ymin xmax ymax x y : ℤ) : Bool :=
  decide (x ≥ xmin ∧ x ≤ xmax ∧ y ≥ ymin ∧ y ≤ ymax)

/-- The rectangle of a widget where the window shows it. -/
def shownRect (win : UserWindow) (w : Widget) : WinRect :=
  if w.scrollable ≠ 0 then
    ⟨i32 (w.position.xmin - win.scrollOffsetX), i32 (w.position.xmax - win.scrollOffsetX),
      i32 (w.position.ymin - win.scrollOffsetY), i32 (w.position.ymax - win.scrollOffsetY)⟩
  else w.position

/-- The test with which `repaintWindow` skips a widget. -/
def Invisible (win : UserWindow) (w : Widget) : Prop :=
  (w.scrollable = 0 ∧ (w.position.xmin > win.window.width ∨ w.position.xmax < 0 ∨
    w.position.ymin > win.window.height ∨ w.position.ymax < 0)) ∨
  (w.scrollable ≠ 0 ∧ (i32 (w.position.xmin - win.scrollOffsetX) > win.window.width ∨
    i32 (w.position.xmax - win.scrollOffsetX) < 0 ∨
    i32 (w.position.ymin - win.scrollOffsetY) > win.window.height ∨
    i32 (w.position.ymax - win.scrollOffsetY) < 0))

instance (win : UserWindow) (w : Widget) : Decidable (Invisible win w) :=
  inferInstanceAs (Decidable (_ ∨ _))

/-- The widgets that the loop of `repaintWindow` paints, in this order. -/
def repaintFrom (win : UserWindow) : ℕ → ℤ → Except Fault (List ℤ)
  | fuel, p =>
    if p = -1 then .ok []
    else widgetIndex p >>= fun p =>
      match fuel with
      | 0 => .error .diverges
      | fuel + 1 => repaintFrom win fuel (win.next p) >>= fun l =>
        .ok (if Invisible win (win.widgets p) then l else p :: l)

def repaintWindow (win : UserWindow) : Except Fault (List ℤ) :=
  if win.needsRepaint ≠ 0 then repaintFrom win maxWidgetSize win.widgetlisthead else .ok []

/-- The test with which `updateWindow` looks for the widget under the mouse. -/
def OnWidget (win : UserWindow) (w : Widget) (x y : ℤ) : Prop :=
  (w.scrollable = 0 ∧
    isInRect w.position.xmin w.position.ymin w.position.xmax w.position.ymax x y = true) ∨
  (w.scrollable ≠ 0 ∧
    isInRect (i32 (w.position.xmin - win.scrollOffsetX)) (i32 (w.position.ymin - win.scrollOffsetY))
      (i32 (w.position.xmax - win.scrollOffsetX)) (i32 (w.position.ymax - win.scrollOffsetY))
      x y = true)

instance (win : UserWindow) (w : Widget) (x y : ℤ) : Decidable (OnWidget win w x y) :=
  inferInstanceAs (Decidable (_ ∨ _))

/-- The value of `p` behind the search from the tail: a widget under the mouse, or -1. -/
def findWidget (win : UserWindow) (x y : ℤ) : ℕ → ℤ → Except Fault ℤ
  | fuel, p =>
    if p = -1 then .ok (-1)
    else widgetIndex p >>= fun p =>
      if OnWidget win (win.widgets p) x y then .ok p
      else
        match fuel with
        | 0 => .error .diverges
        | fuel + 1 => findWidget win x y fuel (win.prev p)

/-- What a message leads to. `clicked` says that the widget was found by its position. -/
inductive Dispatch where
  | nothing | closeWindow | minimizeWindow | maximizeWindow
  | handler (p : ℤ) (code : Handler) (msg : Message) (clicked : Bool)
  deriving DecidableEq

/-- The message that the handler of a scrollable widget gets. -/
def scrolledMsg (win : UserWindow) (msg : Message) : Message where
  msgType := msg.msgType
  params i := if i = 0 then some (i32 (msg.param 0 + win.scrollOffsetX))
    else if i = 1 then some (i32 (msg.param 1 + win.scrollOffsetY)) else none

/-- The decision of `updateWindow`, up to the call of the handler. -/
def updateWindow (win : UserWindow) (msg : Message) : Except Fault Dispatch :=
  if msg.msgType = .windowClose then .ok .closeWindow
  else if msg.msgType = .windowMinimize then .ok .minimizeWindow
  else if msg.msgType = .windowMaximize then .ok .maximizeWindow
  else if win.keyfocus ≠ -1 ∧ (msg.msgType = .keyDown ∨ msg.msgType = .keyUp) then
    widgetIndex win.keyfocus >>= fun p => .ok (.handler p (win.widgets p).handler msg false)
  else
    findWidget win (msg.param 0) (msg.param 1) maxWidgetSize win.widgetlisttail >>= fun p =>
      if p = -1 then .ok .nothing
      else if (win.widgets p).scrollable = 0 then
        .ok (.handler p (win.widgets p).handler msg true)
      else .ok (.handler p (win.widgets p).handler (scrolledMsg win msg) true)

variable {win : UserWindow} {x y : ℤ}

section Shown

/-- The painters of colours, buttons, texts and input fields paint `w` into this rectangle. -/
structure PaintsIn (win : UserWindow) (w : Widget) (r : WinRect) : Prop where
  corner : paintedAt win w = ⟨r.xmin, r.ymin⟩
  width : widgetWidth w = i32 (r.xmax - r.xmin)
  height : widgetHeight w = i32 (r.ymax - r.ymin)

theorem paintsIn_shownRect (win : UserWindow) (w : Widget) :
    PaintsIn win w (shownRect win w) := by
  have hshift : ∀ a b c : ℤ, i32 (a - b) = i32 (i32 (a - c) - i32 (b - c)) := by
    intro a b c
    have ha := i32_mod (a - c)
    have hb := i32_mod (b - c)
    rw [i32_congr]
    omega
  by_cases h : w.scrollable ≠ 0
  · rw [shownRect, if_pos h]
    exact ⟨if_pos h, hshift _ _ _, hshift _ _ _⟩
  · rw [shownRect, if_neg h]
    exact ⟨if_neg h, rfl, rfl⟩

/-- The search for the mouse looks at the rectangle that is shown. -/
theorem onWidget_iff (win : UserWindow) (w : Widget) (x y : ℤ) :
    OnWidget win w x y ↔ (shownRect win w).xmin ≤ x ∧ x ≤ (shownRect win w).xmax ∧
      (shownRect win w).ymin ≤ y ∧ y ≤ (shownRect win w).ymax := by
  simp only [OnWidget, shownRect, isInRect, decide_eq_true_eq, ge_iff_le]
  by_cases h : w.scrollable = 0
  · simp [h]
  · simp [h]

end Shown

section Search

/-- Where the search stops: at the end of the list, at a widget under the mouse or outside
the array. -/
def SearchStops (win : UserWindow) (x y p : ℤ) : Prop :=
  p = -1 ∨ ¬InWidgets p ∨ OnWidget win (win.widgets p) x y

/-- The links lead from the tail to slot `p` through other slots. -/
def OnList (win : UserWindow) (p : ℤ) : Prop :=
  InWidgets p ∧ ∃ l, Path (· = p) win.prev win.widgetlisttail l p ∧ ∀ i ∈ l, InWidgets i

theorem length_le_widgets {l : List ℤ} (hnd : l.Nodup) (hl : ∀ i ∈ l, InWidgets i) :
    l.length ≤ maxWidgetSize := by
  have hsub : l ⊆ widgetSlots := fun i hi => mem_widgetSlots.mpr (hl i hi)
  simpa [widgetSlots] using (hnd.subperm hsub).length_le

theorem findWidget_hit {p : ℤ} (hp : InWidgets p) (h : OnWidget win (win.widgets p) x y)
    (fuel : ℕ) : findWidget win x y fuel p = .ok p := by
  rw [findWidget, if_neg hp.ne_neg, widgetIndex_ok hp, ok_bind, if_pos h]

theorem findWidget_succ {p : ℤ} (hp : InWidgets p) (h : ¬OnWidget win (win.widgets p) x y)
    (fuel : ℕ) : findWidget win x y (fuel + 1) p = findWidget win x y fuel (win.prev p) := by
  rw [findWidget, if_neg hp.ne_neg, widgetIndex_ok hp, ok_bind, if_neg h]

theorem findWidget_of_path {p q : ℤ} {l : List ℤ}
    (h : Path (SearchStops win x y) win.prev p l q) (hq : q = -1 ∨ InWidgets q) {fuel : ℕ}
    (hfuel : l.length ≤ fuel) : findWidget win x y fuel p = .ok q := by
  induction h generalizing fuel with
  | done hstop =>
    rcases hq with rfl | hq
    · rw [findWidget, if_pos rfl]
    · have hon := (hstop.resolve_left hq.ne_neg).resolve_left (not_not_intro hq)
      exact findWidget_hit hq hon fuel
  | @visit p l q hgo _ ih =>
    obtain ⟨hne, hin, hon⟩ : p ≠ -1 ∧ InWidgets p ∧ ¬OnWidget win (win.widgets p) x y := by
      simpa [SearchStops] using hgo
    cases fuel with
    | zero => simp at hfuel
    | succ fuel =>
      rw [findWidget_succ hin hon]
      exact ih hq (Nat.le_of_succ_le_succ hfuel)

theorem widgetIndex_eq_ok {i j : ℤ} : widgetIndex i = .ok j ↔ InWidgets i ∧ j = i := by
  simp only [widgetIndex]
  split <;> simp_all [eq_comm]

/-- A search that ends has followed the list. -/
theorem path_of_findWidget {p q : ℤ} {fuel : ℕ} (h : findWidget win x y fuel p = .ok q) :
    (∃ l, Path (SearchStops win x y) win.prev p l q ∧ ∀ i ∈ l, InWidgets i) ∧
      (q = -1 ∨ InWidgets q) := by
  have hend : SearchStops win x y (-1) := Or.inl rfl
  induction fuel generalizing p with
  | zero =>
    rw [findWidget] at h
    split at h
    · next he =>
      subst he
      cases h
      exact ⟨⟨[], .done hend, by simp⟩, .inl rfl⟩
    · obtain ⟨i, hi, hif⟩ := bind_eq_ok.mp h
      obtain ⟨hin, rfl⟩ := widgetIndex_eq_ok.mp hi
      split at hif
      · next hon =>
        cases hif
        exact ⟨⟨[], .done (.inr (.inr hon)), by simp⟩, .inr hin⟩
      · cases hif
  | succ fuel ih =>
    rw [findWidget] at h
    split at h
    · next he =>
      subst he
      cases h
      exact ⟨⟨[], .done hend, by simp⟩, .inl rfl⟩
    · next hne =>
      obtain ⟨i, hi, hif⟩ := bind_eq_ok.mp h
      obtain ⟨hin, rfl⟩ := widgetIndex_eq_ok.mp hi
      split at hif
      · next hon =>
        cases hif
        exact ⟨⟨[], .done (.inr (.inr hon)), by simp⟩, .inr hin⟩
      · next hon =>
        obtain ⟨⟨l, hl, hall⟩, hq⟩ := ih hif
        refine ⟨⟨i :: l, .visit ?_ hl, ?_⟩, hq⟩
        · simp [SearchStops, hne, hin, hon]
        · simpa using ⟨hin, hall⟩

/-- A walk through the array to a widget under the mouse ends there or at an earlier one. -/
theorem search_of_walk {stop : ℤ → Prop} {t p : ℤ} {l : List ℤ} (h : Path stop win.prev t l p)
    (hl : ∀ i ∈ l, InWidgets i) (hp : InWidgets p) (hon : OnWidget win (win.widgets p) x y) :
    ∃ l' q, Path (SearchStops win x y) win.prev t l' q ∧ InWidgets q := by
  induction h with
  | @done p _ => exact ⟨[], p, .done (Or.inr (Or.inr hon)), hp⟩
  | @visit t l p _ _ ih =>
    have ht := hl t List.mem_cons_self
    by_cases hw : OnWidget win (win.widgets t) x y
    · exact ⟨[], t, .done (Or.inr (Or.inr hw)), ht⟩
    · obtain ⟨l', q, hpath, hq⟩ := ih (fun i hi => hl i (List.mem_cons_of_mem t hi)) hp hon
      exact ⟨t :: l', q, .visit (by simp [SearchStops, ht.ne_neg, ht, hw]) hpath, hq⟩

theorem searched_inWidgets {t p : ℤ} {l : List ℤ}
    (h : Path (SearchStops win x y) win.prev t l p) : ∀ i ∈ l, InWidgets i := by
  induction h with
  | done => simp
  | visit hgo _ ih =>
    intro i hi
    rcases List.mem_cons.mp hi with rfl | hi
    · by_contra hn
      exact hgo (Or.inr (Or.inl hn))
    · exact ih i hi

/-- The search finds a widget if and only if there is one under the mouse on the list. -/
theorem findWidget_finds_iff (win : UserWindow) (x y : ℤ) : (∃ p, InWidgets p ∧
    findWidget win x y maxWidgetSize win.widgetlisttail = .ok p) ↔
      ∃ p, OnList win p ∧ OnWidget win (win.widgets p) x y := by
  constructor
  · rintro ⟨p, hp, h⟩
    obtain ⟨⟨l, hpath, hl⟩, -⟩ := path_of_findWidget h
    have hon := (hpath.stopped.resolve_left hp.ne_neg).resolve_left (not_not_intro hp)
    refine ⟨p, ⟨hp, l, hpath.stops_later ?_ rfl, hl⟩, hon⟩
    rintro i rfl
    exact .inr (.inr hon)
  · rintro ⟨p, ⟨hp, l, hpath, hl⟩, hon⟩
    obtain ⟨l', q, hpath', hq⟩ := search_of_walk hpath hl hp hon
    refine ⟨q, hq, findWidget_of_path hpath' (.inr hq) ?_⟩
    exact length_le_widgets hpath'.nodup (searched_inWidgets hpath')

end Search

section Keys

/-- A key message reaches only the widget with the key focus if and only if some widget has
it or none of the list lies where the key code and the modifiers are as coordinates. -/
theorem key_reaches_focus_iff (win : UserWindow) (msg : Message)
    (hk : msg.msgType = .keyDown ∨ msg.msgType = .keyUp) :
    (∀ p code m clicked, updateWindow win msg = .ok (.handler p code m clicked) →
      p = win.keyfocus) ↔
    (win.keyfocus ≠ -1 ∨ ∀ p, OnList win p →
      ¬OnWidget win (win.widgets p) (msg.param 0) (msg.param 1)) := by
  have hkey : updateWindow win msg =
      if win.keyfocus ≠ -1 then
        widgetIndex win.keyfocus >>= fun p => .ok (.handler p (win.widgets p).handler msg false)
      else
        findWidget win (msg.param 0) (msg.param 1) maxWidgetSize win.widgetlisttail >>= fun p =>
          if p = -1 then .ok .nothing
          else if (win.widgets p).scrollable = 0 then
            .ok (.handler p (win.widgets p).handler msg true)
          else .ok (.handler p (win.widgets p).handler (scrolledMsg win msg) true) := by
    rcases hk with hk | hk <;> simp [updateWindow, hk]
  rw [hkey]
  by_cases hf : win.keyfocus = -1
  · rw [if_neg (not_not_intro hf)]
    simp only [ne_eq, hf, not_true, false_or]
    have hfinds := findWidget_finds_iff win (msg.param 0) (msg.param 1)
    constructor
    · intro h p hl hon
      obtain ⟨q, hq, hfind⟩ := hfinds.mpr ⟨p, hl, hon⟩
      rw [hfind, ok_bind, if_neg hq.ne_neg] at h
      split at h
      · exact hq.ne_neg (h _ _ _ _ rfl)
      · exact hq.ne_neg (h _ _ _ _ rfl)
    · intro h p code m clicked hp
      obtain ⟨q, hfind, hq⟩ := bind_eq_ok.mp hp
      split at hq
      · cases hq
      · next hne =>
        have hin := (path_of_findWidget hfind).2.resolve_left hne
        obtain ⟨r, hr, hon⟩ := hfinds.mp ⟨q, hin, hfind⟩
        exact absurd hon (h r hr)
  · rw [if_pos hf]
    refine iff_of_true ?_ (Or.inl hf)
    intro p code m clicked hp
    obtain ⟨q, hq, hp⟩ := bind_eq_ok.mp hp
    cases hp
    exact (widgetIndex_eq_ok.mp hq).2

/-- A window filled by its background, without a key focus. -/
def backgroundWindow : UserWindow :=
  { emptyWindow with
    widgets := fun _ => ⟨some (.colorfill ⟨black, 200, 200⟩), .colorfill, ⟨0, 200, 0, 200⟩, 0, 0⟩
    next := fun i => if i = 0 then -1 else i
    prev := fun i => if i = 0 then -1 else i
    widgetlisthead := 0
    widgetlisttail := 0
    keyfocus := -1 }

/-- A key without modifiers that has gone down. -/
def keyMsg (key : ℤ) : Message := ⟨.keyDown, fun i => some (if i = 0 then key else 0)⟩

/-- The code of an arrow key lies outside of the background. -/
theorem key_reaches_focus_arrow :
    (keyMsg 0xE2).msgType = .keyDown ∧ ∀ p code m clicked,
      updateWindow backgroundWindow (keyMsg 0xE2) = .ok (.handler p code m clicked) →
        p = backgroundWindow.keyfocus := by
  refine ⟨rfl, (key_reaches_focus_iff backgroundWindow (keyMsg 0xE2) (Or.inl rfl)).mpr
    (Or.inr ?_)⟩
  intro p _
  change ¬OnWidget backgroundWindow (backgroundWindow.widgets 0) 0xE2 0
  decide

/-- The letter `a` is taken for a click at (97, 0). -/
theorem key_reaches_background : ¬∀ (win : UserWindow) (msg : Message),
    msg.msgType = .keyDown ∨ msg.msgType = .keyUp → ∀ p code m clicked,
      updateWindow win msg = .ok (.handler p code m clicked) → p = win.keyfocus := by
  intro h
  have hp := h backgroundWindow (keyMsg 97) (Or.inl rfl) 0 0 (keyMsg 97) true (by decide)
  exact absurd hp (by decide)

end Keys

section Clicks

/-- The messages that carry a position. -/
def IsMouse (t : MsgType) : Prop :=
  t = .mouseMove ∨ t = .mouseDown ∨ t = .mouseUp ∨ t = .mouseLeftClick ∨ t = .mouseRightClick ∨
    t = .mouseDblclick

instance (t : MsgType) : Decidable (IsMouse t) := inferInstanceAs (Decidable (_ ∨ _))

/-- The rectangle in which the window shows `w` contains the point, edges included. -/
def Shows (win : UserWindow) (w : Widget) (x y : ℤ) : Prop :=
  (shownRect win w).xmin ≤ x ∧ x ≤ (shownRect win w).xmax ∧
    (shownRect win w).ymin ≤ y ∧ y ≤ (shownRect win w).ymax

instance (win : UserWindow) (w : Widget) (x y : ℤ) : Decidable (Shows win w x y) :=
  inferInstanceAs (Decidable (_ ∧ _))

/-- Of the widgets painted in this order, `p` is the last one shown at the point. -/
structure Topmost (win : UserWindow) (order : List ℤ) (x y p : ℤ) : Prop where
  shows : Shows win (win.widgets p) x y
  above : ∃ below above, order = below ++ p :: above ∧ ∀ q ∈ above, ¬Shows win (win.widgets q) x y

/-- What the handler of `w` is given for a message: the position moves with the widget. -/
structure Delivers (win : UserWindow) (w : Widget) (msg m : Message) : Prop where
  msgType : m.msgType = msg.msgType
  x : m.param 0 = if w.scrollable ≠ 0 then i32 (msg.param 0 + win.scrollOffsetX) else msg.param 0
  y : m.param 1 = if w.scrollable ≠ 0 then i32 (msg.param 1 + win.scrollOffsetY) else msg.param 1

theorem repaintFrom_of_path {p q : ℤ} {l : List ℤ} (h : Path (· = -1) win.next p l q)
    (hl : ∀ i ∈ l, InWidgets i) {fuel : ℕ} (hfuel : l.length ≤ fuel) :
    repaintFrom win fuel p = .ok (l.filter fun i => ¬Invisible win (win.widgets i)) := by
  induction h generalizing fuel with
  | done hp =>
    rw [repaintFrom, if_pos hp]
    rfl
  | @visit p l q hp _ ih =>
    have hi := hl p List.mem_cons_self
    cases fuel with
    | zero => simp at hfuel
    | succ fuel =>
      have hrest := ih (fun i hi => hl i (List.mem_cons_of_mem p hi))
        (Nat.le_of_succ_le_succ hfuel)
      rw [repaintFrom, if_neg hi.ne_neg, widgetIndex_ok hi, ok_bind]
      dsimp only
      rw [hrest, ok_bind]
      by_cases hv : Invisible win (win.widgets p)
      · simp [hv]
      · simp [hv]

theorem findWidget_of_list {p q : ℤ} {l : List ℤ} (h : Path (· = -1) win.prev p l q)
    (hl : ∀ i ∈ l, InWidgets i) {fuel : ℕ} (hfuel : l.length ≤ fuel) :
    findWidget win x y fuel p =
      .ok ((l.find? fun i => OnWidget win (win.widgets i) x y).getD (-1)) := by
  induction h generalizing fuel with
  | done hp =>
    rw [findWidget, if_pos hp]
    rfl
  | @visit p l q hp _ ih =>
    have hi := hl p List.mem_cons_self
    cases fuel with
    | zero => simp at hfuel
    | succ fuel =>
      by_cases hon : OnWidget win (win.widgets p) x y
      · rw [findWidget_hit hi hon, List.find?_cons_of_pos (by simpa using hon)]
        rfl
      · rw [findWidget_succ hi hon, List.find?_cons_of_neg (by simpa using hon)]
        exact ih (fun i hi => hl i (List.mem_cons_of_mem p hi)) (Nat.le_of_succ_le_succ hfuel)

variable {s : Program} {msg : Message}

theorem findWidget_cases (h : WellFormed s) (x y : ℤ) :
    (∃ p ∈ s.order, Topmost s.window s.order x y p ∧
      findWidget s.window x y maxWidgetSize s.window.widgetlisttail = .ok p) ∨
    ((∀ p ∈ s.order, ¬Shows s.window (s.window.widgets p) x y) ∧
      findWidget s.window x y maxWidgetSize s.window.widgetlisttail = .ok (-1)) := by
  have hshows : ∀ p, OnWidget s.window (s.window.widgets p) x y ↔
      Shows s.window (s.window.widgets p) x y := fun p => onWidget_iff _ _ x y
  have hrev : ∀ i ∈ s.order.reverse, InWidgets i :=
    fun i hi => h.inWidgets i (List.mem_reverse.mp hi)
  have hlen := length_le_widgets (List.nodup_reverse.mpr h.linked.nodup) hrev
  rw [findWidget_of_list h.hitTesting hrev hlen]
  cases hf : s.order.reverse.find? fun i => OnWidget s.window (s.window.widgets i) x y with
  | none =>
    right
    refine ⟨?_, rfl⟩
    intro p hp hs
    have := List.find?_eq_none.mp hf p (List.mem_reverse.mpr hp)
    exact this (by simpa using (hshows p).mpr hs)
  | some p =>
    left
    obtain ⟨hon, above, below, hsplit, habove⟩ := List.find?_eq_some_iff_append.mp hf
    have hsplit : s.order = below.reverse ++ p :: above.reverse := by
      rw [← List.reverse_reverse s.order, hsplit]
      simp
    refine ⟨p, by simp [hsplit], ⟨(hshows p).mp (by simpa using hon), _, _, hsplit, ?_⟩, rfl⟩
    intro q hq hs
    have := habove q (List.mem_reverse.mp hq)
    rw [decide_eq_true ((hshows q).mpr hs)] at this
    cases this

/-- A message of the mouse goes to the handler of the widget that is painted last of those
under it, at its position in the widget, and to none where no widget is painted. -/
theorem click_topmost (h : WellFormed s) (hm : IsMouse msg.msgType) :
    (repaintWindow s.window = .ok (if s.window.needsRepaint ≠ 0 then
        s.order.filter fun p => ¬Invisible s.window (s.window.widgets p) else []) ∧
      ∀ p, PaintsIn s.window (s.window.widgets p) (shownRect s.window (s.window.widgets p))) ∧
    ((∃ p m, Topmost s.window s.order (msg.param 0) (msg.param 1) p ∧
        updateWindow s.window msg = .ok (.handler p (s.window.widgets p).handler m true) ∧
        Delivers s.window (s.window.widgets p) msg m) ∨
      ((∀ p ∈ s.order, ¬Shows s.window (s.window.widgets p) (msg.param 0) (msg.param 1)) ∧
        updateWindow s.window msg = .ok .nothing)) := by
  refine ⟨⟨?_, fun p => paintsIn_shownRect _ _⟩, ?_⟩
  · have hlen := length_le_widgets h.linked.nodup h.inWidgets
    rw [repaintWindow, repaintFrom_of_path h.painting h.inWidgets hlen]
    split <;> rfl
  · have hupdate : updateWindow s.window msg =
        (findWidget s.window (msg.param 0) (msg.param 1) maxWidgetSize s.window.widgetlisttail >>=
          fun p => if p = -1 then .ok .nothing
            else if (s.window.widgets p).scrollable = 0 then
              .ok (.handler p (s.window.widgets p).handler msg true)
            else
              .ok (.handler p (s.window.widgets p).handler (scrolledMsg s.window msg) true)) := by
      rcases hm with hm | hm | hm | hm | hm | hm <;> simp [updateWindow, hm]
    rw [hupdate]
    rcases findWidget_cases h (msg.param 0) (msg.param 1) with ⟨p, hp, htop, hf⟩ | ⟨hnone, hf⟩
    · left
      rw [hf, ok_bind, if_neg (h.inWidgets p hp).ne_neg]
      by_cases hs : (s.window.widgets p).scrollable = 0
      · rw [if_pos hs]
        exact ⟨p, msg, htop, rfl, rfl, by simp [hs], by simp [hs]⟩
      · rw [if_neg hs]
        exact ⟨p, _, htop, rfl, rfl, by simp [hs, scrolledMsg, Message.param],
          by simp [hs, scrolledMsg, Message.param]⟩
    · right
      rw [hf, ok_bind, if_pos rfl]
      exact ⟨hnone, rfl⟩

/-- The background with a block over it, which the window shows sixty pixels further up. -/
def layeredWindow : UserWindow :=
  { emptyWindow with
    scrollOffsetY := 60
    widgets := fun i =>
      if i = 1 then ⟨some (.colorfill ⟨black, 100, 50⟩), .colorfill, ⟨0, 100, 100, 150⟩, 1, 1⟩
      else ⟨some (.colorfill ⟨black, 200, 200⟩), .colorfill, ⟨0, 200, 0, 200⟩, 0, 0⟩
    next := fun i => if i = 0 then 1 else if i = 1 then -1 else i
    prev := fun i => if i = 0 then -1 else if i = 1 then 0 else i
    widgetlisthead := 0
    widgetlisttail := 1
    keyfocus := -1 }

theorem layeredWindow_wellFormed : WellFormed ⟨layeredWindow, [0, 1]⟩ := by
  apply wellFormed_of_linked
  · exact ⟨⟨rfl, rfl, rfl, rfl, rfl, rfl⟩, by decide, by decide⟩
  · intro i hi
    simp only [List.mem_cons, List.not_mem_nil, or_false] at hi
    rcases hi with rfl | rfl <;> decide
  · intro i _ hi
    simp only [List.mem_cons, List.not_mem_nil, or_false, not_or] at hi
    exact ⟨(if_neg hi.1).trans (if_neg hi.2), (if_neg hi.1).trans (if_neg hi.2)⟩

def clickMsg (x y : ℤ) : Message := ⟨.mouseLeftClick, fun i => some (if i = 0 then x else y)⟩

/-- A click where the block is shown over the background goes to the block, moved with it. -/
theorem click_topmost_layered : ∃ m, m.param 1 = 140 ∧
    updateWindow layeredWindow (clickMsg 50 80) = .ok (.handler 1 1 m true) := by
  have hm : IsMouse (clickMsg 50 80).msgType := by decide
  have hblock : Shows layeredWindow (layeredWindow.widgets 1) 50 80 := by decide
  rcases (click_topmost layeredWindow_wellFormed hm).2 with ⟨p, m, htop, h, hd⟩ | ⟨hnone, -⟩
  · obtain ⟨below, above, hsplit, hno⟩ := htop.above
    have hnot : (1 : ℤ) ∉ above := fun h1 => hno 1 h1 hblock
    obtain rfl : p = 1 := by
      rcases below with _ | ⟨a, _ | ⟨b, below⟩⟩
      · simp only [List.nil_append, List.cons.injEq] at hsplit
        rw [← hsplit.2] at hnot
        exact absurd List.mem_cons_self hnot
      · simp only [List.cons_append, List.nil_append, List.cons.injEq] at hsplit
        exact hsplit.2.1.symm
      · simp at hsplit
    exact ⟨m, hd.y, h⟩
  · exact absurd hblock (hnone 1 (by simp))

end Clicks

end WidgetDispatch
