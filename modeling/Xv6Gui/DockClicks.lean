import Xv6Gui.WindowMessages

/-!
# A click on the dock

The bars of the programs lie side by side and do not overlap, so a click concerns at most
one window. The call completes inside the array exactly when that window can be focused and
the start icon has a desktop to report to.
-/
namespace DockClicks

open WindowManagerState WindowManager WindowManagerSteps WindowMessages LinkedSlots GuardedRuns

variable {scr : Screen} {s : Wm}

def OnBar (xStart barWidth mouseX : ℤ) : Prop :=
  mouseX > xStart + 1 ∧ mouseX ≤ xStart + barWidth - 1

/-- The first of the bars, laid out side by side from `xStart`, that holds the cursor. -/
def barAt (barWidth mouseX : ℤ) : ℤ → List ℤ → Option ℤ
  | _, [] => none
  | xStart, p :: ps =>
    if mouseX > xStart + 1 ∧ mouseX ≤ xStart + barWidth - 1 then some p
    else barAt barWidth mouseX (xStart + barWidth) ps

/-- The bars do not overlap, so the first one that holds the cursor is the only one. -/
theorem barAt_eq_some {bw x xStart p : ℤ} {l : List ℤ} :
    barAt bw x xStart l = some p ↔
      ∃ xs ys, l = xs ++ p :: ys ∧ OnBar (xStart + xs.length * bw) bw x := by
  constructor
  · induction l generalizing xStart with
    | nil => intro h; cases h
    | cons q l ih =>
      intro h
      rw [barAt] at h
      split at h
      · next hx =>
        cases h
        exact ⟨[], l, rfl, by simpa [OnBar] using hx⟩
      · obtain ⟨xs, ys, rfl, hx⟩ := ih h
        refine ⟨q :: xs, ys, rfl, ?_⟩
        rwa [List.length_cons, Int.natCast_succ, Int.add_mul, Int.one_mul, Int.add_comm (_ * bw),
          ← Int.add_assoc]
  · rintro ⟨xs, ys, rfl, hx⟩
    induction xs generalizing xStart with
    | nil => exact if_pos (by simpa [OnBar] using hx)
    | cons q xs ih =>
      rw [List.length_cons, Int.natCast_succ, Int.add_mul, Int.one_mul, Int.add_comm (_ * bw),
          ← Int.add_assoc] at hx
      have hw : 0 ≤ (xs.length : ℤ) * bw :=
        Int.mul_nonneg (Int.natCast_nonneg _) (by obtain ⟨h1, h2⟩ := hx; omega)
      rw [List.cons_append, barAt, if_neg (by obtain ⟨h1, h2⟩ := hx; omega)]
      exact ih hx

/-- The listed windows other than the desktop, in the order of their bars. -/
def dockWindows (s : Wm) (l : List ℤ) : List ℤ := l.filter fun p => decide (p ≠ s.desktopId)

/-- The cursor is on the bar of window `p` in the dock. -/
def DockTarget (scr : Screen) (s : Wm) (mouseX p : ℤ) : Prop :=
  ∃ l xs ys, Path (· = -1) s.windowlist.next s.windowlisthead l (-1) ∧
    dockWindows s l = xs ++ p :: ys ∧
    OnBar (startIconWidth + 5 + xs.length * barWidth scr (xs.length + ys.length + 1))
      (barWidth scr (xs.length + ys.length + 1)) mouseX

/-- A click on the bar of a window that is not minimised focuses it. -/
def DockFocus (scr : Screen) (s : Wm) (mouseX p : ℤ) : Prop :=
  DockTarget scr s mouseX p ∧ (s.windowlist.wnd p).minimized = 0

def StartIcon (s : Wm) (mouseX : ℤ) (msg : Message) : Prop :=
  mouseX ≤ startIconWidth ∧ msg.msgType = .mouseLeftClick ∧ s.popupwindow.caller ≠ s.desktopId

/-- What the program loop does with the window whose bar was clicked. -/
def clickProgram (s : Wm) (p : ℤ) : Except Fault Wm :=
  if (s.windowlist.wnd p).minimized ≠ 0 then dispatchTo s p (newmsg .windowMaximize)
  else focusWindow s p

theorem dockProgramClick_of_path {s : Wm} {p q : ℤ} {l : List ℤ}
    (h : Path (· = -1) s.windowlist.next p l q) (hl : ∀ i ∈ l, InBounds i) (x bw xStart : ℤ)
    {fuel : ℕ} (hfuel : l.length ≤ fuel) :
    dockProgramClick s x bw fuel xStart p =
      match barAt bw x xStart (dockWindows s l) with
      | some p => clickProgram s p
      | none => .ok s := by
  induction h generalizing fuel xStart with
  | done hp => subst hp; rw [dockProgramClick, if_pos rfl]; rfl
  | @visit p l q hp _ ih =>
    have hi := hl p List.mem_cons_self
    rw [dockProgramClick, if_neg hi.ne_neg, index_ok hi, ok_bind]
    cases fuel with
    | zero => simp at hfuel
    | succ fuel =>
      have hrest := fun xStart => ih (fun i hi => hl i (List.mem_cons_of_mem p hi)) xStart
        (Nat.le_of_succ_le_succ hfuel)
      by_cases hd : p = s.desktopId
      · simp only [dockWindows, List.filter_cons, ne_eq, hd, not_true_eq_false, false_and,
          if_false, decide_false] at hrest ⊢
        exact hrest xStart
      · simp only [dockWindows, List.filter_cons, ne_eq, hd, not_false_eq_true, true_and,
          decide_true, if_true, barAt] at hrest ⊢
        by_cases hx : x > xStart + 1 ∧ x ≤ xStart + bw - 1
        · rw [if_pos hx, if_pos hx]; rfl
        · rw [if_neg hx, if_neg hx]
          exact hrest (xStart + bw)

theorem DockTarget.bar {x p : ℤ} (h : DockTarget scr s x p) {l : List ℤ}
    (hl : Path (· = -1) s.windowlist.next s.windowlisthead l (-1)) :
    barAt (barWidth scr (dockWindows s l).length) x (startIconWidth + 5) (dockWindows s l) =
      some p := by
  obtain ⟨l', xs, ys, hl', hsplit, hbar⟩ := h
  obtain ⟨rfl, -⟩ := hl'.unique hl
  refine barAt_eq_some.mpr ⟨xs, ys, hsplit, ?_⟩
  rwa [hsplit, List.length_append, List.length_cons, ← Nat.add_assoc]

theorem dockTarget_of_bar {x p : ℤ} {l : List ℤ}
    (hl : Path (· = -1) s.windowlist.next s.windowlisthead l (-1))
    (h : barAt (barWidth scr (dockWindows s l).length) x (startIconWidth + 5) (dockWindows s l) =
      some p) : DockTarget scr s x p := by
  obtain ⟨xs, ys, hsplit, hbar⟩ := barAt_eq_some.mp h
  rw [hsplit, List.length_append, List.length_cons, ← Nat.add_assoc] at hbar
  exact ⟨l, xs, ys, hl, hsplit, hbar⟩

theorem DockTarget.inBounds (hr : Ranged (links s)) {x p : ℤ} (h : DockTarget scr s x p) :
    InBounds p := by
  obtain ⟨l, xs, ys, hl, hsplit, _⟩ := h
  have hp : p ∈ dockWindows s l := by simp [hsplit]
  exact (path_inBounds hl rfl hr.next hr.head).1 p (List.mem_filter.mp hp).1

/-- The bars lie to the right of the start icon. -/
theorem DockTarget.not_startIcon {x p : ℤ} (h : DockTarget scr s x p) : startIconWidth < x := by
  obtain ⟨l, xs, ys, _, _, h1, h2⟩ := h
  generalize barWidth scr (xs.length + ys.length + 1) = bw at h1 h2
  have hw : 0 ≤ (xs.length : ℤ) * bw := Int.mul_nonneg (Int.natCast_nonneg _) (by omega)
  simp only [startIconWidth] at h1 ⊢
  omega

theorem clickProgramBar_eq (hr : Ranged (links s)) {l : List ℤ}
    (hl : Path (· = -1) s.windowlist.next s.windowlisthead l (-1)) (x : ℤ) :
    clickProgramBar scr s x (dockWindows s l).length =
      match barAt (barWidth scr (dockWindows s l).length) x (startIconWidth + 5)
        (dockWindows s l) with
      | some p => clickProgram s p
      | none => .ok s := by
  have hin := (path_inBounds hl rfl hr.next hr.head).1
  simp only [clickProgramBar]
  split
  · exact dockProgramClick_of_path hl hin _ _ _ (length_le_of_nodup hl.nodup hin)
  · next h =>
    have hnil : dockWindows s l = [] := List.length_eq_zero_iff.mp (by omega)
    rw [hnil]
    rfl

theorem clickProgramBar_focus (hr : Ranged (links s)) {l : List ℤ}
    (hl : Path (· = -1) s.windowlist.next s.windowlisthead l (-1)) {x p : ℤ}
    (h : DockFocus scr s x p) :
    clickProgramBar scr s x (dockWindows s l).length = focusWindow s p := by
  rw [clickProgramBar_eq hr hl, h.1.bar hl]
  exact if_neg (by simp [h.2])

theorem clickProgramBar_delivers (hr : Ranged (links s)) {l : List ℤ}
    (hl : Path (· = -1) s.windowlist.next s.windowlisthead l (-1)) {x : ℤ}
    (h : ∀ p, ¬DockFocus scr s x p) :
    Delivers (clickProgramBar scr s x (dockWindows s l).length) s := by
  rw [clickProgramBar_eq hr hl]
  split
  · next p hp =>
    have ht := dockTarget_of_bar hl hp
    rw [clickProgram, if_pos fun hm => h p ⟨ht, hm⟩]
    exact dispatchTo_delivers s (ht.inBounds hr) _
  · exact .pure (Framed.refl s)

theorem foldlM_delivers {f : Wm → ℤ → Except Fault Wm} {l : List ℤ}
    (hf : ∀ t, ∀ p ∈ l, Delivers (f t p) t) (s : Wm) : Delivers (l.foldlM f s) s := by
  induction l generalizing s with
  | nil => exact .pure (Framed.refl s)
  | cons p l ih =>
    rw [List.foldlM_cons]
    refine (hf s p List.mem_cons_self).bind ?_
    intro t _
    exact ih (fun t q hq => hf t q (List.mem_cons_of_mem p hq)) t

theorem traversal_delivers (hr : Ranged (links s)) {l : List ℤ} (hl : traverse s = .ok l)
    {f : Wm → ℤ → Except Fault Wm} (hf : ∀ t p, InBounds p → Delivers (f t p) t) :
    Delivers (do let l ← traverse s; l.foldlM f s) s := by
  have hin := (path_inBounds ((traverse_eq_ok hr).mp hl) rfl hr.next hr.head).1
  rw [hl, ok_bind]
  exact foldlM_delivers (fun t p hp => hf t p (hin p hp)) s

theorem minimizeAll_delivers (hr : Ranged (links s)) {l : List ℤ} (hl : traverse s = .ok l) :
    Delivers (minimizeAll s) s := by
  apply traversal_delivers hr hl
  intro t p hp
  split
  · exact dispatchTo_delivers t hp _
  · exact .pure (Framed.refl t)

theorem clickShowDesktop_delivers (hr : Ranged (links s)) {l : List ℤ} (hl : traverse s = .ok l)
    (x : ℤ) : Delivers (clickShowDesktop scr s x) s := by
  simp only [clickShowDesktop]
  split
  · exact minimizeAll_delivers hr hl
  · exact .pure (Framed.refl s)

theorem clickShowDesktop_cases (hr : Ranged (links s)) (x : ℤ) :
    Delivers (clickShowDesktop scr s x) s ∨
      traverse s = .error .diverges ∧ clickShowDesktop scr s x = .error .diverges := by
  rcases traverse_cases hr with ⟨l, hl⟩ | hd
  · exact Or.inl (clickShowDesktop_delivers hr hl x)
  · simp only [clickShowDesktop]
    split
    · exact Or.inr ⟨hd, by rw [minimizeAll, hd, error_bind]⟩
    · exact Or.inl (.pure (Framed.refl s))

theorem clickStartIcon_delivers (hd : IsLink s.desktopId) (x : ℤ) (m : Message)
    (h : StartIcon s x m → s.desktopId ≠ -1) : Delivers (clickStartIcon s x m) s := by
  simp only [clickStartIcon]
  split
  · next hi => exact dispatchTo_delivers s (hd.inBounds (h hi)) _
  · exact .pure (Framed.refl s)

theorem clickStartIcon_out {x : ℤ} {m : Message} (h : StartIcon s x m) (hd : s.desktopId = -1) :
    OutOfBounds (clickStartIcon s x m) := by
  rw [clickStartIcon, if_pos ⟨h.1, h.2.1, h.2.2⟩]
  exact dispatchTo_out s (hd ▸ not_inBounds_neg) _

theorem handleDesktopDockClick_eq (hr : Ranged (links s)) {l : List ℤ}
    (hl : Path (· = -1) s.windowlist.next s.windowlisthead l (-1)) (x : ℤ) (m : Message) :
    handleDesktopDockClick scr s x m = (do
      let s ← clickProgramBar scr s x (dockWindows s l).length
      let s ← clickShowDesktop scr s x
      clickStartIcon s x m) := by
  rw [handleDesktopDockClick, getWindowCount, (traverse_eq_ok hr).mpr hl]
  rfl

theorem handleDesktopDockClick_diverges (hr : Ranged (links s))
    (h : ∀ l, ¬Path (· = -1) s.windowlist.next s.windowlisthead l (-1)) (x : ℤ) (m : Message) :
    handleDesktopDockClick scr s x m = .error .diverges := by
  rcases traverse_cases hr with ⟨l, hl⟩ | hd
  · exact absurd ((traverse_eq_ok hr).mp hl) (h l)
  · rw [handleDesktopDockClick, getWindowCount, hd, error_bind, error_bind]

theorem handleDesktopDockClick_delivers (hr : Ranged (links s)) (hd : IsLink s.desktopId)
    {l : List ℤ} (hl : Path (· = -1) s.windowlist.next s.windowlisthead l (-1)) {x : ℤ}
    {m : Message} (h : ∀ p, ¬DockFocus scr s x p) (hs : StartIcon s x m → s.desktopId ≠ -1) :
    Delivers (handleDesktopDockClick scr s x m) s := by
  rw [handleDesktopDockClick_eq hr hl]
  refine (clickProgramBar_delivers hr hl h).bind ?_
  intro t ht
  have hrt : Ranged (links t) := ht.links ▸ hr
  have hlt : traverse t = .ok l := ht.traverse.trans ((traverse_eq_ok hr).mpr hl)
  refine (clickShowDesktop_delivers hrt hlt x).bind ?_
  intro u hu
  have hdu : u.desktopId = s.desktopId := hu.desktopId.trans ht.desktopId
  apply clickStartIcon_delivers (hdu ▸ hd)
  rintro ⟨h1, h2, h3⟩
  rw [hdu]
  refine hs ⟨h1, h2, ?_⟩
  rwa [hdu, hu.popupCaller, ht.popupCaller] at h3

/-- Focusing from the dock ends the call unless the list now goes round. -/
theorem handleDesktopDockClick_focus (hr : Ranged (links s)) (hd : IsLink s.desktopId) {x p : ℤ}
    {m : Message} (h : DockFocus scr s x p) (hs : FocusSafe (links s) p) :
    Delivers (handleDesktopDockClick scr s x m) (setLinks s (focused (links s) p)) ∨
      traverse (setLinks s (focused (links s) p)) = .error .diverges ∧
        handleDesktopDockClick scr s x m = .error .diverges := by
  obtain ⟨l, _, _, hl, _⟩ := h.1
  have hp : IsLink p := Or.inr (h.1.inBounds hr)
  rw [handleDesktopDockClick_eq hr hl, clickProgramBar_focus hr hl h, focusWindow_safe hr hp hs,
    ok_bind]
  rcases clickShowDesktop_cases (s := setLinks s (focused (links s) p))
    (hr.focused hp) x with hc | ⟨ht, hc⟩
  · refine Or.inl (hc.bind ?_)
    intro t ht
    apply clickStartIcon_delivers (ht.desktopId ▸ hd)
    intro hi
    have := h.1.not_startIcon
    have := hi.1
    omega
  · exact Or.inr ⟨ht, by rw [hc, error_bind]⟩

theorem handleDesktopDockClick_out (hr : Ranged (links s)) {l : List ℤ}
    (hl : Path (· = -1) s.windowlist.next s.windowlisthead l (-1)) {x : ℤ} {m : Message}
    (h : (∃ p, DockFocus scr s x p ∧ ¬FocusSafe (links s) p) ∨
      StartIcon s x m ∧ s.desktopId = -1) :
    OutOfBounds (handleDesktopDockClick scr s x m) := by
  rw [handleDesktopDockClick_eq hr hl]
  rcases h with ⟨p, hp, hs⟩ | ⟨hi, hd⟩
  · apply outOfBounds_bind
    rw [clickProgramBar_focus hr hl hp]
    exact focusWindow_faults hr (Or.inr (hp.1.inBounds hr)) hs
  · have hno : ∀ p, ¬DockFocus scr s x p := by
      intro p hp
      have := hp.1.not_startIcon
      have := hi.1
      omega
    obtain ⟨t, ht, hft⟩ := clickProgramBar_delivers hr hl hno
    have hrt : Ranged (links t) := hft.links ▸ hr
    have hlt : traverse t = .ok l := hft.traverse.trans ((traverse_eq_ok hr).mpr hl)
    obtain ⟨u, hu, hfu⟩ := clickShowDesktop_delivers hrt hlt x
    rw [ht, ok_bind, hu, ok_bind]
    have hdu : u.desktopId = s.desktopId := hfu.desktopId.trans hft.desktopId
    refine clickStartIcon_out ⟨hi.1, hi.2.1, ?_⟩ (hdu.trans hd)
    rw [hdu, hfu.popupCaller, hft.popupCaller]
    exact hi.2.2

end DockClicks
