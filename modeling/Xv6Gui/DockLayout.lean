import Xv6Gui.WindowStacking
import Xv6Gui.DockClicks

/-!
# The dock as it is drawn and as it is clicked

drawDesktopDock and handleDesktopDockClick lay the bars out separately. A click sets off at most
one action, and the window it selects is the one whose bar is drawn under the cursor.
-/
namespace DockLayout

open WindowManagerState WindowManager WindowManagerSteps WindowMessages WindowSessions DockClicks
open WindowStacking LinkedSlots GuardedRuns

variable {scr : Screen} {s t : Wm} {l : List ℤ} {m : Message} {bw x xStart : ℤ}

/-- The part of the dock that belongs to a window. -/
structure Bar where
  window : ℤ
  xStart : ℤ
  barWidth : ℤ
  deriving DecidableEq, Repr

/-- The column lies on the bar, which ends in a separator. -/
def Bar.Covers (b : Bar) (x : ℤ) : Prop := b.xStart ≤ x ∧ x ≤ b.xStart + b.barWidth - 1

/-- The loop that draws the titles and the separators. -/
def drawBars (s : Wm) (barWidth : ℤ) : ℤ → List ℤ → List Bar
  | _, [] => []
  | xStart, p :: ps =>
    if p ≠ s.desktopId then ⟨p, xStart, barWidth⟩ :: drawBars s barWidth (xStart + barWidth) ps
    else drawBars s barWidth xStart ps

/-- The bars that drawDesktopDock draws. -/
def drawDesktopDock (scr : Screen) (s : Wm) : Except Fault (List Bar) := do
  let windowCount ← getWindowCount s
  if windowCount > 0 then do
    let l ← traverse s
    return drawBars s (barWidth scr windowCount) (startIconWidth + 5) l
  else return []

/-- What a click on the dock can set off. -/
inductive DockAction where
  | select (p : ℤ)
  | minimizeAll
  | startIcon
  deriving DecidableEq, Repr

def perform (m : Message) (s : Wm) : DockAction → Except Fault Wm
  | .select p => clickProgram s p
  | .minimizeAll => minimizeAll s
  | .startIcon => dispatchTo s s.desktopId (newmsgAt m.msgType s.wmMousePos.x s.wmMousePos.y)

instance (s : Wm) (x : ℤ) (m : Message) : Decidable (StartIcon s x m) :=
  inferInstanceAs (Decidable (_ ∧ _ ∧ _))

def selected (scr : Screen) (s : Wm) (l : List ℤ) (x : ℤ) : List DockAction :=
  (barAt (barWidth scr (dockWindows s l).length) x (startIconWidth + 5)
    (dockWindows s l)).toList.map .select

/-- The actions whose test in handleDesktopDockClick holds, in its order. -/
def triggered (scr : Screen) (s : Wm) (l : List ℤ) (x : ℤ) (m : Message) : List DockAction :=
  selected scr s l x ++
    ((if x ≥ (scr.screenWidth : ℤ) - showDesktopIconWidth then [.minimizeAll] else []) ++
      if StartIcon s x m then [.startIcon] else [])

/-- The click does what it triggers, at most one thing; it selects the window whose bar is drawn
at the cursor, and each window can be selected. -/
structure ClicksAgree (scr : Screen) (s : Wm) (l : List ℤ) (bars : List Bar) : Prop where
  performs : ∀ x m,
    handleDesktopDockClick scr s x m = (triggered scr s l x m).foldlM (perform m) s
  one : ∀ x m, (triggered scr s l x m).length ≤ 1
  drawn : bars.map Bar.window = dockWindows s l
  bar : ∀ x m p, .select p ∈ triggered scr s l x m → ∀ b ∈ bars, b.Covers x ↔ b.window = p
  column : ∀ p ∈ l, p ≠ s.desktopId →
    ∃ x : ℤ, 0 ≤ x ∧ x ≤ scr.screenWidth ∧ ∀ m, .select p ∈ triggered scr s l x m

section Bars

theorem dockWindows_cons (p : ℤ) :
    dockWindows s (p :: l) =
      if p ≠ s.desktopId then p :: dockWindows s l else dockWindows s l := by
  simp only [dockWindows, List.filter_cons, decide_eq_true_eq]

/-- The bars lie side by side, one for each window that is not the desktop. -/
theorem drawBars_eq :
    drawBars s bw xStart l =
      (dockWindows s l).mapIdx fun k p => ⟨p, xStart + k * bw, bw⟩ := by
  induction l generalizing xStart with
  | nil => rfl
  | cons p l ih =>
    rw [drawBars, dockWindows_cons]
    by_cases hp : p ≠ s.desktopId
    · rw [if_pos hp, if_pos hp, List.mapIdx_cons, ih]
      simp only [Int.natCast_zero, Int.zero_mul, Int.add_zero, Int.natCast_succ, Int.add_mul,
        Int.one_mul, Int.add_assoc, Int.add_comm bw]
    · rw [if_neg hp, if_neg hp, ih]

theorem drawBars_windows : (drawBars s bw xStart l).map Bar.window = dockWindows s l := by
  induction l generalizing xStart with
  | nil => rfl
  | cons p l ih =>
    rw [drawBars, dockWindows_cons]
    by_cases hp : p ≠ s.desktopId
    · rw [if_pos hp, if_pos hp, List.map_cons, ih]
    · rw [if_neg hp, if_neg hp, ih]

theorem mem_drawBars {b : Bar} (hb : b ∈ drawBars s bw xStart l) :
    ∃ k : ℕ, (dockWindows s l)[k]? = some b.window ∧ b = ⟨b.window, xStart + k * bw, bw⟩ := by
  rw [drawBars_eq, List.mem_mapIdx] at hb
  obtain ⟨k, hk, rfl⟩ := hb
  exact ⟨k, List.getElem?_eq_getElem hk, rfl⟩

theorem barAt_index {p : ℤ} (h : barAt bw x xStart (dockWindows s l) = some p) :
    ∃ k : ℕ, (dockWindows s l)[k]? = some p ∧ OnBar (xStart + k * bw) bw x := by
  obtain ⟨xs, ys, hsplit, hx⟩ := barAt_eq_some.mp h
  refine ⟨xs.length, ?_, hx⟩
  rw [hsplit, List.getElem?_append_right (Nat.le_refl _), Nat.sub_self]
  rfl

/-- Two bars of one width that share a column are the same. -/
theorem column_index {i j : ℕ} (hi : xStart + i * bw ≤ x) (hi' : x < xStart + i * bw + bw)
    (hj : xStart + j * bw ≤ x) (hj' : x < xStart + j * bw + bw) : i = j := by
  have hbw : 0 < bw := by omega
  have hdiv : ∀ k : ℕ, xStart + k * bw ≤ x → x < xStart + k * bw + bw → (x - xStart) / bw = k := by
    intro k hk hk'
    exact (Int.ediv_eq_iff_of_pos hbw).mpr ⟨by omega, by omega⟩
  exact_mod_cast (hdiv i hi hi').symm.trans (hdiv j hj hj')

end Bars

section Widths

theorem dockWindows_length (h : WellFormed s l) : (dockWindows s l).length ≤ 49 := by
  have hlt : (dockWindows s l).length < l.length :=
    List.length_filter_lt_length_iff_exists.mpr ⟨s.desktopId, h.desktop, by simp⟩
  have hle := length_le_of_nodup h.threads.linked.nodup h.threads.inBounds
  simp only [maxWindowCnt] at hle
  omega

/-- The bars are wide enough to be hit, and together leave the show-desktop strip free. -/
theorem barWidth_bounds {n : ℕ} (hw : 332 ≤ scr.screenWidth) (hn : n ≤ 49) :
    5 ≤ barWidth scr n ∧
      startIconWidth + 5 + n * barWidth scr n ≤ scr.screenWidth - showDesktopIconWidth := by
  have hpos : (0 : ℤ) < n + 1 := by omega
  have hroom : (0 : ℤ) ≤ scr.screenWidth - startIconWidth - showDesktopIconWidth := by
    simp only [startIconWidth, showDesktopIconWidth]
    omega
  have hmul : (n + 1) * barWidth scr n ≤
      (scr.screenWidth : ℤ) - startIconWidth - showDesktopIconWidth := by
    calc (n + 1) * barWidth scr n
        ≤ (n + 1) * (((scr.screenWidth : ℤ) - startIconWidth - showDesktopIconWidth) /
            (n + 1)) := by
          rw [barWidth, Int.tdiv_eq_ediv_of_nonneg hroom]
          exact Int.mul_le_mul_of_nonneg_left (Int.min_le_left _ _) hpos.le
      _ ≤ (scr.screenWidth : ℤ) - startIconWidth - showDesktopIconWidth :=
          Int.mul_ediv_self_le hpos.ne'
  have hfive : 5 ≤ barWidth scr n := by
    rw [barWidth, Int.tdiv_eq_ediv_of_nonneg hroom, Int.le_min]
    refine ⟨?_, by decide⟩
    apply Int.le_ediv_of_mul_le hpos
    simp only [startIconWidth, showDesktopIconWidth]
    omega
  refine ⟨hfive, ?_⟩
  rw [Int.add_mul, Int.one_mul] at hmul
  simp only [startIconWidth, showDesktopIconWidth] at hmul ⊢
  omega

end Widths

section Clicks

theorem mem_selected {p : ℤ} :
    .select p ∈ selected scr s l x ↔
      barAt (barWidth scr (dockWindows s l).length) x (startIconWidth + 5) (dockWindows s l) =
        some p := by
  simp [selected]

/-- A bar that is hit lies between the start icon and the show-desktop strip. -/
theorem selected_between (h : WellFormed s l) (hw : 332 ≤ scr.screenWidth) {p : ℤ}
    (hp : .select p ∈ selected scr s l x) :
    startIconWidth < x ∧ x < scr.screenWidth - showDesktopIconWidth := by
  obtain ⟨hfive, hend⟩ := barWidth_bounds hw (dockWindows_length h)
  obtain ⟨k, hk, h1, h2⟩ := barAt_index (mem_selected.mp hp)
  obtain ⟨hlt, _⟩ := List.getElem?_eq_some_iff.mp hk
  generalize barWidth scr (dockWindows s l).length = bw at *
  have hle : ((k : ℤ) + 1) * bw ≤ (dockWindows s l).length * bw :=
    Int.mul_le_mul_of_nonneg_right (by omega) (by omega)
  have hk0 : 0 ≤ (k : ℤ) * bw := Int.mul_nonneg (by omega) (by omega)
  rw [Int.add_mul, Int.one_mul] at hle
  constructor <;> omega

theorem length_selected : (selected scr s l x).length ≤ 1 := by
  rw [selected, List.length_map]
  exact Option.length_toList_le

theorem triggered_one (h : WellFormed s l) (hw : 332 ≤ scr.screenWidth) (x : ℤ) (m : Message) :
    (triggered scr s l x m).length ≤ 1 := by
  by_cases hp : ∃ p, .select p ∈ selected scr s l x
  · obtain ⟨p, hp⟩ := hp
    obtain ⟨hleft, hright⟩ := selected_between h hw hp
    rw [triggered, if_neg (by omega), if_neg fun hi : StartIcon s x m => by have := hi.1; omega,
      List.append_nil, List.append_nil]
    exact length_selected
  · have hnil : selected scr s l x = [] := by
      rw [selected, List.map_eq_nil_iff, Option.toList_eq_nil_iff,
        Option.eq_none_iff_forall_ne_some]
      intro p hbar
      exact hp ⟨p, mem_selected.mpr hbar⟩
    rw [triggered, hnil, List.nil_append, List.length_append]
    by_cases hx : x ≥ (scr.screenWidth : ℤ) - showDesktopIconWidth
    · have hi : ¬StartIcon s x m := fun hi => by
        have hx' := hi.1
        simp only [startIconWidth, showDesktopIconWidth] at hx hx'
        omega
      rw [if_pos hx, if_neg hi]
      exact Nat.le_refl 1
    · rw [if_neg hx, List.length_nil, Nat.zero_add]
      split
      · exact Nat.le_refl 1
      · exact Nat.zero_le 1

theorem mem_triggered_select {p : ℤ} :
    .select p ∈ triggered scr s l x m ↔ .select p ∈ selected scr s l x := by
  rw [triggered, List.mem_append, List.mem_append]
  constructor
  · rintro (hp | hp | hp)
    · exact hp
    · split at hp <;> simp at hp
    · split at hp <;> simp at hp
  · exact Or.inl

theorem clickProgram_delivers (h : WellFormed s l) {p : ℤ} (hp : p ∈ l) :
    ∃ k, Ranged k ∧ Delivers (clickProgram s p) (setLinks s k) := by
  have hin := h.threads.inBounds p hp
  have hr := h.threads.ranged
  rw [clickProgram]
  split
  · exact ⟨links s, hr, dispatchTo_delivers s hin _⟩
  · refine ⟨focused (links s) p, hr.focused (Or.inr hin), ?_⟩
    rw [focusWindow_safe hr (Or.inr hin)
      (h.threads.focusSafe (Or.inr (List.mem_toFinset.mpr hp)))]
    exact .pure (Framed.refl _)

theorem clickProgramBar_performs (h : WellFormed s l) (x : ℤ) (m : Message) :
    clickProgramBar scr s x (dockWindows s l).length =
      (selected scr s l x).foldlM (perform m) s := by
  rw [clickProgramBar_eq h.threads.ranged h.threads.linked.forward, selected]
  cases barAt (barWidth scr (dockWindows s l).length) x (startIconWidth + 5) (dockWindows s l) with
  | none => rfl
  | some p => exact (bind_pure (clickProgram s p)).symm

variable (scr) in
/-- What a selection returns still has the links in range, the same desktop and the same caller
of the popup. -/
theorem selected_delivers (h : WellFormed s l) (x : ℤ) (m : Message) :
    ∃ k, Ranged k ∧ Delivers ((selected scr s l x).foldlM (perform m) s) (setLinks s k) := by
  rw [← clickProgramBar_performs h x m,
    clickProgramBar_eq h.threads.ranged h.threads.linked.forward]
  split
  · next p hp =>
    obtain ⟨xs, ys, hsplit, _⟩ := barAt_eq_some.mp hp
    have hmem : p ∈ dockWindows s l := by simp [hsplit]
    exact clickProgram_delivers h (List.mem_of_mem_filter hmem)
  · exact ⟨links s, h.threads.ranged, .pure (Framed.refl s)⟩

theorem clickShowDesktop_performs (m : Message) :
    clickShowDesktop scr t x =
      (if x ≥ (scr.screenWidth : ℤ) - showDesktopIconWidth then [.minimizeAll] else []).foldlM
        (perform m) t := by
  rw [clickShowDesktop]
  split
  · exact (bind_pure (minimizeAll t)).symm
  · rfl

theorem clickStartIcon_performs :
    clickStartIcon t x m = (if StartIcon t x m then [.startIcon] else []).foldlM (perform m) t := by
  by_cases hi : StartIcon t x m
  · rw [clickStartIcon, if_pos hi, if_pos ⟨hi.1, hi.2.1, hi.2.2⟩]
    exact (bind_pure (dispatchTo t _ _)).symm
  · rw [clickStartIcon, if_neg hi, if_neg fun h => hi ⟨h.1, h.2.1, h.2.2⟩]
    rfl

theorem startIcon_congr (hd : t.desktopId = s.desktopId)
    (hc : t.popupwindow.caller = s.popupwindow.caller) :
    StartIcon t x m ↔ StartIcon s x m := by
  rw [StartIcon, StartIcon, hd, hc]

/-- The three tests look at nothing that the actions before them change. -/
theorem click_performs (h : WellFormed s l) (x : ℤ) (m : Message) :
    handleDesktopDockClick scr s x m = (triggered scr s l x m).foldlM (perform m) s := by
  have hr := h.threads.ranged
  rw [handleDesktopDockClick_eq hr h.threads.linked.forward, triggered, List.foldlM_append,
    clickProgramBar_performs h x m]
  obtain ⟨k, hk, t, ht, hft⟩ := selected_delivers scr h x m
  rw [ht, ok_bind, ok_bind, List.foldlM_append, ← clickShowDesktop_performs]
  have hrt : Ranged (links t) := by
    rw [hft.links]
    exact hk
  have hcases : Delivers (clickShowDesktop scr t x) t ∨ _ := clickShowDesktop_cases hrt x
  rcases hcases with ⟨u, hu, hfu⟩ | ⟨_, hd⟩
  · have hicon : StartIcon u x m ↔ StartIcon s x m :=
      startIcon_congr (hfu.desktopId.trans hft.desktopId) (hfu.popupCaller.trans hft.popupCaller)
    rw [hu, ok_bind, ok_bind, clickStartIcon_performs]
    simp only [hicon]
  · rw [hd, error_bind, error_bind]

end Clicks

section Agreement

theorem drawDesktopDock_eq (h : WellFormed s l) :
    drawDesktopDock scr s =
      .ok (drawBars s (barWidth scr (dockWindows s l).length) (startIconWidth + 5) l) := by
  have hl := traverse_linked h.threads.ranged h.threads.linked
  have hcount : getWindowCount s = .ok (dockWindows s l).length := by
    rw [getWindowCount, hl]
    rfl
  rw [drawDesktopDock, hcount, ok_bind]
  split
  · rw [hl, ok_bind, pure_eq_ok]
  · next hn =>
    have hnil : dockWindows s l = [] := List.length_eq_zero_iff.mp (by omega)
    rw [drawBars_eq, hnil, pure_eq_ok]
    rfl

theorem bar_of_selected (h : WellFormed s l) {p : ℤ} (hp : .select p ∈ selected scr s l x)
    {b : Bar}
    (hb : b ∈ drawBars s (barWidth scr (dockWindows s l).length) (startIconWidth + 5) l) :
    b.Covers x ↔ b.window = p := by
  obtain ⟨k, hk, h1, h2⟩ := barAt_index (mem_selected.mp hp)
  obtain ⟨j, hj, hbar⟩ := mem_drawBars hb
  constructor
  · intro hx
    rw [hbar] at hx
    obtain ⟨hx1, hx2⟩ := hx
    have hkj : k = j := column_index (x := x) (by omega) (by omega) hx1 (by
      dsimp only at hx2
      omega)
    rw [← hkj, hk] at hj
    exact (Option.some.inj hj).symm
  · intro hwin
    have hnd : (dockWindows s l).Nodup := h.threads.linked.nodup.filter _
    rw [hwin] at hj
    obtain ⟨hlt, _⟩ := List.getElem?_eq_some_iff.mp hk
    have hkj : k = j := (List.getElem?_inj hlt hnd).mp (hk.trans hj.symm)
    subst hkj
    rw [hbar]
    constructor
    · dsimp only
      omega
    · exact h2

/-- The column two to the right of a bar's start selects its window. -/
theorem selectable (h : WellFormed s l) (hw : 332 ≤ scr.screenWidth) {p : ℤ} (hp : p ∈ l)
    (hd : p ≠ s.desktopId) :
    ∃ x : ℤ, 0 ≤ x ∧ x ≤ scr.screenWidth ∧ .select p ∈ selected scr s l x := by
  obtain ⟨hfive, _⟩ := barWidth_bounds hw (dockWindows_length h)
  have hmem : p ∈ dockWindows s l := List.mem_filter.mpr ⟨hp, decide_eq_true hd⟩
  obtain ⟨xs, ys, hsplit⟩ := List.append_of_mem hmem
  have hsel : .select p ∈ selected scr s l
      (startIconWidth + 5 + xs.length * barWidth scr (dockWindows s l).length + 2) :=
    mem_selected.mpr (barAt_eq_some.mpr ⟨xs, ys, hsplit, by omega, by omega⟩)
  obtain ⟨hleft, hright⟩ := selected_between h hw hsel
  refine ⟨_, ?_, ?_, hsel⟩
  · simp only [startIconWidth] at hleft ⊢
    omega
  · simp only [showDesktopIconWidth] at hright
    omega

theorem dock_clicks_agree (scr : Screen) (h : WellFormed s l) (hw : 332 ≤ scr.screenWidth) :
    ∃ bars, drawDesktopDock scr s = .ok bars ∧ ClicksAgree scr s l bars := by
  refine ⟨_, drawDesktopDock_eq h, ?_⟩
  constructor
  case performs => exact click_performs h
  case one => exact triggered_one h hw
  case drawn => exact drawBars_windows
  case bar =>
    intro x m p hp b hb
    exact bar_of_selected h (mem_triggered_select.mp hp) hb
  case column =>
    intro p hp hd
    obtain ⟨x, h0, hx, hsel⟩ := selectable h hw hp hd
    exact ⟨x, h0, hx, fun m => mem_triggered_select.mpr hsel⟩

theorem dock_clicks_agree_two_bars :
    ∃ s : Session, Execution (step desktopScreen) (start desktopScreen) coveredWindow s ∧
      drawDesktopDock desktopScreen s.wm = .ok [⟨1, 77, 160⟩, ⟨2, 237, 160⟩] ∧
      ClicksAgree desktopScreen s.wm [0, 1, 2] [⟨1, 77, 160⟩, ⟨2, 237, 160⟩] := by
  obtain ⟨s, hs, hdock⟩ := execution_of_map (step desktopScreen) (start desktopScreen)
    coveredWindow (fun s => drawDesktopDock desktopScreen s.wm)
    (b := .ok [⟨1, 77, 160⟩, ⟨2, 237, 160⟩]) (by decide +kernel)
  obtain ⟨bars, hbars, hagree⟩ :=
    dock_clicks_agree desktopScreen (coveredWindow_wellFormed hs) (by decide)
  cases hbars.symm.trans hdock
  exact ⟨s, hs, hdock, hagree⟩

end Agreement

end DockLayout
