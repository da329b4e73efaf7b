import Xv6Gui.UserWidgets
import Xv6Gui.LinkedSlots

/-!
# The widget list

A window threads its widgets through the slots it holds them in. Painting follows the list
from the head and hit-testing from the tail. A ghost record keeps the order of addition; the
list agrees with it until the first of several widgets is removed.
-/
namespace WidgetList

open WindowManagerState UserWidgets LinkedSlots GuardedRuns

def links (win : UserWindow) : Links ℤ :=
  ⟨win.next, win.prev, win.widgetlisthead, win.widgetlisttail⟩

def setLinks (win : UserWindow) (k : Links ℤ) : UserWindow :=
  { win with
    next := k.next, prev := k.prev, widgetlisthead := k.head, widgetlisttail := k.tail }

/-- A window and its widgets in the order of addition. -/
structure Program where
  window : UserWindow
  order : List ℤ

inductive WidgetCall where
  | addRectangleWidget (c filledColor : Rgba) (filled x y w h scrollable : ℤ) (handler : Handler)
  | addColorFillWidget (c : Rgba) (x y w h scrollable : ℤ) (handler : Handler)
  | addButtonWidget (c bc : Rgba) (text : List UInt8) (x y w h scrollable : ℤ) (handler : Handler)
  | addTextWidget (c : Rgba) (text : List UInt8) (x y w h scrollable : ℤ) (handler : Handler)
  | addInputFieldWidget (c : Rgba) (text : List UInt8) (x y w h scrollable : ℤ) (handler : Handler)
  | removeWidget (index : ℤ)

def call (win : UserWindow) : WidgetCall → Except Fault (ℤ × UserWindow)
  | .addRectangleWidget c fc filled x y w h scrollable handler =>
    addRectangleWidget win c fc filled x y w h scrollable handler
  | .addColorFillWidget c x y w h scrollable handler =>
    addColorFillWidget win c x y w h scrollable handler
  | .addButtonWidget c bc text x y w h scrollable handler =>
    addButtonWidget win c bc text x y w h scrollable handler
  | .addTextWidget c text x y w h scrollable handler =>
    addTextWidget win c text x y w h scrollable handler
  | .addInputFieldWidget c text x y w h scrollable handler =>
    addInputFieldWidget win c text x y w h scrollable handler
  | .removeWidget index => removeWidget win index

/-- The record after a call that has returned `ret`. -/
def recordOrder (order : List ℤ) (ret : ℤ) : WidgetCall → List ℤ
  | .removeWidget index => if ret = -1 then order else order.erase index
  | _ => if ret = -1 then order else order ++ [ret]

def step (s : Program) (c : WidgetCall) : Except Fault Program := do
  let (ret, win) ← call s.window c
  return ⟨win, recordOrder s.order ret c⟩

/-- Both traversals see the widgets, in the order of addition and in its reverse, and every
other slot is free. -/
structure WellFormed (s : Program) : Prop where
  linked : Linked (-1) (links s.window) s.order
  painting : Path (· = -1) s.window.next s.window.widgetlisthead s.order (-1)
  hitTesting : Path (· = -1) s.window.prev s.window.widgetlisttail s.order.reverse (-1)
  inWidgets : ∀ i ∈ s.order, InWidgets i
  free : ∀ i, InWidgets i → i ∉ s.order → Free s.window i

/-- Only widgets of the list are removed. -/
def Admissible (s : Program) : WidgetCall → Prop
  | .removeWidget index => index ∈ s.order
  | _ => True

/-- The first widget is removed only when it is the last one too. -/
def SparesHead (s : Program) : WidgetCall → Prop
  | .removeWidget index => index = s.window.widgetlisthead → index = s.window.widgetlisttail
  | _ => True

instance (s : Program) : (c : WidgetCall) → Decidable (Admissible s c)
  | .removeWidget _ => inferInstanceAs (Decidable (_ ∈ _))
  | .addRectangleWidget .. | .addColorFillWidget .. | .addButtonWidget .. | .addTextWidget ..
  | .addInputFieldWidget .. => inferInstanceAs (Decidable True)

instance (s : Program) : (c : WidgetCall) → Decidable (SparesHead s c)
  | .removeWidget _ => inferInstanceAs (Decidable (_ → _))
  | .addRectangleWidget .. | .addColorFillWidget .. | .addButtonWidget .. | .addTextWidget ..
  | .addInputFieldWidget .. => inferInstanceAs (Decidable True)

variable {win : UserWindow} {s t : Program} {c : WidgetCall}

section Add

theorem addWidget_full (h : findNextAvailable win = -1) : addWidget win = .ok (-1, win) :=
  if_pos h

theorem addWidget_eq {x : ℤ} (hx : findNextAvailable win = x) (hin : InWidgets x)
    (ht : win.widgetlisttail = -1 ∨ InWidgets win.widgetlisttail) :
    addWidget win = .ok (x, setLinks win ((links win).append (-1) x)) := by
  have hhead : (if win.widgetlisthead = -1 then { win with widgetlisthead := x } else win) =
      { win with widgetlisthead := if win.widgetlisthead = -1 then x else win.widgetlisthead } := by
    split <;> rfl
  rw [addWidget, hx]
  dsimp only
  rw [if_neg hin.ne_neg, hhead]
  by_cases h : win.widgetlisttail = -1
  · simp [addToWidgetListTail, setPrev_eq hin, setNext_eq hin, h, setLinks, links, Links.append]
  · simp [addToWidgetListTail, setPrev_eq hin, setNext_eq hin, setNext_eq (ht.resolve_left h), h,
      setLinks, links, Links.append]
    rfl

/-- All that adding a widget of any kind does to the links. -/
theorem addTypedWidget_cases (ht : win.widgetlisttail = -1 ∨ InWidgets win.widgetlisttail)
    (context : WidgetBase) (type : WidgetType) (x y w h scrollable : ℤ) (handler : Handler) :
    (findNextAvailable win = -1 ∧
      addTypedWidget win context type x y w h scrollable handler = .ok (-1, win)) ∨
    ∃ win', InWidgets (findNextAvailable win) ∧ Free win (findNextAvailable win) ∧
      addTypedWidget win context type x y w h scrollable handler =
        .ok (findNextAvailable win, win') ∧
      links win' = (links win).append (-1) (findNextAvailable win) := by
  rcases findNextAvailable_cases win with ⟨hx, _⟩ | ⟨hx, hfree⟩
  · refine Or.inl ⟨hx, ?_⟩
    rw [addTypedWidget, addWidget_full hx, ok_bind]
    rfl
  · right
    rw [addTypedWidget, addWidget_eq rfl hx ht, ok_bind]
    dsimp only
    rw [if_neg hx.ne_neg]
    exact ⟨_, hx, hfree, rfl, rfl⟩

theorem call_adds (ht : win.widgetlisttail = -1 ∨ InWidgets win.widgetlisttail)
    (hc : ∀ i, c ≠ .removeWidget i) :
    call win c = .ok (-1, win) ∨
    ∃ win', InWidgets (findNextAvailable win) ∧ Free win (findNextAvailable win) ∧
      call win c = .ok (findNextAvailable win, win') ∧
      links win' = (links win).append (-1) (findNextAvailable win) := by
  cases c with
  | removeWidget i => exact absurd rfl (hc i)
  | addRectangleWidget | addColorFillWidget | addButtonWidget | addTextWidget =>
    exact (addTypedWidget_cases ht _ _ _ _ _ _ _ _).imp_left And.right
  | addInputFieldWidget c text x y w h scrollable handler =>
    simp only [call, addInputFieldWidget]
    rcases addTypedWidget_cases ht (.inputfield ⟨c, text, text.length⟩) .inputfield x y w h
      scrollable handler with ⟨_, heq⟩ | ⟨win', hx, hfree, heq, hlinks⟩
    · left
      rw [heq, ok_bind]
      rfl
    · right
      rw [heq, ok_bind]
      dsimp only
      rw [if_neg hx.ne_neg]
      exact ⟨_, hx, hfree, rfl, hlinks⟩

end Add

section Remove

/-- The links `removeFromWidgetList` leaves. -/
def releaseWidget (k : Links ℤ) (x : ℤ) : Links ℤ where
  next := Function.update (k.remove (-1) x).next x x
  prev := Function.update (k.remove (-1) x).prev x x
  head := if x = k.head then k.next k.tail else k.head
  tail := (k.remove (-1) x).tail

theorem repairHead_eq {x : ℤ} (ht : InWidgets win.widgetlisttail) : repairHead win x =
    .ok { win with widgetlisthead :=
      if x = win.widgetlisthead then win.next win.widgetlisttail else win.widgetlisthead } := by
  simp only [repairHead]
  by_cases h : win.widgetlisthead = x
  · rw [if_pos h, if_pos h.symm, widgetIndex_ok ht, ok_bind, pure_eq_ok]
  · rw [if_neg h, if_neg (Ne.symm h), pure_eq_ok]

theorem repairTail_eq {x : ℤ} (ht : InWidgets win.widgetlisttail) : repairTail win x =
    .ok { win with widgetlisttail :=
      if x = win.widgetlisttail then win.prev x else win.widgetlisttail } := by
  simp only [repairTail]
  by_cases h : win.widgetlisttail = x
  · rw [if_pos h, if_pos h.symm, widgetIndex_ok ht, ok_bind, pure_eq_ok, h]
  · rw [if_neg h, if_neg (Ne.symm h), pure_eq_ok]

theorem joinNeighbours_eq {x : ℤ} (hx : InWidgets x)
    (hn : win.next x = -1 ∨ InWidgets (win.next x)) (hp : win.prev x = -1 ∨ InWidgets (win.prev x))
    (hne : win.prev x ≠ x) : joinNeighbours win x =
      .ok { win with
        next := ((links win).remove (-1) x).next, prev := ((links win).remove (-1) x).prev } := by
  have hself : Function.update win.next (win.prev x) (win.next x) x = win.next x :=
    Function.update_of_ne (Ne.symm hne) _ _
  rw [joinNeighbours, widgetIndex_ok hx, ok_bind]
  by_cases hp1 : win.prev x = -1 <;> by_cases hn1 : win.next x = -1
  · simp [links, Links.remove, hp1, hn1]
  · simp [links, Links.remove, hp1, hn1, setPrev_eq (hn.resolve_left hn1)]
  · rw [hn1] at hself
    simp [links, Links.remove, hp1, hn1, setNext_eq (hp.resolve_left hp1), hself]
  · simp [links, Links.remove, hp1, hn1, setNext_eq (hp.resolve_left hp1), hself,
      setPrev_eq (hn.resolve_left hn1)]

theorem removeFromWidgetList_eq {x : ℤ} (hx : InWidgets x)
    (hn : win.next x = -1 ∨ InWidgets (win.next x)) (hp : win.prev x = -1 ∨ InWidgets (win.prev x))
    (hne : win.prev x ≠ x) (ht : InWidgets win.widgetlisttail) :
    removeFromWidgetList win x = .ok (setLinks win (releaseWidget (links win) x)) := by
  rw [removeFromWidgetList, repairHead_eq ht, ok_bind, repairTail_eq (by exact ht), ok_bind,
    joinNeighbours_eq hx (by exact hn) (by exact hp) (by exact hne), ok_bind, setPrev_eq hx,
    ok_bind, setNext_eq hx]
  rfl

theorem freeWidget_links (win : UserWindow) {x : ℤ} (hx : InWidgets x) :
    ∃ win', freeWidget win x = .ok win' ∧ links win' = links win := by
  rw [freeWidget, widgetIndex_ok hx, ok_bind]
  split <;> exact ⟨_, rfl, rfl⟩

/-- Taking the first widget out is right only where it is the last one too. -/
theorem releaseWidget_linked_iff {k : Links ℤ} {l : List ℤ} (h : Linked (-1) k l) {x : ℤ}
    (hx : x ∈ l) : Linked (-1) (releaseWidget k x) (l.erase x) ↔ (x = k.head → x = k.tail) := by
  have hne : l ≠ [] := List.ne_nil_of_mem hx
  have hlast : k.next k.tail = -1 := h.segment.next_last hne
  have hfresh : ∀ y ∈ l.erase x, y ≠ x := fun y hy => (h.nodup.mem_erase_iff.mp hy).1
  constructor
  · intro hr hh
    have hnull : (releaseWidget k x).head = -1 := by
      rw [releaseWidget, if_pos hh, hlast]
    have hnil := hr.head_null.mp hnull
    have htail : k.tail ∈ l := h.tail_mem hne
    by_contra ht
    have hmem : k.tail ∈ l.erase x := h.nodup.mem_erase_iff.mpr ⟨Ne.symm ht, htail⟩
    rw [hnil] at hmem
    cases hmem
  · intro hg
    refine (h.remove hx).congr ?_ ?_ ?_ rfl
    · intro y hy
      exact Function.update_of_ne (hfresh y hy) _ _
    · intro y hy
      exact Function.update_of_ne (hfresh y hy) _ _
    · by_cases hh : x = k.head
      · have ht := hg hh
        simp only [releaseWidget, Links.remove, if_pos hh]
        rw [← ht]
      · simp only [releaseWidget, Links.remove, if_neg hh]

end Remove

theorem wellFormed_of_linked (h : Linked (-1) (links s.window) s.order)
    (hin : ∀ i ∈ s.order, InWidgets i)
    (hfree : ∀ i, InWidgets i → i ∉ s.order → Free s.window i) : WellFormed s :=
  ⟨h, h.forward, h.backward, hin, hfree⟩

theorem WellFormed.tail (h : WellFormed s) :
    s.window.widgetlisttail = -1 ∨ InWidgets s.window.widgetlisttail := by
  by_cases hl : s.order = []
  · exact Or.inl (h.linked.tail_null.mpr hl)
  · exact Or.inr (h.inWidgets _ (h.linked.tail_mem hl))

theorem step_add (h : WellFormed s) (hc : ∀ i, c ≠ .removeWidget i) :
    ∃ t, step s c = .ok t ∧ WellFormed t := by
  have horder : ∀ ret, recordOrder s.order ret c =
      if ret = -1 then s.order else s.order ++ [ret] := by
    intro ret
    cases c with
    | removeWidget i => exact absurd rfl (hc i)
    | _ => rfl
  rcases call_adds h.tail hc with heq | ⟨win', hx, hfree, heq, hlinks⟩
  · refine ⟨s, ?_, h⟩
    rw [step, heq, ok_bind]
    dsimp only
    rw [horder, if_pos rfl]
    rfl
  · refine ⟨⟨win', s.order ++ [findNextAvailable s.window]⟩, ?_, ?_⟩
    · rw [step, heq, ok_bind]
      dsimp only
      rw [horder, if_neg hx.ne_neg]
      rfl
    · have hnew : findNextAvailable s.window ∉ s.order := fun hm => h.linked.next_ne hm hfree.2
      apply wellFormed_of_linked
      · dsimp only
        rw [hlinks]
        exact h.linked.append hnew hx.ne_neg
      · intro i hi
        rcases List.mem_append.mp hi with hi | hi
        · exact h.inWidgets i hi
        · rw [List.mem_singleton.mp hi]
          exact hx
      · intro i hi hm
        obtain ⟨hl, hne⟩ := not_or.mp (List.mem_append.not.mp hm)
        have hframe := h.linked.append_frame (x := findNextAvailable s.window) hl
          (List.mem_singleton.not.mp hne)
        rw [← hlinks] at hframe
        obtain ⟨hprev, hnext⟩ := h.free i hi hl
        exact ⟨hframe.1.trans hprev, hframe.2.trans hnext⟩

theorem removeWidget_eq (h : WellFormed s) {x : ℤ} (hx : x ∈ s.order) :
    ∃ win', removeWidget s.window x = .ok (0, win') ∧
      links win' = releaseWidget (links s.window) x := by
  have hin := h.inWidgets x hx
  have hbusy : ¬(s.window.prev x = x ∧ s.window.next x = x) := fun hf => h.linked.next_ne hx hf.2
  obtain ⟨win, hfree, hlinks⟩ := freeWidget_links s.window hin
  have hl : Linked (-1) (links win) s.order := hlinks ▸ h.linked
  have hrange : ∀ {i}, i ∈ s.order ∨ i = -1 → i = -1 ∨ InWidgets i :=
    fun hi => hi.symm.imp_right (h.inWidgets _)
  have hne : s.order ≠ [] := List.ne_nil_of_mem hx
  refine ⟨setLinks win (releaseWidget (links win) x), ?_, by rw [← hlinks]; rfl⟩
  rw [removeWidget, widgetIndex_ok hin, ok_bind, if_neg hbusy, hfree, ok_bind,
    removeFromWidgetList_eq hin (hrange (hl.segment.next_mem hx)) (hrange (hl.segment.prev_mem hx))
      (hl.prev_ne hx) (h.inWidgets _ (hl.tail_mem hne)), ok_bind, pure_eq_ok]

theorem step_remove (h : WellFormed s) {x : ℤ} (hx : x ∈ s.order) :
    ∃ t, step s (.removeWidget x) = .ok t ∧ (WellFormed t ↔ SparesHead s (.removeWidget x)) := by
  obtain ⟨win', hret, hlinks⟩ := removeWidget_eq h hx
  refine ⟨⟨win', s.order.erase x⟩, by rw [step, call, hret]; rfl, ?_⟩
  have hiff := releaseWidget_linked_iff h.linked hx
  constructor
  · intro ht
    have hlinked := ht.linked
    dsimp only at hlinked
    rw [hlinks] at hlinked
    exact hiff.mp hlinked
  · intro hg
    apply wellFormed_of_linked
    · dsimp only
      rw [hlinks]
      exact hiff.mpr hg
    · exact fun i hi => h.inWidgets i (List.mem_of_mem_erase hi)
    · intro i hi hm
      have hprev : win'.prev = (releaseWidget (links s.window) x).prev := congrArg Links.prev hlinks
      have hnext : win'.next = (releaseWidget (links s.window) x).next := congrArg Links.next hlinks
      rw [Free, hprev, hnext]
      by_cases hix : i = x
      · subst hix
        exact ⟨Function.update_self _ _ _, Function.update_self _ _ _⟩
      · have hl : i ∉ s.order := fun hl => hm (h.linked.nodup.mem_erase_iff.mpr ⟨hix, hl⟩)
        have hframe := h.linked.remove_frame hx hl
        obtain ⟨hp, hn⟩ := h.free i hi hl
        exact ⟨(Function.update_of_ne hix _ _).trans (hframe.1.trans hp),
          (Function.update_of_ne hix _ _).trans (hframe.2.trans hn)⟩

/-- The window after a `createWindow` that has got memory for its pixels. -/
def start (sysCreateWindow : Window → Window) (win : UserWindow) (windowBuf : ℕ) : Program :=
  ⟨createWindow sysCreateWindow win windowBuf, []⟩

theorem start_wellFormed (sysCreateWindow : Window → Window) (win : UserWindow) {windowBuf : ℕ}
    (hbuf : windowBuf ≠ 0) : WellFormed (start sysCreateWindow win windowBuf) := by
  rw [start, createWindow, if_neg hbuf]
  apply wellFormed_of_linked
  · exact ⟨⟨rfl, rfl⟩, List.nodup_nil, by simp⟩
  · intro i hi
    cases hi
  · intro i hi _
    exact ⟨if_pos hi, if_pos hi⟩

/-- The widget list stays well formed exactly as long as the first widget is removed only
when it is the last one too. -/
theorem widget_list_stays_iff (sysCreateWindow : Window → Window) (win : UserWindow)
    (windowBuf : ℕ) (hbuf : windowBuf ≠ 0) (calls : List WidgetCall)
    (ha : Along step Admissible (start sysCreateWindow win windowBuf) calls) :
    Stays step WellFormed (start sysCreateWindow win windowBuf) calls ↔
      Along step SparesHead (start sysCreateWindow win windowBuf) calls := by
  have hiff : ∀ s c, WellFormed s → Admissible s c →
      ((∃ t, step s c = .ok t ∧ WellFormed t) ↔ SparesHead s c) := by
    intro s c h hadm
    cases c with
    | removeWidget x =>
      obtain ⟨t, ht, hwf⟩ := step_remove h hadm
      rw [← hwf]
      constructor
      · rintro ⟨u, hu, hwu⟩
        rw [ht] at hu
        cases hu
        exact hwu
      · exact fun hwt => ⟨t, ht, hwt⟩
    | _ => exact iff_of_true (step_add h fun i hi => nomatch hi) trivial
  have hstep : ∀ s c t, WellFormed s → Admissible s c → SparesHead s c → step s c = .ok t →
      WellFormed t := by
    intro s c t h hadm hg ht
    obtain ⟨u, hu, hwf⟩ := (hiff s c h hadm).mpr hg
    rw [ht] at hu
    cases hu
    exact hwf
  exact stays_iff (fun _ h => h) hiff hstep (start_wellFormed sysCreateWindow win hbuf) ha

def black : Rgba := ⟨255, 0, 0, 0⟩

def emptyWindow : UserWindow where
  window := ⟨⟨100, 300, 100, 300⟩, 1, 0, 200, 200, 0⟩
  scrollOffsetX := 0
  scrollOffsetY := 0
  widgets _ := ⟨none, .text, ⟨0, 0, 0, 0⟩, 0, 0⟩
  next _ := 0
  prev _ := 0
  widgetlisthead := 0
  widgetlisttail := 0
  keyfocus := 0
  needsRepaint := 0

/-- A window that gets slot 1 of the kernel, filled with a colour and two buttons. -/
def twoButtons : List WidgetCall :=
  [.addColorFillWidget black 0 0 200 200 0 0, .addButtonWidget black black [] 10 10 50 20 0 0,
    .addButtonWidget black black [] 10 40 50 20 0 0]

theorem widget_list_stays_two_buttons :
    Stays step WellFormed (start (fun w => { w with handler := 1 }) emptyWindow 4096)
      (twoButtons ++ [.removeWidget 1, .addTextWidget black [] 10 10 50 20 0 0]) :=
  (widget_list_stays_iff _ _ _ (by decide) _ (by decide +kernel)).mpr (by decide +kernel)

/-- Removing the background leaves a list without a head. -/
theorem remove_first_widget_loses_list :
    ¬∀ (sysCreateWindow : Window → Window) (win : UserWindow) (windowBuf : ℕ), windowBuf ≠ 0 →
      ∀ calls, Along step Admissible (start sysCreateWindow win windowBuf) calls →
        Stays step WellFormed (start sysCreateWindow win windowBuf) calls := by
  intro h
  have hstays := h (fun w => { w with handler := 1 }) emptyWindow 4096 (by decide)
    (twoButtons ++ [.removeWidget 0]) (by decide +kernel)
  obtain ⟨s, hs, hf⟩ := execution_of_map step
    (start (fun w => { w with handler := 1 }) emptyWindow 4096) (twoButtons ++ [.removeWidget 0])
    (fun s => (s.window.widgetlisthead, s.order)) (b := (-1, [1, 2])) (by decide +kernel)
  obtain ⟨hhead, horder⟩ := Prod.mk.inj hf
  have hnil := (hstays.visits.last hs).linked.head_null.mp hhead
  rw [horder] at hnil
  cases hnil

end WidgetList
