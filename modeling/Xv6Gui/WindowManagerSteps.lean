import Xv6Gui.WindowManager
import Xv6Gui.LinkedSlots
import Xv6Gui.GuardedRuns

/-!
# What one call does to the window list

Each function that touches the links is rewritten as one update of the links, for every
state whose links stay inside the array. Nothing here assumes that the list is well formed:
calls on stale or foreign handles reach states in which it is not.
-/
namespace WindowManagerSteps

open WindowManagerState WindowManager LinkedSlots GuardedRuns

def links (s : Wm) : Links ℤ :=
  ⟨s.windowlist.next, s.windowlist.prev, s.windowlisthead, s.windowlisttail⟩

def setLinks (s : Wm) (k : Links ℤ) : Wm :=
  { s with
    windowlist.next := k.next
    windowlist.prev := k.prev
    windowlisthead := k.head
    windowlisttail := k.tail }

/-- A value a link may hold: a slot of the array or the end mark. -/
def IsLink (i : ℤ) : Prop := i = -1 ∨ InBounds i

theorem IsLink.inBounds {i : ℤ} (h : IsLink i) (hi : i ≠ -1) : InBounds i := h.resolve_left hi

theorem isLink_neg : IsLink (-1) := Or.inl rfl

structure Ranged (k : Links ℤ) : Prop where
  next : ∀ i, InBounds i → IsLink (k.next i)
  prev : ∀ i, InBounds i → IsLink (k.prev i)
  head : IsLink k.head
  tail : IsLink k.tail

/-- `addToWindowList`, which leaves the head to its callers. -/
def linkLast (k : Links ℤ) (x : ℤ) : Links ℤ where
  next :=
    if k.tail = -1 then Function.update k.next x (-1)
    else Function.update (Function.update k.next x (-1)) k.tail x
  prev := Function.update k.prev x k.tail
  head := k.head
  tail := x

/-- `removeFromWindowList`, which leaves the head alone. -/
def unlink (k : Links ℤ) (x : ℤ) : Links ℤ := { k.remove (-1) x with head := k.head }

def focusLinks (k : Links ℤ) (x : ℤ) : Links ℤ :=
  if x = k.head then
    linkLast { k with prev := Function.update k.prev (k.next x) (-1), head := k.next x } x
  else
    linkLast { k with
      next := Function.update k.next (k.prev x) (k.next x)
      prev := Function.update k.prev (k.next x) (k.prev x) } x

/-- The neighbours that `focusWindow` writes to are slots of the array. -/
def FocusInBounds (k : Links ℤ) (x : ℤ) : Prop :=
  k.next x ≠ -1 ∧ (x = k.head ∨ k.prev x ≠ -1)

theorem outOfBounds_bind {α β : Type} {r : Except Fault α} {f : α → Except Fault β}
    (h : OutOfBounds r) : OutOfBounds (r >>= f) := by
  cases r with
  | error e => cases e <;> exact h
  | ok t => exact h.elim

@[simp] theorem links_setLinks (s : Wm) (k : Links ℤ) : links (setLinks s k) = k := rfl

@[simp] theorem setLinks_links (s : Wm) : setLinks s (links s) = s := rfl

theorem setNext_eq {s : Wm} {i v : ℤ} (h : InBounds i) :
    setNext s i v =
      .ok (setLinks s { links s with next := Function.update s.windowlist.next i v }) := by
  simp [setNext, index_ok h, setLinks, links]

theorem setPrev_eq {s : Wm} {i v : ℤ} (h : InBounds i) :
    setPrev s i v =
      .ok (setLinks s { links s with prev := Function.update s.windowlist.prev i v }) := by
  simp [setPrev, index_ok h, setLinks, links]

theorem addToWindowList_eq {s : Wm} {x : ℤ} (hx : InBounds x) (ht : IsLink s.windowlisttail) :
    addToWindowList s x = .ok (setLinks s (linkLast (links s) x)) := by
  by_cases h : s.windowlisttail = -1
  · simp [addToWindowList, setPrev, setNext, index_ok hx, h, setLinks, linkLast, links]
  · simp [addToWindowList, setPrev, setNext, index_ok hx, index_ok (ht.inBounds h), h, setLinks,
      linkLast, links]

theorem addToWindowList_setLinks {s : Wm} {x : ℤ} (hx : InBounds x) (k : Links ℤ)
    (hk : IsLink k.tail) :
    addToWindowList (setLinks s k) x = .ok (setLinks s (linkLast k x)) :=
  addToWindowList_eq hx hk

theorem removeFromWindowList_eq {s : Wm} {x : ℤ} (hr : Ranged (links s)) (hx : InBounds x) :
    removeFromWindowList s x = .ok (setLinks s (unlink (links s) x)) := by
  have hn : IsLink (s.windowlist.next x) := hr.next x hx
  have hp : IsLink (s.windowlist.prev x) := hr.prev x hx
  have htail : (if s.windowlisttail = x
      then { s with windowlisttail := s.windowlist.prev s.windowlisttail } else s) =
      setLinks s { links s with
        tail := if x = s.windowlisttail then s.windowlist.prev x else s.windowlisttail } := by
    by_cases h : s.windowlisttail = x
    · subst h; simp [setLinks, links]
    · simp [setLinks, links, h, Ne.symm h]
  have hself : Function.update s.windowlist.next (s.windowlist.prev x) (s.windowlist.next x) x =
      s.windowlist.next x := by
    by_cases hj : x = s.windowlist.prev x
    · rw [← hj, Function.update_self]
    · rw [Function.update_of_ne hj]
  have hremove : unlink (links s) x = { links s with
      next := if s.windowlist.prev x = -1 then s.windowlist.next
        else Function.update s.windowlist.next (s.windowlist.prev x) (s.windowlist.next x)
      prev := if s.windowlist.next x = -1 then s.windowlist.prev
        else Function.update s.windowlist.prev (s.windowlist.next x) (s.windowlist.prev x)
      tail := if x = s.windowlisttail then s.windowlist.prev x else s.windowlisttail } := rfl
  simp only [removeFromWindowList, index_ok hx, ok_bind, htail, hremove]
  generalize (if x = s.windowlisttail then s.windowlist.prev x else s.windowlisttail) = tail
  by_cases hp1 : s.windowlist.prev x = -1 <;> by_cases hn1 : s.windowlist.next x = -1
  · simp [setLinks, links, hp1, hn1]
  · simp [setLinks, links, hp1, hn1, setPrev_eq (hn.inBounds hn1)]
  · rw [hn1] at hself
    simp [setLinks, links, hp1, hn1, setNext_eq (hp.inBounds hp1), hself]
  · simp [setLinks, links, hp1, hn1, setNext_eq (hp.inBounds hp1), hself,
      setPrev_eq (hn.inBounds hn1)]

/-- The writes of `focusWindow` need the neighbours of `x` and the tail. -/
theorem focusWindow_writes {s : Wm} {x : ℤ} (hx : InBounds x) (htail : IsLink s.windowlisttail)
    (ht : x ≠ s.windowlisttail) (hn : InBounds (s.windowlist.next x))
    (hp : x = s.windowlisthead ∨ InBounds (s.windowlist.prev x)) :
    focusWindow s x = .ok (setLinks s (focusLinks (links s) x)) := by
  by_cases hh : x = s.windowlisthead
  · simp only [focusWindow, hx.ne_neg, ht, or_self, if_false, index_ok hx, ok_bind, if_pos hh,
      setPrev_eq hn, pure_eq_ok]
    rw [show focusLinks (links s) x = _ from if_pos hh]
    exact addToWindowList_setLinks hx
      ⟨s.windowlist.next, Function.update s.windowlist.prev (s.windowlist.next x) (-1),
        s.windowlist.next x, s.windowlisttail⟩ htail
  · simp only [focusWindow, hx.ne_neg, ht, or_self, if_false, index_ok hx, ok_bind, if_neg hh,
      setNext_eq (hp.resolve_left hh), setPrev_eq hn]
    rw [show focusLinks (links s) x = _ from if_neg hh]
    exact addToWindowList_setLinks hx
      ⟨Function.update s.windowlist.next (s.windowlist.prev x) (s.windowlist.next x),
        Function.update s.windowlist.prev (s.windowlist.next x) (s.windowlist.prev x),
        s.windowlisthead, s.windowlisttail⟩ htail

theorem focusWindow_eq {s : Wm} {x : ℤ} (hr : Ranged (links s)) (hx : InBounds x)
    (ht : x ≠ s.windowlisttail) (hf : FocusInBounds (links s) x) :
    focusWindow s x = .ok (setLinks s (focusLinks (links s) x)) := by
  obtain ⟨hn1, hp1⟩ := hf
  exact focusWindow_writes hx hr.tail ht ((hr.next x hx).inBounds hn1)
    (hp1.imp_right (hr.prev x hx).inBounds)

theorem focusWindow_out {s : Wm} {x : ℤ} (hr : Ranged (links s)) (hx : InBounds x)
    (ht : x ≠ s.windowlisttail) (hf : ¬FocusInBounds (links s) x) :
    focusWindow s x = .error (.outOfBounds (-1)) := by
  have hout : index (-1) = .error (.outOfBounds (-1)) := if_neg not_inBounds_neg
  by_cases hh : x = s.windowlisthead
  · have hn1 : s.windowlist.next x = -1 := by
      by_contra hn1; exact hf ⟨hn1, Or.inl hh⟩
    simp only [focusWindow, hx.ne_neg, ht, or_self, if_false, index_ok hx, ok_bind, if_pos hh,
      setPrev, hn1, hout, error_bind]
  · by_cases hp1 : s.windowlist.prev x = -1
    · simp [focusWindow, hx.ne_neg, ht, index_ok hx, hh, setNext, hp1, hout]
    · have hn1 : s.windowlist.next x = -1 := by
        by_contra hn1; exact hf ⟨hn1, Or.inr hp1⟩
      have hp : InBounds (s.windowlist.prev x) := (hr.prev x hx).inBounds hp1
      simp [focusWindow, hx.ne_neg, ht, index_ok hx, hh, setNext, setPrev, hn1, hout, index_ok hp]

theorem focusWindow_stay {s : Wm} {x : ℤ} (h : x = -1 ∨ x = s.windowlisttail) :
    focusWindow s x = .ok s := by
  simp [focusWindow, h]

/-- Focusing `x` returns early or writes to slots of the array only. -/
def FocusSafe (k : Links ℤ) (x : ℤ) : Prop := x = -1 ∨ x = k.tail ∨ FocusInBounds k x

/-- The links after a `focusWindow` that completes. -/
def focused (k : Links ℤ) (x : ℤ) : Links ℤ :=
  if x = -1 ∨ x = k.tail then k else focusLinks k x

theorem focused_stay {k : Links ℤ} {x : ℤ} (h : x = -1 ∨ x = k.tail) : focused k x = k := if_pos h

theorem focused_move {k : Links ℤ} {x : ℤ} (h : ¬(x = -1 ∨ x = k.tail)) :
    focused k x = focusLinks k x := if_neg h

theorem focusWindow_safe {s : Wm} {x : ℤ} (hr : Ranged (links s)) (hx : IsLink x)
    (h : FocusSafe (links s) x) :
    focusWindow s x = .ok (setLinks s (focused (links s) x)) := by
  by_cases hstay : x = -1 ∨ x = s.windowlisttail
  · rw [focusWindow_stay hstay, focused_stay hstay]
    rfl
  · obtain ⟨h1, h2⟩ := not_or.mp hstay
    have hf := (h.resolve_left h1).resolve_left h2
    rw [focusWindow_eq hr (hx.inBounds h1) h2 hf, focused_move hstay]

theorem focusWindow_faults {s : Wm} {x : ℤ} (hr : Ranged (links s)) (hx : IsLink x)
    (h : ¬FocusSafe (links s) x) : OutOfBounds (focusWindow s x) := by
  obtain ⟨h1, h⟩ := not_or.mp h
  obtain ⟨h2, hf⟩ := not_or.mp h
  rw [focusWindow_out hr (hx.inBounds h1) h2 hf]
  trivial

@[simp] theorem focused_neg (k : Links ℤ) : focused k (-1) = k := focused_stay (Or.inl rfl)

theorem focused_tail {k : Links ℤ} {x : ℤ} (hx : x ≠ -1) : (focused k x).tail = x := by
  by_cases h : x = k.tail
  · rw [focused_stay (Or.inr h), h]
  · rw [focused_move (not_or.mpr ⟨hx, h⟩), focusLinks]
    split <;> rfl

theorem update_isLink {f : ℤ → ℤ} (hf : ∀ i, InBounds i → IsLink (f i)) {v : ℤ} (hv : IsLink v)
    (j : ℤ) : ∀ i, InBounds i → IsLink (Function.update f j v i) := by
  intro i hi
  by_cases h : i = j
  · subst h; rwa [Function.update_self]
  · rw [Function.update_of_ne h]; exact hf i hi

theorem Ranged.linkLast {k : Links ℤ} (h : Ranged k) {x : ℤ} (hx : InBounds x) :
    Ranged (linkLast k x) := by
  have hn := update_isLink h.next isLink_neg x
  refine ⟨?_, update_isLink h.prev h.tail x, h.head, Or.inr hx⟩
  simp only [WindowManagerSteps.linkLast]
  split
  · exact hn
  · exact update_isLink hn (Or.inr hx) _

theorem Ranged.unlink {k : Links ℤ} (h : Ranged k) {x : ℤ} (hx : InBounds x) :
    Ranged (unlink k x) := by
  have hn := h.next x hx
  have hp := h.prev x hx
  refine ⟨?_, ?_, h.head, ?_⟩ <;> simp only [WindowManagerSteps.unlink, Links.remove] <;> split
  · exact h.next
  · exact update_isLink h.next hn _
  · exact h.prev
  · exact update_isLink h.prev hp _
  · exact hp
  · exact h.tail

theorem Ranged.focusLinks {k : Links ℤ} (h : Ranged k) {x : ℤ} (hx : InBounds x) :
    Ranged (focusLinks k x) := by
  have hn := h.next x hx
  have hp := h.prev x hx
  simp only [WindowManagerSteps.focusLinks]
  split
  · refine Ranged.linkLast ?_ hx
    exact ⟨h.next, update_isLink h.prev isLink_neg _, hn, h.tail⟩
  · refine Ranged.linkLast ?_ hx
    exact ⟨update_isLink h.next hn _, update_isLink h.prev hp _, h.head, h.tail⟩

theorem Ranged.focused {k : Links ℤ} (h : Ranged k) {x : ℤ} (hx : IsLink x) :
    Ranged (focused k x) := by
  simp only [WindowManagerSteps.focused]
  split
  · exact h
  · next hn => exact h.focusLinks (hx.inBounds (not_or.mp hn).1)

/-- The links `closeWindow` leaves: the slot is taken out and marked free. -/
def release (k : Links ℤ) (x : ℤ) : Links ℤ :=
  { unlink k x with
    prev := Function.update (unlink k x).prev x x
    next := Function.update (unlink k x).next x x }

theorem Ranged.release {k : Links ℤ} (h : Ranged k) {x : ℤ} (hx : InBounds x) :
    Ranged (release k x) :=
  have hu := h.unlink hx
  ⟨update_isLink hu.next (Or.inr hx) x, update_isLink hu.prev (Or.inr hx) x, hu.head, hu.tail⟩

/-- Replace the window held in a slot. -/
def updateWnd (s : Wm) (i : ℤ) (f : KernelWindow → KernelWindow) : Wm :=
  { s with windowlist.wnd := Function.update s.windowlist.wnd i (f (s.windowlist.wnd i)) }

theorem updateWnd_minimized (s : Wm) (x i : ℤ) (f : KernelWindow → KernelWindow) :
    ((updateWnd s x f).windowlist.wnd i).minimized =
      if i = x then (f (s.windowlist.wnd x)).minimized else (s.windowlist.wnd i).minimized := by
  by_cases hi : i = x
  · subst hi; simp [updateWnd]
  · simp [updateWnd, hi]

theorem setWnd_eq {s : Wm} {i : ℤ} {f : KernelWindow → KernelWindow} (h : InBounds i) :
    setWnd s i f = .ok (updateWnd s i f) := by
  simp [setWnd, index_ok h, updateWnd]

theorem setWnd_out {s : Wm} {i : ℤ} {f : KernelWindow → KernelWindow} (h : ¬InBounds i) :
    setWnd s i f = .error (.outOfBounds i) := by
  simp [setWnd, index, h]

theorem setWnd_eq_ok {s t : Wm} {i : ℤ} {f : KernelWindow → KernelWindow} :
    setWnd s i f = .ok t ↔ InBounds i ∧ t = updateWnd s i f := by
  by_cases h : InBounds i
  · simp [setWnd_eq h, h, eq_comm]
  · simp [setWnd_out h, h]

def blankWindow (w : KernelWindow) : KernelWindow :=
  { w with msgBuf := initMessageQueue w.msgBuf, title := fun _ => 0 }

theorem closeWindow_eq {s : Wm} {w : Window} (hr : Ranged (links s)) (hx : InBounds w.handler) :
    closeWindow s w = .ok (0,
      updateWnd (setLinks s (release (links s) w.handler)) w.handler blankWindow,
      { w with handler := -1 }) := by
  simp only [closeWindow, removeFromWindowList_eq hr hx, ok_bind, setPrev_eq hx, setNext_eq hx,
    setWnd_eq hx]
  split
  · next ht =>
    rw [focusWindow_stay]
    · rfl
    · apply Or.inr
      conv_rhs => rw [← ht]
      simp [updateWnd, setLinks, links]
  · rfl

theorem closeWindow_out {s : Wm} {w : Window} (hx : ¬InBounds w.handler) :
    OutOfBounds (closeWindow s w) := by
  simp [closeWindow, removeFromWindowList, index, hx, OutOfBounds]

/-- The window that minimising slot `x` passes the focus to; -1 when it keeps the focus. -/
def handOver (s : Wm) (x : ℤ) : ℤ := if x = s.windowlisttail then s.windowlist.prev x else -1

theorem handOver_tail {s : Wm} {x : ℤ} (h : x = s.windowlisttail) :
    handOver s x = s.windowlist.prev x := if_pos h

theorem handOver_other {s : Wm} {x : ℤ} (h : x ≠ s.windowlisttail) : handOver s x = -1 := if_neg h

theorem Ranged.handOver {s : Wm} (hr : Ranged (links s)) {x : ℤ} (hx : InBounds x) :
    IsLink (handOver s x) := by
  simp only [WindowManagerSteps.handOver]
  split
  · exact hr.prev x hx
  · exact isLink_neg

def markMinimized (s : Wm) (x v : ℤ) : Wm := updateWnd s x fun w => { w with minimized := v }

theorem markMinimized_minimized (s : Wm) (x v i : ℤ) :
    ((markMinimized s x v).windowlist.wnd i).minimized =
      if i = x then v else (s.windowlist.wnd i).minimized :=
  updateWnd_minimized s x i _

theorem minimizeWindow_eq {s : Wm} {w : Window} (hx : InBounds w.handler) :
    minimizeWindow s w = (do
      let s ← focusWindow (markMinimized s w.handler 1) (handOver s w.handler)
      return (0, s, w)) := by
  simp only [minimizeWindow, setWnd_eq hx, ok_bind, handOver]
  split
  · next h => rw [if_pos (by exact h)]; rfl
  · next h => rw [if_neg (by exact h), focusWindow_stay (Or.inl rfl)]; rfl

theorem minimizeWindow_safe {s : Wm} {w : Window} (hr : Ranged (links s)) (hx : InBounds w.handler)
    (h : FocusSafe (links s) (handOver s w.handler)) :
    minimizeWindow s w = .ok (0, setLinks (markMinimized s w.handler 1)
      (focused (links s) (handOver s w.handler)), w) := by
  rw [minimizeWindow_eq hx, focusWindow_safe (s := markMinimized s w.handler 1) hr
    (hr.handOver hx) h]
  rfl

theorem minimizeWindow_faults {s : Wm} {w : Window} (hr : Ranged (links s))
    (h : ¬(InBounds w.handler ∧ FocusSafe (links s) (handOver s w.handler))) :
    OutOfBounds (minimizeWindow s w) := by
  by_cases hx : InBounds w.handler
  · rw [minimizeWindow_eq hx]
    apply outOfBounds_bind
    exact focusWindow_faults (s := markMinimized s w.handler 1) hr (hr.handOver hx)
      fun hs => h ⟨hx, hs⟩
  · rw [minimizeWindow, setWnd_out hx]
    trivial

theorem maximizeWindow_safe {s : Wm} {w : Window} (hr : Ranged (links s)) (hx : InBounds w.handler)
    (h : FocusSafe (links s) w.handler) :
    maximizeWindow s w = .ok (0, setLinks (markMinimized s w.handler 0)
      (focused (links s) w.handler), w) := by
  rw [maximizeWindow, setWnd_eq hx, ok_bind, show updateWnd s w.handler _ =
    markMinimized s w.handler 0 from rfl, focusWindow_safe (s := markMinimized s w.handler 0) hr
    (Or.inr hx) h]
  rfl

theorem maximizeWindow_faults {s : Wm} {w : Window} (hr : Ranged (links s))
    (h : ¬(InBounds w.handler ∧ FocusSafe (links s) w.handler)) :
    OutOfBounds (maximizeWindow s w) := by
  by_cases hx : InBounds w.handler
  · rw [maximizeWindow, setWnd_eq hx, ok_bind]
    apply outOfBounds_bind
    exact focusWindow_faults (s := markMinimized s w.handler 0) hr (Or.inr hx) fun hs => h ⟨hx, hs⟩
  · rw [maximizeWindow, setWnd_out hx]
    trivial

/-- The window with its oldest message taken off. -/
def takeMessage (w : KernelWindow) : KernelWindow := { w with msgBuf := (getMessage w.msgBuf).2 }

theorem takeMessage_empty {w : KernelWindow} (h : w.msgBuf.cnt = 0) : takeMessage w = w := by
  simp [takeMessage, getMessage, h]

theorem sysGetMessage_owner {s : Wm} {p : ProcId} {h : ℤ} (hx : InBounds h)
    (hp : s.windowlist.proc h = some p) :
    sysGetMessage s p h = .ok ((getMessage (s.windowlist.wnd h).msgBuf).1,
      updateWnd s h takeMessage) := by
  simp only [sysGetMessage, index_ok hx, ok_bind, hp, ne_eq, not_true_eq_false, if_false,
    setWnd_eq hx]
  rfl

theorem sysGetMessage_other {s : Wm} {p : ProcId} {h : ℤ} (hx : InBounds h)
    (hp : s.windowlist.proc h ≠ some p) : sysGetMessage s p h = .ok (none, s) := by
  simp only [sysGetMessage, index_ok hx, ok_bind, ne_eq, Ne.symm hp, not_false_eq_true, if_true]
  rfl

theorem sysGetMessage_out {s : Wm} {p : ProcId} {h : ℤ} (hx : ¬InBounds h) :
    OutOfBounds (sysGetMessage s p h) := by
  rw [sysGetMessage, show index h = _ from if_neg hx]
  trivial

theorem findNextAvailableWindowId_cases (s : Wm) :
    (findNextAvailableWindowId s = -1 ∧ ∀ i, InBounds i → ¬Free s i) ∨
    (InBounds (findNextAvailableWindowId s) ∧ Free s (findNextAvailableWindowId s)) := by
  simp only [findNextAvailableWindowId]
  cases h : slots.find? fun i => decide (Free s i) with
  | none =>
    refine Or.inl ⟨rfl, ?_⟩
    intro i hi
    simpa using List.find?_eq_none.mp h i (mem_slots.mpr hi)
  | some x =>
    have hmem := mem_slots.mp (List.mem_of_find?_eq_some h)
    exact Or.inr ⟨hmem, by simpa using List.find?_some h⟩

/-- The state `createWindow` leaves when slot `x` is free. -/
def placeWindow (scr : Screen) (s : Wm) (x : ℤ) (myproc : ProcId) (window : Window)
    (title : List UInt8) : Wm :=
  let k := links s
  let s := setLinks s (linkLast { k with head := if k.head = -1 then x else k.head } x)
  let s := { s with desktopId := if s.desktopId = -1 then x else s.desktopId }
  let s := updateWnd s x fun w =>
    { w with
      position := initialRect scr window
      windowBuf := window.windowBuf
      minimized := 0
      hasTitleBar := window.hasTitleBar
      msgBuf := initMessageQueue w.msgBuf
      title := copyTitle w.title title }
  { s with windowlist.proc := Function.update s.windowlist.proc x (some myproc) }

theorem links_placeWindow {scr : Screen} {s : Wm} {x : ℤ} {p : ProcId} {w : Window}
    {title : List UInt8} : links (placeWindow scr s x p w title) =
      linkLast { links s with head := if s.windowlisthead = -1 then x else s.windowlisthead } x :=
  rfl

theorem placeWindow_minimized {scr : Screen} {s : Wm} {x : ℤ} {p : ProcId} {w : Window}
    {title : List UInt8} (i : ℤ) :
    ((placeWindow scr s x p w title).windowlist.wnd i).minimized =
      if i = x then 0 else (s.windowlist.wnd i).minimized := by
  by_cases hi : i = x
  · subst hi; simp [placeWindow, updateWnd]
  · simp [placeWindow, updateWnd, setLinks, hi]

theorem Ranged.placeWindow {scr : Screen} {s : Wm} (hr : Ranged (links s)) {x : ℤ}
    (hx : InBounds x) {p : ProcId} {w : Window} {title : List UInt8} :
    Ranged (links (placeWindow scr s x p w title)) := by
  have hhead : IsLink (if s.windowlisthead = -1 then x else s.windowlisthead) := by
    split
    · exact Or.inr hx
    · exact hr.head
  have hk : Ranged { links s with
      head := if s.windowlisthead = -1 then x else s.windowlisthead } :=
    ⟨hr.next, hr.prev, hhead, hr.tail⟩
  rw [links_placeWindow]
  exact hk.linkLast hx

theorem createWindow_eq {scr : Screen} {s : Wm} {p : ProcId} {w : Window} {title : List UInt8}
    (ht : IsLink s.windowlisttail) (hx : InBounds (findNextAvailableWindowId s)) :
    createWindow scr s p w title = .ok (0,
      placeWindow scr s (findNextAvailableWindowId s) p w title,
      { w with handler := findNextAvailableWindowId s }) := by
  generalize hg : findNextAvailableWindowId s = x at hx
  have hhead : (if s.windowlisthead = -1 then { s with windowlisthead := x } else s) =
      setLinks s { links s with
        head := if s.windowlisthead = -1 then x else s.windowlisthead } := by
    split <;> rfl
  have hadd := addToWindowList_setLinks (s := s) hx
    { links s with head := if s.windowlisthead = -1 then x else s.windowlisthead } ht
  have hdesktop : ∀ t : Wm, (if t.desktopId = -1 then { t with desktopId := x } else t) =
      { t with desktopId := if t.desktopId = -1 then x else t.desktopId } := by
    intro t; split <;> simp_all
  simp only [createWindow, hg, if_neg hx.ne_neg, hhead, hadd, ok_bind, hdesktop, setWnd_eq hx]
  rfl

theorem createWindow_full {scr : Screen} {s : Wm} {p : ProcId} {w : Window} {title : List UInt8}
    (hx : findNextAvailableWindowId s = -1) :
    createWindow scr s p w title = .ok (1, s, w) := by
  simp [createWindow, hx]

/-- Focusing a listed window moves it to the end, as the textbook splice does. -/
theorem focusLinks_eq_moveToEnd {k : Links ℤ} {l : List ℤ} (h : Linked (-1) k l) {x : ℤ}
    (hx : x ∈ l) (ht : x ≠ k.tail) : focusLinks k x = k.moveToEnd (-1) x := by
  have hn : k.next x ≠ -1 := fun he => ht ((h.next_null hx).mp he)
  have htail : k.tail ≠ -1 := fun he => by simp [h.tail_null.mp he] at hx
  by_cases hh : x = k.head
  · have hp : k.prev x = -1 := (h.prev_null hx).mpr hh
    simp [focusLinks, if_pos hh, Links.moveToEnd, Links.remove, Links.append, linkLast, hp, hn,
      htail, if_neg ht]
  · have hp : k.prev x ≠ -1 := fun he => hh ((h.prev_null hx).mp he)
    have hhead : k.head ≠ -1 := fun he => by simp [h.head_null.mp he] at hx
    simp [focusLinks, if_neg hh, Links.moveToEnd, Links.remove, Links.append, linkLast, hp, hn,
      htail, if_neg ht, hhead]

theorem focusInBounds_of_linked {k : Links ℤ} {l : List ℤ} (h : Linked (-1) k l) {x : ℤ}
    (hx : x ∈ l) (ht : x ≠ k.tail) : FocusInBounds k x := by
  refine ⟨fun he => ht ((h.next_null hx).mp he), ?_⟩
  by_cases hh : x = k.head
  · exact Or.inl hh
  · exact Or.inr fun he => hh ((h.prev_null hx).mp he)

/-- A call on a list in order moves the window to the end, and leaves all other data alone. -/
theorem focusWindow_moves (s : Wm) (l : List ℤ) (winId : ℤ) (hl : Linked (-1) (links s) l)
    (hin : ∀ i ∈ l, InBounds i) (hw : winId = -1 ∨ winId ∈ l) :
    ∃ t, focusWindow s winId = .ok t ∧
      Linked (-1) (links t) (if winId = -1 then l else l.erase winId ++ [winId]) ∧
      (winId = -1 ∨ winId = s.windowlisttail → t = s) ∧
      (∀ i, i ∉ l → t.windowlist.prev i = s.windowlist.prev i ∧
        t.windowlist.next i = s.windowlist.next i) ∧
      setLinks t (links s) = s := by
  by_cases hstay : winId = -1 ∨ winId = s.windowlisttail
  case pos =>
    refine ⟨s, focusWindow_stay hstay, ?_, fun _ => rfl, fun _ _ => ⟨rfl, rfl⟩, rfl⟩
    by_cases hneg : winId = -1
    · rwa [if_pos hneg]
    · have htail : winId = (links s).tail := hstay.resolve_left hneg
      have hmem := hw.resolve_left hneg
      rw [if_neg hneg, htail, hl.erase_tail (List.ne_nil_of_mem hmem)]
      exact hl
  case neg =>
    obtain ⟨hneg, htail⟩ := not_or.mp hstay
    have hx := hw.resolve_left hneg
    have hlink : ∀ i, i ∈ l ∨ i = -1 → IsLink i := fun i hi =>
      hi.elim (fun hm => .inr (hin i hm)) .inl
    have hne : l ≠ [] := List.ne_nil_of_mem hx
    obtain ⟨hnext, hprev⟩ := focusInBounds_of_linked hl hx htail
    have hrun := focusWindow_writes (hin winId hx) (hlink _ (.inl (hl.tail_mem hne))) htail
      ((hlink _ (hl.segment.next_mem hx)).inBounds hnext)
      (hprev.imp_right (hlink _ (hl.segment.prev_mem hx)).inBounds)
    have hmoved := focusLinks_eq_moveToEnd hl hx htail
    refine ⟨_, hrun, ?_, fun h => absurd h hstay, ?_, rfl⟩
    · rw [links_setLinks, hmoved, if_neg hneg]
      exact hl.moveToEnd hx
    · intro i hi
      have hframe := hl.moveToEnd_frame hx hi
      rw [← hmoved] at hframe
      exact hframe

/-- Windows 3 and 5 are listed. -/
def listedPair : Wm :=
  setLinks (initial ⟨1024, 768, by decide, by decide⟩)
    ⟨fun i => if i = 3 then 5 else -1, fun i => if i = 5 then 3 else -1, 3, 5⟩

theorem focusWindow_moves_first :
    ∃ t, focusWindow listedPair 3 = .ok t ∧ Linked (-1) (links t) [5, 3] := by
  have hl : Linked (-1) (links listedPair) [3, 5] :=
    ⟨⟨rfl, rfl, rfl, rfl, rfl, rfl⟩, by decide, by decide⟩
  obtain ⟨t, hrun, hmoved, -⟩ :=
    focusWindow_moves listedPair [3, 5] 3 hl (by decide) (.inr (by decide))
  exact ⟨t, hrun, hmoved⟩

theorem walk_end {succ : ℤ → ℤ} (fuel : ℕ) : walk succ fuel (-1) = .ok [] := by
  rw [walk, if_pos rfl]

theorem walk_zero {succ : ℤ → ℤ} {p : ℤ} (hp : InBounds p) :
    walk succ 0 p = .error .diverges := by
  rw [walk, if_neg hp.ne_neg, index_ok hp, ok_bind]

theorem walk_succ {succ : ℤ → ℤ} {p : ℤ} (hp : InBounds p) (fuel : ℕ) :
    walk succ (fuel + 1) p = (do return p :: (← walk succ fuel (succ p))) := by
  rw [walk, if_neg hp.ne_neg, index_ok hp, ok_bind]

theorem length_le_of_nodup {l : List ℤ} (hnd : l.Nodup) (hl : ∀ i ∈ l, InBounds i) :
    l.length ≤ maxWindowCnt := by
  have hsub : l ⊆ slots := fun i hi => mem_slots.mpr (hl i hi)
  simpa [slots] using (hnd.subperm hsub).length_le

theorem path_inBounds {stop : ℤ → Prop} {succ : ℤ → ℤ} {p q : ℤ} {l : List ℤ}
    (h : Path stop succ p l q) (hstop : stop (-1)) (hs : ∀ i, InBounds i → IsLink (succ i))
    (hp : IsLink p) : (∀ i ∈ l, InBounds i) ∧ IsLink q := by
  have hne : ∀ i, ¬stop i → i ≠ -1 := fun i hi he => hi (he ▸ hstop)
  obtain ⟨hl, hq⟩ := h.mem_closed (fun i hi hn => hs i (hi.inBounds (hne i hn))) hp
  exact ⟨fun i hi => (hl i hi).1.inBounds (hne i (hl i hi).2), hq⟩

theorem walk_of_path {succ : ℤ → ℤ} {p q : ℤ} {l : List ℤ} (h : Path (· = -1) succ p l q)
    (hl : ∀ i ∈ l, InBounds i) {fuel : ℕ} (hfuel : l.length ≤ fuel) :
    walk succ fuel p = .ok l := by
  induction h generalizing fuel with
  | done hp => subst hp; exact walk_end fuel
  | @visit p l q hp _ ih =>
    have hi := hl p List.mem_cons_self
    cases fuel with
    | zero => simp at hfuel
    | succ fuel =>
      have hrest := ih (fun i hi => hl i (List.mem_cons_of_mem p hi))
        (Nat.le_of_succ_le_succ hfuel)
      rw [walk_succ hi, hrest, ok_bind, pure_eq_ok]

theorem path_of_walk {succ : ℤ → ℤ} {fuel : ℕ} {p : ℤ} {l : List ℤ}
    (h : walk succ fuel p = .ok l) : Path (· = -1) succ p l (-1) := by
  induction fuel generalizing p l with
  | zero =>
    by_cases hp : p = -1
    · subst hp
      rw [walk_end] at h
      cases h
      exact .done rfl
    · rw [walk, if_neg hp, bind_eq_ok] at h
      obtain ⟨_, _, h⟩ := h
      cases h
  | succ fuel ih =>
    by_cases hp : p = -1
    · subst hp
      rw [walk_end] at h
      cases h
      exact .done rfl
    · rw [walk, if_neg hp, bind_eq_ok] at h
      obtain ⟨_, hq, h⟩ := h
      obtain ⟨_, rfl⟩ := index_eq_ok.mp hq
      obtain ⟨m, hm, h⟩ := bind_eq_ok.mp h
      cases h
      exact .visit hp (ih hm)

/-- Inside the array a walk can fail only by going round. -/
theorem walk_cases {succ : ℤ → ℤ} (hs : ∀ i, InBounds i → IsLink (succ i)) {p : ℤ}
    (hp : IsLink p) (fuel : ℕ) :
    (∃ l, walk succ fuel p = .ok l) ∨ walk succ fuel p = .error .diverges := by
  induction fuel generalizing p with
  | zero =>
    rcases hp with rfl | hp
    · exact Or.inl ⟨[], walk_end 0⟩
    · exact Or.inr (walk_zero hp)
  | succ fuel ih =>
    rcases hp with rfl | hp
    · exact Or.inl ⟨[], walk_end _⟩
    · rw [walk_succ hp]
      rcases ih (hs p hp) with ⟨l, hl⟩ | hd
      · exact Or.inl ⟨p :: l, by rw [hl, ok_bind, pure_eq_ok]⟩
      · exact Or.inr (by rw [hd, error_bind])

theorem traverse_eq_ok {s : Wm} (hr : Ranged (links s)) {l : List ℤ} :
    traverse s = .ok l ↔ Path (· = -1) s.windowlist.next s.windowlisthead l (-1) := by
  refine ⟨path_of_walk, ?_⟩
  intro h
  have hl := (path_inBounds h rfl hr.next hr.head).1
  exact walk_of_path h hl (length_le_of_nodup h.nodup hl)

theorem traverse_cases {s : Wm} (hr : Ranged (links s)) :
    (∃ l, traverse s = .ok l) ∨ traverse s = .error .diverges :=
  walk_cases hr.next hr.head maxWindowCnt

/-- The traversals of a well-formed list terminate and visit its slots in order. -/
theorem traverse_linked {s : Wm} (hr : Ranged (links s)) {l : List ℤ}
    (h : Linked (-1) (links s) l) : traverse s = .ok l :=
  (traverse_eq_ok hr).mpr h.forward

end WindowManagerSteps
