import Xv6Gui.WindowManagerState

/-!
# The window manager

The functions of window_manager.c in the order of the file. Each body runs under `wmlock`,
so one call is one step. `getMessage` tests for an empty queue before it takes the lock;
as long as no other call intervenes that is one step as well.
-/
namespace WindowManager

open WindowManagerState

variable (scr : Screen)

def isInRect (xmin ymin xmax ymax x y : ℤ) : Bool :=
  decide (x ≥ xmin ∧ x ≤ xmax ∧ y ≥ ymin ∧ y ≤ ymax)

def createRectByCoord (xmin ymin xmax ymax : ℤ) : WinRect := ⟨xmin, xmax, ymin, ymax⟩

def moveRect (rect : WinRect) (dx dy : ℤ) : WinRect :=
  ⟨i32 (rect.xmin + dx), i32 (rect.xmax + dx), i32 (rect.ymin + dy), i32 (rect.ymax + dy)⟩

def setNext (s : Wm) (i v : ℤ) : Except Fault Wm := do
  let i ← index i
  return { s with windowlist.next := Function.update s.windowlist.next i v }

def setPrev (s : Wm) (i v : ℤ) : Except Fault Wm := do
  let i ← index i
  return { s with windowlist.prev := Function.update s.windowlist.prev i v }

def setWnd (s : Wm) (i : ℤ) (f : KernelWindow → KernelWindow) : Except Fault Wm := do
  let i ← index i
  return { s with windowlist.wnd := Function.update s.windowlist.wnd i (f (s.windowlist.wnd i)) }

/-- A slot is free when both its links are its own number. -/
def Free (s : Wm) (i : ℤ) : Prop := s.windowlist.prev i = i ∧ s.windowlist.next i = i

instance (s : Wm) (i : ℤ) : Decidable (Free s i) := inferInstanceAs (Decidable (_ ∧ _))

def findNextAvailableWindowId (s : Wm) : ℤ :=
  (slots.find? fun i => decide (Free s i)).getD (-1)

def addToWindowList (s : Wm) (idx : ℤ) : Except Fault Wm := do
  let s ← setPrev s idx s.windowlisttail
  let s ← setNext s idx (-1)
  let s ← if s.windowlisttail ≠ -1 then setNext s s.windowlisttail idx else pure s
  return { s with windowlisttail := idx }

def removeFromWindowList (s : Wm) (idx : ℤ) : Except Fault Wm := do
  let idx ← index idx
  let s := if s.windowlisttail = idx
    then { s with windowlisttail := s.windowlist.prev s.windowlisttail } else s
  let s ← if s.windowlist.prev idx ≠ -1
    then setNext s (s.windowlist.prev idx) (s.windowlist.next idx) else pure s
  if s.windowlist.next idx ≠ -1
    then setPrev s (s.windowlist.next idx) (s.windowlist.prev idx) else pure s

def initMessageQueue (buf : MsgBuf) : MsgBuf := { buf with front := 0, rear := 0, cnt := 0 }

/-- Step a queue position and wrap it at the end of the array. -/
def advance (i : Fin msgBufSize) : Fin msgBufSize :=
  if h : i.val + 1 ≥ msgBufSize then 0 else ⟨i.val + 1, by omega⟩

def dispatchMessage (buf : MsgBuf) (msg : Message) : ℤ × MsgBuf :=
  if buf.cnt ≥ msgBufSize then (1, buf)
  else (0, { buf with
    cnt := buf.cnt + 1
    data := Function.update buf.data buf.rear msg
    rear := advance buf.rear })

/-- Nothing is returned when the queue is empty. -/
def getMessage (buf : MsgBuf) : Option Message × MsgBuf :=
  if buf.cnt = 0 then (none, buf)
  else (some (buf.data buf.front), { buf with cnt := buf.cnt - 1, front := advance buf.front })

def dispatchTo (s : Wm) (p : ℤ) (msg : Message) : Except Fault Wm :=
  setWnd s p fun w => { w with msgBuf := (dispatchMessage w.msgBuf msg).2 }

def dispatchToPopup (s : Wm) (msg : Message) : Wm :=
  { s with popupwindow.wnd.msgBuf := (dispatchMessage s.popupwindow.wnd.msgBuf msg).2 }

def wmInit (s : Wm) : Wm :=
  { s with
    mouseShape := 0
    wmMousePos := ⟨scr.screenWidth / 2, scr.screenHeight / 2⟩
    wmLastMousePos := ⟨scr.screenWidth / 2, scr.screenHeight / 2⟩
    windowlisthead := -1
    windowlisttail := -1
    windowlist.next := fun i => if InBounds i then i else s.windowlist.next i
    windowlist.prev := fun i => if InBounds i then i else s.windowlist.prev i
    popupwindow.caller := -1
    clickedOnTitle := false
    clickedOnContent := false
    clickedOnPopup := false }

def initial : Wm := wmInit scr boot

def focusWindow (s : Wm) (winId : ℤ) : Except Fault Wm :=
  if winId = -1 ∨ winId = s.windowlisttail then pure s
  else do
    let winId ← index winId
    let s ← if winId = s.windowlisthead then do
        let newhead := s.windowlist.next winId
        let s ← setPrev s newhead (-1)
        pure { s with windowlisthead := newhead }
      else do
        let prevWin := s.windowlist.prev winId
        let nextWin := s.windowlist.next winId
        let s ← setNext s prevWin nextWin
        setPrev s nextWin prevWin
    addToWindowList s winId

def moveFocusWindow (s : Wm) (dx dy : ℤ) : Except Fault Wm :=
  setWnd s s.windowlisttail fun w =>
    if w.hasTitleBar ≠ 0 then { w with position := moveRect w.position dx dy } else w

/-- The slots a loop over the list visits. More than `maxWindowCnt` visits of slots inside
the array come back to a slot seen before, so the loop would never end. -/
def walk (succ : ℤ → ℤ) : ℕ → ℤ → Except Fault (List ℤ)
  | fuel, p =>
    if p = -1 then .ok []
    else do
      let p ← index p
      match fuel with
      | 0 => .error .diverges
      | fuel + 1 => return p :: (← walk succ fuel (succ p))

/-- `for (p = windowlisthead; p != -1; p = windowlist[p].next)` -/
def traverse (s : Wm) : Except Fault (List ℤ) :=
  walk s.windowlist.next maxWindowCnt s.windowlisthead

def getWindowCount (s : Wm) : Except Fault ℤ := do
  let l ← traverse s
  return (l.filter fun p => decide (p ≠ s.desktopId)).length

/-- A local message with only its type assigned. -/
def newmsg (t : MsgType) : Message := ⟨t, fun _ => none⟩

/-- A local message with its type and its first two parameters assigned. -/
def newmsgAt (t : MsgType) (x y : ℤ) : Message :=
  ⟨t, fun i => if i = 0 then some x else if i = 1 then some y else none⟩

/-- The loop over the program bars. The loop ends at the first bar that holds `mouseX`. -/
def dockProgramClick (s : Wm) (mouseX barWidth : ℤ) : ℕ → ℤ → ℤ → Except Fault Wm
  | fuel, xStart, p =>
    if p = -1 then .ok s
    else do
      let p ← index p
      if p ≠ s.desktopId ∧ mouseX > xStart + 1 ∧ mouseX ≤ xStart + barWidth - 1 then
        if (s.windowlist.wnd p).minimized ≠ 0 then dispatchTo s p (newmsg .windowMaximize)
        else focusWindow s p
      else
        match fuel with
        | 0 => .error .diverges
        | fuel + 1 =>
          dockProgramClick s mouseX barWidth fuel
            (if p ≠ s.desktopId then xStart + barWidth else xStart) (s.windowlist.next p)

/-- The loop behind the show-desktop icon. Dispatching leaves the links alone, so the
visited slots are those of the list at the start. -/
def minimizeAll (s : Wm) : Except Fault Wm := do
  let l ← traverse s
  l.foldlM (fun s p =>
    if p ≠ s.desktopId ∧ (s.windowlist.wnd p).minimized = 0
    then dispatchTo s p (newmsg .windowMinimize) else pure s) s

def barWidth (windowCount : ℤ) : ℤ :=
  min (((scr.screenWidth : ℤ) - startIconWidth - showDesktopIconWidth).tdiv (windowCount + 1))
    dockProgramNormalWidth

def clickProgramBar (s : Wm) (mouseX windowCount : ℤ) : Except Fault Wm :=
  if windowCount > 0 then
    dockProgramClick s mouseX (barWidth scr windowCount) maxWindowCnt (startIconWidth + 5)
      s.windowlisthead
  else pure s

def clickShowDesktop (s : Wm) (mouseX : ℤ) : Except Fault Wm :=
  if mouseX ≥ (scr.screenWidth : ℤ) - showDesktopIconWidth then minimizeAll s else pure s

def clickStartIcon (s : Wm) (mouseX : ℤ) (msg : Message) : Except Fault Wm :=
  if mouseX ≤ startIconWidth ∧ msg.msgType = .mouseLeftClick ∧ s.popupwindow.caller ≠ s.desktopId
  then dispatchTo s s.desktopId (newmsgAt msg.msgType s.wmMousePos.x s.wmMousePos.y)
  else pure s

def handleDesktopDockClick (s : Wm) (mouseX : ℤ) (msg : Message) : Except Fault Wm := do
  let windowCount ← getWindowCount s
  let s ← clickProgramBar scr s mouseX windowCount
  let s ← clickShowDesktop scr s mouseX
  clickStartIcon s mouseX msg

def clampMousePos (p : Point) : Point :=
  let x := if p.x > scr.screenWidth then (scr.screenWidth : ℤ) else p.x
  let y := if p.y > scr.screenHeight then (scr.screenHeight : ℤ) else p.y
  ⟨if x < 0 then 0 else x, if y < 0 then 0 else y⟩

/-- The second test bounds `params[1]` from below but `params[0]` from above. -/
def moveMouse (s : Wm) (dx dy : ℤ) : Wm :=
  let p := if dx > -(scr.screenWidth : ℤ) ∧ dx < scr.screenWidth ∧
      dy > -(scr.screenHeight : ℤ) ∧ dx < scr.screenHeight
    then ⟨s.wmMousePos.x + dx, s.wmMousePos.y - dy⟩ else s.wmMousePos
  { s with wmLastMousePos := s.wmMousePos, wmMousePos := clampMousePos scr p }

/-- The cursor position relative to a window's content. -/
def relativeTo (s : Wm) (r : WinRect) (t : MsgType) : Message :=
  newmsgAt t (i32 (s.wmMousePos.x - r.xmin)) (i32 (s.wmMousePos.y - r.ymin))

def dispatchToFocused (s : Wm) (t : MsgType) : Except Fault Wm := do
  let p ← index s.windowlisttail
  dispatchTo s p (relativeTo s (s.windowlist.wnd p).position t)

def handleMouseMove (s : Wm) (msg : Message) : Except Fault Wm :=
  let s := moveMouse scr s (msg.param 0) (msg.param 1)
  if s.clickedOnTitle then
    moveFocusWindow { s with mouseShape := 1 } (s.wmMousePos.x - s.wmLastMousePos.x)
      (s.wmMousePos.y - s.wmLastMousePos.y)
  else if s.clickedOnContent then dispatchToFocused s msg.msgType
  else pure s

/-- The cursor is on an open popup. -/
def OnPopup (s : Wm) : Prop :=
  s.popupwindow.caller ≠ -1 ∧
    isInRect s.popupwindow.wnd.position.xmin s.popupwindow.wnd.position.ymin
      s.popupwindow.wnd.position.xmax s.popupwindow.wnd.position.ymax
      s.wmMousePos.x s.wmMousePos.y = true

instance (s : Wm) : Decidable (OnPopup s) := inferInstanceAs (Decidable (_ ∧ _))

/-- The cursor is on the frame of slot `p`, which is not minimised and not the desktop. -/
def OnWindow (s : Wm) (p : ℤ) : Prop :=
  p ≠ s.desktopId ∧ (s.windowlist.wnd p).minimized ≠ 1 ∧
    isInRect (s.windowlist.wnd p).position.xmin
      (i32 ((s.windowlist.wnd p).position.ymin - titleHeight))
      (s.windowlist.wnd p).position.xmax (s.windowlist.wnd p).position.ymax
      s.wmMousePos.x s.wmMousePos.y = true

instance (s : Wm) (p : ℤ) : Decidable (OnWindow s p) := inferInstanceAs (Decidable (_ ∧ _ ∧ _))

/-- The value of `p` after the search from the tail: a window under the cursor, or -1. -/
def findFocus (s : Wm) : ℕ → ℤ → Except Fault ℤ
  | fuel, p =>
    if p = -1 then .ok (-1)
    else do
      let p ← index p
      if OnWindow s p then return p
      else
        match fuel with
        | 0 => .error .diverges
        | fuel + 1 => findFocus s fuel (s.windowlist.prev p)

def pressTitleBar (s : Wm) (w : KernelWindow) : Except Fault Wm :=
  if isInRect w.position.xmin (i32 (w.position.ymin - titleHeight)) w.position.xmax w.position.ymin
      s.wmMousePos.x s.wmMousePos.y then
    if s.wmMousePos.x + 30 > w.position.xmax then
      dispatchTo s s.windowlisttail (newmsg .windowClose)
    else if s.wmMousePos.x + 60 > w.position.xmax ∧ s.wmMousePos.x + 30 ≤ w.position.xmax then
      dispatchTo s s.windowlisttail (newmsg .windowMinimize)
    else pure { s with clickedOnTitle := true }
  else pure s

/-- The press is reported relative to the popup's rectangle, not to the window's. -/
def pressContent (s : Wm) (w : KernelWindow) (t : MsgType) : Except Fault Wm :=
  if isInRect w.position.xmin w.position.ymin w.position.xmax w.position.ymax
      s.wmMousePos.x s.wmMousePos.y then
    dispatchTo { s with clickedOnContent := true } s.windowlisttail
      (relativeTo s s.popupwindow.wnd.position t)
  else pure s

def handleMouseDown (s : Wm) (msg : Message) : Except Fault Wm :=
  if OnPopup s then pure { s with clickedOnPopup := true }
  else do
    let s := dispatchToPopup s (newmsg .windowClose)
    let p ← findFocus s maxWindowCnt s.windowlisttail
    let s ← focusWindow s (if p = -1 then s.desktopId else p)
    let win ← index s.windowlisttail
    let s ← pressTitleBar s (s.windowlist.wnd win)
    pressContent s (s.windowlist.wnd win) msg.msgType

def handleMouseUp (s : Wm) (msg : Message) : Except Fault Wm := do
  let s := { s with clickedOnPopup := false }
  let s ← if s.clickedOnContent then
      dispatchToFocused { s with clickedOnContent := false } msg.msgType
    else pure s
  return { s with clickedOnTitle := false, mouseShape := 0 }

/-- The cursor is on the dock, which belongs to the focused desktop. -/
def InDock (s : Wm) : Prop :=
  s.windowlisttail = s.desktopId ∧ s.wmMousePos.y ≥ (scr.screenHeight : ℤ) - dockHeight ∧
    s.wmMousePos.y ≤ (scr.screenHeight : ℤ)

instance (s : Wm) : Decidable (InDock scr s) := inferInstanceAs (Decidable (_ ∧ _ ∧ _))

def dispatchClick (s : Wm) (msg : Message) : Except Fault Wm :=
  if s.clickedOnPopup then
    pure (dispatchToPopup { s with clickedOnPopup := false }
      (relativeTo s s.popupwindow.wnd.position msg.msgType))
  else if s.clickedOnContent then
    let s := { s with clickedOnContent := false }
    if InDock scr s then handleDesktopDockClick scr s s.wmMousePos.x msg
    else dispatchToFocused s msg.msgType
  else pure s

/-- The click cases end without a `break` and go on with the mouse-up case. -/
def handleClick (s : Wm) (msg : Message) : Except Fault Wm := do
  let s ← dispatchClick scr s msg
  handleMouseUp s msg

def wmHandleMessage (s : Wm) (msg : Message) : Except Fault Wm :=
  match msg.msgType with
  | .mouseMove => handleMouseMove scr s msg
  | .mouseDown => handleMouseDown s msg
  | .mouseLeftClick | .mouseRightClick | .mouseDblclick => handleClick scr s msg
  | .mouseUp => handleMouseUp s msg
  | .keyDown | .keyUp => dispatchTo s s.windowlisttail msg
  | _ => pure s

/-- The initial rectangle is used as given when it lies on the screen and has the size of
the window. -/
def fitsScreen (window : Window) : Bool :=
  let r := window.initialPosition
  decide (r.xmin ≥ 0 ∧ r.xmax ≤ scr.screenWidth ∧ r.ymin ≥ 0 ∧ r.ymax ≤ scr.screenHeight ∧
    i32 (r.xmax - r.xmin) = window.width ∧ i32 (r.ymax - r.ymin) = window.height)

def initialRect (window : Window) : WinRect :=
  let w : ℤ := scr.screenWidth / 2
  let h : ℤ := scr.screenHeight / 2
  if fitsScreen scr window then window.initialPosition
  else createRectByCoord (w - window.width.tdiv 2) (h - window.height.tdiv 2)
    (w + window.width.tdiv 2) (h + window.height.tdiv 2)

/-- `memmove(wnd.title, title, len)` with `len` cut to `maxTitleLen`: no NUL is written. -/
def copyTitle (old : Fin maxTitleLen → UInt8) (title : List UInt8) : Fin maxTitleLen → UInt8 :=
  fun i => (title[i.val]?).getD (old i)

def createWindow (s : Wm) (myproc : ProcId) (window : Window) (title : List UInt8) :
    Except Fault (ℤ × Wm × Window) :=
  let winId := findNextAvailableWindowId s
  if winId = -1 then .ok (1, s, window)
  else do
    let s := if s.windowlisthead = -1 then { s with windowlisthead := winId } else s
    let s ← addToWindowList s winId
    let s := if s.desktopId = -1 then { s with desktopId := winId } else s
    let s ← setWnd s winId fun w =>
      { w with
        position := initialRect scr window
        windowBuf := window.windowBuf
        minimized := 0
        hasTitleBar := window.hasTitleBar
        msgBuf := initMessageQueue w.msgBuf
        title := copyTitle w.title title }
    let s := { s with windowlist.proc := Function.update s.windowlist.proc winId (some myproc) }
    return (0, s, { window with handler := winId })

def createPopupWindow (s : Wm) (myproc : ProcId) (window : Window) (caller : ℤ) :
    ℤ × Wm × Window :=
  if s.popupwindow.caller ≠ -1 then (1, s, window)
  else
    let old := s.popupwindow.wnd
    (0, { s with popupwindow := {
      proc := some myproc
      caller := caller
      wnd := { old with
        position := if fitsScreen scr window then window.initialPosition else old.position
        windowBuf := window.windowBuf
        minimized := 0
        hasTitleBar := window.hasTitleBar
        msgBuf := initMessageQueue old.msgBuf } } }, { window with handler := caller })

def closePopupWindow (s : Wm) (window : Window) : ℤ × Wm × Window :=
  (0, { s with
    popupwindow.caller := -1
    popupwindow.wnd.msgBuf := initMessageQueue s.popupwindow.wnd.msgBuf
    popupwindow.wnd.title := fun _ => 0 }, { window with handler := -1 })

def closeWindow (s : Wm) (window : Window) : Except Fault (ℤ × Wm × Window) := do
  let winId := window.handler
  let s ← removeFromWindowList s winId
  let s ← setPrev s winId winId
  let s ← setNext s winId winId
  let s ← setWnd s winId fun w =>
    { w with msgBuf := initMessageQueue w.msgBuf, title := fun _ => 0 }
  let s ← if winId = s.windowlisttail then focusWindow s (s.windowlist.prev winId) else pure s
  return (0, s, { window with handler := -1 })

def minimizeWindow (s : Wm) (window : Window) : Except Fault (ℤ × Wm × Window) := do
  let winId := window.handler
  let s ← setWnd s winId fun w => { w with minimized := 1 }
  let s ← if winId = s.windowlisttail then focusWindow s (s.windowlist.prev winId) else pure s
  return (0, s, window)

def maximizeWindow (s : Wm) (window : Window) : Except Fault (ℤ × Wm × Window) := do
  let winId := window.handler
  let s ← setWnd s winId fun w => { w with minimized := 0 }
  let s ← focusWindow s winId
  return (0, s, window)

/-- The part of turnoffScreen that reaches the windows. -/
def turnoffScreen (s : Wm) : Except Fault Wm := do
  let l ← traverse s
  l.foldlM (fun s p => dispatchTo s p (newmsg .windowClose)) s

/-- The only system call that compares the owner of a slot with the caller. -/
def sysGetMessage (s : Wm) (myproc : ProcId) (h : ℤ) : Except Fault (Option Message × Wm) := do
  let h ← index h
  if some myproc ≠ s.windowlist.proc h then return (none, s)
  else
    let (res, buf) := getMessage (s.windowlist.wnd h).msgBuf
    let s ← setWnd s h fun w => { w with msgBuf := buf }
    return (res, s)

def sysGetPopupMessage (s : Wm) : Option Message × Wm :=
  if s.popupwindow.caller = -1 then (none, s)
  else
    let (res, buf) := getMessage s.popupwindow.wnd.msgBuf
    (res, { s with popupwindow.wnd.msgBuf := buf })

end WindowManager
