import Xv6Gui.WindowManagerSteps

/-!
# What one message does

A message from the drivers changes queues, rectangles and the mouse, and moves at most one
window to the end of the list. For each handler this module says when it completes and
which window it focuses, in every state whose links stay inside the array.
-/
namespace WindowMessages

open WindowManagerState WindowManager WindowManagerSteps LinkedSlots GuardedRuns

variable {scr : Screen} {s t u : Wm}

def Clicked (s : Wm) : Prop := s.clickedOnTitle = true ∨ s.clickedOnContent = true

/-- `t` differs from `s` in queues, rectangles and the mouse only. -/
structure Framed (s t : Wm) : Prop where
  links : links t = links s
  desktopId : t.desktopId = s.desktopId
  proc : t.windowlist.proc = s.windowlist.proc
  minimized : ∀ i, (t.windowlist.wnd i).minimized = (s.windowlist.wnd i).minimized
  popupProc : t.popupwindow.proc = s.popupwindow.proc
  popupCaller : t.popupwindow.caller = s.popupwindow.caller
  popupCnt : s.popupwindow.wnd.msgBuf.cnt ≤ t.popupwindow.wnd.msgBuf.cnt
  title : t.clickedOnTitle = true → s.clickedOnTitle = true ∨ s.windowlisttail ≠ -1
  content : t.clickedOnContent = true → s.clickedOnContent = true ∨ s.windowlisttail ≠ -1

theorem Framed.tail (h : Framed s t) : t.windowlisttail = s.windowlisttail :=
  congrArg Links.tail h.links

theorem Framed.traverse (h : Framed s t) : traverse t = traverse s :=
  congrArg (fun k : Links ℤ => walk k.next maxWindowCnt k.head) h.links

theorem Framed.refl (s : Wm) : Framed s s :=
  ⟨rfl, rfl, rfl, fun _ => rfl, rfl, rfl, Int.le_refl _, Or.inl, Or.inl⟩

theorem Framed.trans (h : Framed s t) (k : Framed t u) : Framed s u where
  links := k.links.trans h.links
  desktopId := k.desktopId.trans h.desktopId
  proc := k.proc.trans h.proc
  minimized i := (k.minimized i).trans (h.minimized i)
  popupProc := k.popupProc.trans h.popupProc
  popupCaller := k.popupCaller.trans h.popupCaller
  popupCnt := h.popupCnt.trans k.popupCnt
  title hu := (k.title hu).elim h.title fun ht => Or.inr (h.tail ▸ ht)
  content hu := (k.content hu).elim h.content fun ht => Or.inr (h.tail ▸ ht)

theorem Framed.clicked (h : Framed s t) (ht : Clicked t) : Clicked s ∨ s.windowlisttail ≠ -1 :=
  ht.elim (fun hc => (h.title hc).imp_left Or.inl) fun hc => (h.content hc).imp_left Or.inr

/-- The call completes in a state that differs from `s` in queues, rectangles and the mouse. -/
def Delivers (r : Except Fault Wm) (s : Wm) : Prop := ∃ t, r = .ok t ∧ Framed s t

theorem Delivers.pure (h : Framed s t) : Delivers (.ok t) s := ⟨t, rfl, h⟩

theorem Delivers.of_framed {r : Except Fault Wm} (h : Framed s t) (hr : Delivers r t) :
    Delivers r s := by
  obtain ⟨u, hu, hf⟩ := hr
  exact ⟨u, hu, h.trans hf⟩

theorem Delivers.bind {r : Except Fault Wm} {f : Wm → Except Fault Wm} (hr : Delivers r s)
    (hf : ∀ t, Framed s t → Delivers (f t) t) : Delivers (r >>= f) s := by
  obtain ⟨t, rfl, ht⟩ := hr
  exact (hf t ht).of_framed ht

theorem Delivers.not_outOfBounds {r : Except Fault Wm} (h : Delivers r s) : ¬OutOfBounds r := by
  obtain ⟨t, rfl, _⟩ := h
  exact id

theorem updateWnd_framed (s : Wm) (i : ℤ) {f : KernelWindow → KernelWindow}
    (hf : ∀ w, (f w).minimized = w.minimized) : Framed s (updateWnd s i f) := by
  refine { Framed.refl s with minimized := ?_ }
  intro j
  by_cases hj : j = i
  · subst hj; simp [updateWnd, hf]
  · simp [updateWnd, hj]

theorem dispatchTo_delivers (s : Wm) {p : ℤ} (hp : InBounds p) (m : Message) :
    Delivers (dispatchTo s p m) s := by
  rw [dispatchTo, setWnd_eq hp]
  exact .pure (updateWnd_framed s p fun _ => rfl)

theorem dispatchTo_out (s : Wm) {p : ℤ} (hp : ¬InBounds p) (m : Message) :
    OutOfBounds (dispatchTo s p m) := by
  rw [dispatchTo, setWnd_out hp]
  trivial

theorem cnt_le_dispatchMessage (buf : MsgBuf) (m : Message) :
    buf.cnt ≤ (dispatchMessage buf m).2.cnt := by
  simp only [dispatchMessage]
  split
  · exact Int.le_refl _
  · exact Int.le.intro 1 rfl

theorem dispatchToPopup_framed (s : Wm) (m : Message) : Framed s (dispatchToPopup s m) :=
  { Framed.refl s with popupCnt := cnt_le_dispatchMessage _ m }

@[simp] theorem links_dispatchToPopup (s : Wm) (m : Message) :
    links (dispatchToPopup s m) = links s := rfl

theorem setLinks_dispatchToPopup (s : Wm) (m : Message) (k : Links ℤ) :
    setLinks (dispatchToPopup s m) k = dispatchToPopup (setLinks s k) m := rfl

theorem dispatchToFocused_delivers (s : Wm) (ht : InBounds s.windowlisttail) (m : MsgType) :
    Delivers (dispatchToFocused s m) s := by
  rw [dispatchToFocused, index_ok ht]
  exact dispatchTo_delivers s ht _

theorem dispatchToFocused_out (s : Wm) (ht : s.windowlisttail = -1) (m : MsgType) :
    OutOfBounds (dispatchToFocused s m) := by
  rw [dispatchToFocused, ht, show index (-1) = .error (.outOfBounds (-1)) from rfl]
  trivial

section Mouse

theorem flags_framed (s : Wm) (shape : ℤ) (title content popup : Bool)
    (ht : title = true → s.clickedOnTitle = true ∨ s.windowlisttail ≠ -1)
    (hc : content = true → s.clickedOnContent = true ∨ s.windowlisttail ≠ -1) :
    Framed s { s with
      mouseShape := shape
      clickedOnTitle := title
      clickedOnContent := content
      clickedOnPopup := popup } :=
  ⟨rfl, rfl, rfl, fun _ => rfl, rfl, rfl, Int.le_refl _, ht, hc⟩

theorem moveMouse_framed (scr : Screen) (s : Wm) (dx dy : ℤ) : Framed s (moveMouse scr s dx dy) :=
  ⟨rfl, rfl, rfl, fun _ => rfl, rfl, rfl, Int.le_refl _, Or.inl, Or.inl⟩

theorem moveFocusWindow_delivers (s : Wm) (ht : InBounds s.windowlisttail) (dx dy : ℤ) :
    Delivers (moveFocusWindow s dx dy) s := by
  rw [moveFocusWindow, setWnd_eq ht]
  refine .pure (updateWnd_framed s _ ?_)
  intro w
  split <;> rfl

theorem handleMouseMove_delivers (s : Wm) (m : Message) (hl : IsLink s.windowlisttail)
    (h : Clicked s → s.windowlisttail ≠ -1) : Delivers (handleMouseMove scr s m) s := by
  refine Delivers.of_framed (moveMouse_framed scr s (m.param 0) (m.param 1)) ?_
  change Clicked (moveMouse scr s (m.param 0) (m.param 1)) → _ at h
  unfold handleMouseMove
  generalize hs : moveMouse scr s (m.param 0) (m.param 1) = s' at *
  have ht : Clicked s' → InBounds s'.windowlisttail := by
    intro hc
    subst hs; exact hl.inBounds (h hc)
  dsimp only
  split
  · next hc =>
    have ht := ht (Or.inl hc)
    refine Delivers.of_framed (flags_framed s' 1 _ _ s'.clickedOnPopup Or.inl Or.inl) ?_
    apply moveFocusWindow_delivers
    exact ht
  · split
    · next hc => exact dispatchToFocused_delivers _ (ht (Or.inr hc)) _
    · exact .pure (Framed.refl _)

theorem handleMouseMove_out (s : Wm) (m : Message) (h : Clicked s) (ht : s.windowlisttail = -1) :
    OutOfBounds (handleMouseMove scr s m) := by
  change Clicked (moveMouse scr s (m.param 0) (m.param 1)) at h
  change (moveMouse scr s (m.param 0) (m.param 1)).windowlisttail = -1 at ht
  unfold handleMouseMove
  generalize moveMouse scr s (m.param 0) (m.param 1) = s' at *
  dsimp only
  split
  · rw [moveFocusWindow, setWnd_out (by simp [ht, not_inBounds_neg])]
    trivial
  · next hc =>
    rw [if_pos (h.resolve_left hc)]
    exact dispatchToFocused_out _ ht _

theorem pressTitleBar_delivers (s : Wm) (ht : InBounds s.windowlisttail) (w : KernelWindow) :
    Delivers (pressTitleBar s w) s := by
  simp only [pressTitleBar]
  split
  · split
    · exact dispatchTo_delivers s ht _
    · split
      · exact dispatchTo_delivers s ht _
      · exact .pure (flags_framed s _ _ _ _ (fun _ => Or.inr ht.ne_neg) fun _ => Or.inr ht.ne_neg)
  · exact .pure (Framed.refl s)

theorem pressContent_delivers (s : Wm) (ht : InBounds s.windowlisttail) (w : KernelWindow)
    (m : MsgType) : Delivers (pressContent s w m) s := by
  simp only [pressContent]
  split
  · exact (dispatchTo_delivers _ ht _).of_framed
      (flags_framed s _ _ _ _ (fun _ => Or.inr ht.ne_neg) fun _ => Or.inr ht.ne_neg)
  · exact .pure (Framed.refl s)

theorem handleMouseUp_delivers (s : Wm) (m : Message) (hl : IsLink s.windowlisttail)
    (h : s.clickedOnContent = true → s.windowlisttail ≠ -1) :
    Delivers (handleMouseUp s m) s := by
  have hrelease : ∀ t : Wm, Framed t { t with clickedOnTitle := false, mouseShape := 0 } :=
    fun t => flags_framed t 0 false _ _ Bool.false_ne_true.elim Or.inl
  refine Delivers.of_framed (flags_framed s s.mouseShape _ _ false Or.inl Or.inl) ?_
  rw [handleMouseUp]
  dsimp only
  split
  · next hc =>
    refine Delivers.bind ?_ fun t _ => .pure (hrelease t)
    refine Delivers.of_framed (flags_framed _ s.mouseShape _ false false Or.inl
      Bool.false_ne_true.elim) ?_
    apply dispatchToFocused_delivers
    exact hl.inBounds (h hc)
  · exact .pure (hrelease _)

theorem handleMouseUp_out (s : Wm) (m : Message) (h : s.clickedOnContent = true)
    (ht : s.windowlisttail = -1) : OutOfBounds (handleMouseUp s m) := by
  rw [handleMouseUp]
  dsimp only
  rw [if_pos h]
  apply outOfBounds_bind
  apply dispatchToFocused_out
  exact ht

end Mouse

section Press

/-- Where the search for the window under the cursor stops. -/
def SearchEnds (s : Wm) (p : ℤ) : Prop := p = -1 ∨ OnWindow s p

/-- What a press outside the popup focuses: the first window under the cursor, from the tail
on, or else the desktop. -/
def MouseTarget (s : Wm) (w : ℤ) : Prop :=
  ∃ l q, Path (SearchEnds s) s.windowlist.prev s.windowlisttail l q ∧
    w = if q = -1 then s.desktopId else q

theorem findFocus_end (s : Wm) (fuel : ℕ) : findFocus s fuel (-1) = .ok (-1) := by
  rw [findFocus, if_pos rfl]

theorem findFocus_hit {s : Wm} {p : ℤ} (hp : InBounds p) (h : OnWindow s p) (fuel : ℕ) :
    findFocus s fuel p = .ok p := by
  rw [findFocus, if_neg hp.ne_neg, index_ok hp, ok_bind, if_pos h, pure_eq_ok]

theorem findFocus_zero {s : Wm} {p : ℤ} (hp : InBounds p) (h : ¬OnWindow s p) :
    findFocus s 0 p = .error .diverges := by
  rw [findFocus, if_neg hp.ne_neg, index_ok hp, ok_bind, if_neg h]

theorem findFocus_succ {s : Wm} {p : ℤ} (hp : InBounds p) (h : ¬OnWindow s p) (fuel : ℕ) :
    findFocus s (fuel + 1) p = findFocus s fuel (s.windowlist.prev p) := by
  rw [findFocus, if_neg hp.ne_neg, index_ok hp, ok_bind, if_neg h]

theorem findFocus_of_path {s : Wm} {p q : ℤ} {l : List ℤ}
    (h : Path (SearchEnds s) s.windowlist.prev p l q) (hl : ∀ i ∈ l, InBounds i) (hq : IsLink q)
    {fuel : ℕ} (hfuel : l.length ≤ fuel) : findFocus s fuel p = .ok q := by
  induction h generalizing fuel with
  | done hstop =>
    rcases hq with rfl | hq
    · exact findFocus_end s fuel
    · exact findFocus_hit hq (hstop.resolve_left hq.ne_neg) fuel
  | @visit p l q hstop _ ih =>
    have hp := hl p List.mem_cons_self
    cases fuel with
    | zero => simp at hfuel
    | succ fuel =>
      rw [findFocus_succ hp (not_or.mp hstop).2]
      exact ih (fun i hi => hl i (List.mem_cons_of_mem p hi)) hq (Nat.le_of_succ_le_succ hfuel)

theorem findFocus_cases {s : Wm} (hr : Ranged (links s)) {p : ℤ} (hp : IsLink p) (fuel : ℕ) :
    (∃ l q, findFocus s fuel p = .ok q ∧ Path (SearchEnds s) s.windowlist.prev p l q) ∨
      findFocus s fuel p = .error .diverges := by
  induction fuel generalizing p with
  | zero =>
    rcases hp with rfl | hp
    · exact Or.inl ⟨[], -1, findFocus_end s 0, .done (Or.inl rfl)⟩
    · by_cases h : OnWindow s p
      · exact Or.inl ⟨[], p, findFocus_hit hp h 0, .done (Or.inr h)⟩
      · exact Or.inr (findFocus_zero hp h)
  | succ fuel ih =>
    rcases hp with rfl | hp
    · exact Or.inl ⟨[], -1, findFocus_end s _, .done (Or.inl rfl)⟩
    · by_cases h : OnWindow s p
      · exact Or.inl ⟨[], p, findFocus_hit hp h _, .done (Or.inr h)⟩
      · rw [findFocus_succ hp h]
        rcases ih (hr.prev p hp) with ⟨l, q, hq, hpath⟩ | hd
        · exact Or.inl ⟨p :: l, q, hq, .visit (not_or.mpr ⟨hp.ne_neg, h⟩) hpath⟩
        · exact Or.inr hd

theorem MouseTarget.isLink {s : Wm} (hr : Ranged (links s)) (hd : IsLink s.desktopId) {w : ℤ}
    (h : MouseTarget s w) : IsLink w := by
  obtain ⟨l, q, hpath, rfl⟩ := h
  split
  · exact hd
  · exact (path_inBounds hpath (Or.inl rfl) hr.prev hr.tail).2

theorem findFocus_of_target {s : Wm} (hr : Ranged (links s)) {w : ℤ} (h : MouseTarget s w) :
    ∃ q, findFocus s maxWindowCnt s.windowlisttail = .ok q ∧
      w = if q = -1 then s.desktopId else q := by
  obtain ⟨l, q, hpath, hw⟩ := h
  obtain ⟨hl, hq⟩ := path_inBounds hpath (Or.inl rfl) hr.prev hr.tail
  exact ⟨q, findFocus_of_path hpath hl hq (length_le_of_nodup hpath.nodup hl), hw⟩

theorem handleMouseDown_popup (s : Wm) (m : Message) (h : OnPopup s) :
    Delivers (handleMouseDown s m) s := by
  rw [handleMouseDown, if_pos h]
  exact .pure (flags_framed s _ _ _ true Or.inl Or.inl)

/-- Both the switch of the focus and the reads of the tail after it stay inside the array. -/
def PressInBounds (s : Wm) (w : ℤ) : Prop :=
  FocusSafe (links s) w ∧ (w = -1 → s.windowlisttail ≠ -1)

theorem handleMouseDown_eq {s : Wm} (hr : Ranged (links s)) (m : Message) (h : ¬OnPopup s)
    {w : ℤ} (hw : MouseTarget s w) :
    handleMouseDown s m = (do
      let s ← focusWindow (dispatchToPopup s (newmsg .windowClose)) w
      let win ← index s.windowlisttail
      let s ← pressTitleBar s (s.windowlist.wnd win)
      pressContent s (s.windowlist.wnd win) m.msgType) := by
  obtain ⟨q, hq, rfl⟩ := findFocus_of_target (s := dispatchToPopup s (newmsg .windowClose)) hr hw
  rw [handleMouseDown, if_neg h]
  dsimp only
  rw [hq, ok_bind]

theorem handleMouseDown_delivers {s : Wm} (hr : Ranged (links s)) (hd : IsLink s.desktopId)
    (m : Message) (h : ¬OnPopup s) {w : ℤ} (hw : MouseTarget s w) (hin : PressInBounds s w) :
    Delivers (handleMouseDown s m) (setLinks s (focused (links s) w)) := by
  have hlink := hw.isLink hr hd
  have htail : InBounds (dispatchToPopup (setLinks s (focused (links s) w))
      (newmsg .windowClose)).windowlisttail := by
    change InBounds (focused (links s) w).tail
    by_cases hn : w = -1
    · subst hn
      rw [focused_neg]
      exact hr.tail.inBounds (hin.2 rfl)
    · rw [focused_tail hn]
      exact hlink.inBounds hn
  rw [handleMouseDown_eq hr m h hw,
    focusWindow_safe (s := dispatchToPopup s (newmsg .windowClose)) hr hlink hin.1, ok_bind,
    links_dispatchToPopup, setLinks_dispatchToPopup]
  refine Delivers.of_framed (dispatchToPopup_framed _ (newmsg .windowClose)) ?_
  rw [index_ok htail, ok_bind]
  refine (pressTitleBar_delivers _ htail _).bind ?_
  intro t ht
  apply pressContent_delivers
  rwa [ht.tail]

theorem handleMouseDown_out {s : Wm} (hr : Ranged (links s)) (hd : IsLink s.desktopId)
    (m : Message) (h : ¬OnPopup s) {w : ℤ} (hw : MouseTarget s w) (hin : ¬PressInBounds s w) :
    OutOfBounds (handleMouseDown s m) := by
  have hlink := hw.isLink hr hd
  rw [handleMouseDown_eq hr m h hw]
  by_cases hs : FocusSafe (links s) w
  · obtain ⟨rfl, ht⟩ : w = -1 ∧ s.windowlisttail = -1 := by
      simpa [PressInBounds, hs] using hin
    rw [focusWindow_stay (Or.inl rfl), ok_bind,
      show (dispatchToPopup s (newmsg .windowClose)).windowlisttail = -1 from ht]
    trivial
  · apply outOfBounds_bind
    exact focusWindow_faults hr hlink hs

theorem handleMouseDown_diverges {s : Wm} (hr : Ranged (links s)) (m : Message) (h : ¬OnPopup s)
    (hw : ∀ w, ¬MouseTarget s w) : handleMouseDown s m = .error .diverges := by
  rcases findFocus_cases (s := dispatchToPopup s (newmsg .windowClose)) hr hr.tail maxWindowCnt
    with ⟨l, q, _, hpath⟩ | hdiv
  · exact absurd ⟨l, q, hpath, rfl⟩ (hw _)
  · rw [handleMouseDown, if_neg h]
    dsimp only
    rw [show (dispatchToPopup s (newmsg .windowClose)).windowlisttail = s.windowlisttail from rfl,
      show findFocus _ maxWindowCnt s.windowlisttail = _ from hdiv, error_bind]

end Press

end WindowMessages
