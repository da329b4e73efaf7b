import Xv6Gui.WindowSessions

/-!
# The window list stays a list

In a run whose handles belong to open windows the links thread exactly these windows, until
a call meets one of three slips: `closeWindow` does not repair the head, a press on no
window focuses a desktop that is not listed, and a key press writes to the tail of an empty
list.
-/
namespace WindowListInvariant

open WindowManagerState WindowManager WindowManagerSteps WindowMessages WindowMessageOutcomes
open DockClicks WindowSessions LinkedSlots GuardedRuns

variable {scr : Screen} {s t : Session} {c : Call}

/-- The links thread the slots of `l` in both directions, these are the open windows, and
every other slot is marked free. -/
structure Threads (k : Links ℤ) (opened : Finset ℤ) (l : List ℤ) : Prop where
  linked : Linked (-1) k l
  members : ∀ i, i ∈ l ↔ i ∈ opened
  inBounds : ∀ i ∈ l, InBounds i
  free : ∀ i, InBounds i → i ∉ l → k.prev i = i ∧ k.next i = i

/-- The list is well formed and the traversals end after the open windows. -/
def WellFormed (s : Session) : Prop :=
  ∃ l, Threads (links s.wm) s.opened l ∧ traverse s.wm = .ok l

/-- The handles come from `createWindow` and have not been closed. -/
def Admissible (s : Session) : Call → Prop
  | .closeWindow _ w => w.handler ∈ s.opened
  | .minimizeWindow _ w => w.handler ∈ s.opened
  | .maximizeWindow _ w => w.handler ∈ s.opened
  | .getMessage _ h => h ∈ s.opened
  | _ => True

def KeepsList (s : Session) : Call → Prop
  | .closeWindow _ w => w.handler ≠ s.wm.windowlisthead
  | .wmHandleMessage m =>
    match m.msgType with
    | .keyDown | .keyUp => s.opened.Nonempty
    | .mouseDown => OnPopup s.wm ∨ s.wm.desktopId ∈ s.opened ∨ ∃ w ∈ s.opened, OnWindow s.wm w
    | _ => True
  | _ => True

section Links

variable {k : Links ℤ} {opened : Finset ℤ} {l : List ℤ} {x : ℤ}

theorem Threads.inBounds_opened (h : Threads k opened l) (hx : x ∈ opened) : InBounds x :=
  h.inBounds x ((h.members x).mpr hx)

theorem Threads.tail_null (h : Threads k opened l) : k.tail = -1 ↔ opened = ∅ := by
  rw [h.linked.tail_null, List.eq_nil_iff_forall_not_mem, Finset.eq_empty_iff_forall_notMem]
  exact forall_congr' fun i => not_congr (h.members i)

theorem Threads.tail_mem (h : Threads k opened l) (ht : k.tail ≠ -1) : k.tail ∈ opened :=
  (h.members _).mp (h.linked.tail_mem fun hl => ht (h.linked.tail_null.mpr hl))

theorem Threads.head_mem (h : Threads k opened l) (hh : k.head ≠ -1) : k.head ∈ opened :=
  (h.members _).mp (h.linked.head_mem fun hl => hh (h.linked.head_null.mpr hl))

theorem Threads.prev_mem (h : Threads k opened l) (hx : x ∈ opened) :
    k.prev x = -1 ∨ k.prev x ∈ opened := by
  rw [← h.members (k.prev x)]
  exact (h.linked.segment.prev_mem ((h.members x).mpr hx)).symm

theorem Threads.fresh (h : Threads k opened l) (hx : k.next x = x) : x ∉ l :=
  fun hm => h.linked.next_ne hm hx

theorem Threads.place (h : Threads k opened l) (hx : InBounds x) (hfree : k.next x = x) :
    Threads (linkLast { k with head := if k.head = -1 then x else k.head } x) (insert x opened)
      (l ++ [x]) where
  linked := h.linked.append (h.fresh hfree) hx.ne_neg
  members i := by rw [List.mem_append, List.mem_singleton, Finset.mem_insert, h.members, or_comm]
  inBounds i hi := by
    rcases List.mem_append.mp hi with hi | hi
    · exact h.inBounds i hi
    · rw [List.mem_singleton.mp hi]
      exact hx
  free i hi hm := by
    obtain ⟨hl, hne⟩ := not_or.mp (List.mem_append.not.mp hm)
    have hf := h.linked.append_frame hl (List.mem_singleton.not.mp hne)
    exact ⟨hf.1.trans (h.free i hi hl).1, hf.2.trans (h.free i hi hl).2⟩

/-- Closing a window takes it out of the list, whatever becomes of the head. -/
theorem Threads.remove (h : Threads k opened l) (hx : x ∈ opened) :
    Threads { WindowManagerSteps.release k x with head := (k.remove (-1) x).head }
      (opened.erase x) (l.erase x) where
  linked := by
    have hfresh : ∀ y ∈ l.erase x, y ≠ x := fun y hy => (h.linked.nodup.mem_erase_iff.mp hy).1
    refine (h.linked.remove ((h.members x).mpr hx)).congr ?_ ?_ rfl rfl
    · intro y hy
      exact Function.update_of_ne (hfresh y hy) _ _
    · intro y hy
      exact Function.update_of_ne (hfresh y hy) _ _
  members i := by rw [h.linked.nodup.mem_erase_iff, Finset.mem_erase, h.members]
  inBounds i hi := h.inBounds i (List.mem_of_mem_erase hi)
  free i hi hm := by
    by_cases hix : i = x
    · subst hix
      exact ⟨Function.update_self _ _ _, Function.update_self _ _ _⟩
    · have hl : i ∉ l := fun hl => hm (h.linked.nodup.mem_erase_iff.mpr ⟨hix, hl⟩)
      have hf := h.linked.remove_frame ((h.members x).mpr hx) hl
      refine ⟨?_, ?_⟩
      · exact (Function.update_of_ne hix _ _).trans (hf.1.trans (h.free i hi hl).1)
      · exact (Function.update_of_ne hix _ _).trans (hf.2.trans (h.free i hi hl).2)

theorem Threads.release (h : Threads k opened l) (hx : x ∈ opened) (hh : x ≠ k.head) :
    Threads (release k x) (opened.erase x) (l.erase x) := by
  have hkeep := h.remove hx
  have hhead : (k.remove (-1) x).head = k.head := if_neg hh
  rw [hhead] at hkeep
  exact hkeep

/-- The focus moves a listed window to the end and keeps the order of the others. -/
theorem Threads.focus_mem (h : Threads k opened l) (hx : x ∈ l) :
    Threads (focused k x) opened (l.erase x ++ [x]) := by
  have hne : x ≠ -1 := (h.inBounds x hx).ne_neg
  by_cases ht : x = k.tail
  · rw [focused_stay (Or.inr ht), ht, h.linked.erase_tail (List.ne_nil_of_mem hx)]
    exact h
  · have hmem : ∀ i, i ∈ l.erase x ++ [x] ↔ i ∈ l := by
      intro i
      rw [List.mem_append, List.mem_singleton, h.linked.nodup.mem_erase_iff]
      by_cases hix : i = x
      · simp [hix, hx]
      · simp [hix]
    rw [focused_move (not_or.mpr ⟨hne, ht⟩), focusLinks_eq_moveToEnd h.linked hx ht]
    refine ⟨h.linked.moveToEnd hx, ?_, ?_, ?_⟩
    · intro i
      rw [hmem, h.members]
    · intro i hi
      exact h.inBounds i ((hmem i).mp hi)
    · intro i hi hm
      rw [hmem] at hm
      have hf := h.linked.moveToEnd_frame hx hm
      exact ⟨hf.1.trans (h.free i hi hm).1, hf.2.trans (h.free i hi hm).2⟩

theorem Threads.focus (h : Threads k opened l) (hx : x = -1 ∨ x ∈ opened) :
    ∃ l', Threads (focused k x) opened l' := by
  rcases hx with rfl | hx
  · rw [focused_stay (Or.inl rfl)]
    exact ⟨l, h⟩
  · exact ⟨l.erase x ++ [x], h.focus_mem ((h.members x).mpr hx)⟩

theorem Threads.focusSafe (h : Threads k opened l) (hx : x = -1 ∨ x ∈ opened) : FocusSafe k x := by
  rcases hx with rfl | hx
  · exact Or.inl rfl
  · by_cases ht : x = k.tail
    · exact Or.inr (Or.inl ht)
    · exact Or.inr (Or.inr (focusInBounds_of_linked h.linked ((h.members x).mpr hx) ht))

theorem Threads.ranged (h : Threads k opened l) : Ranged k where
  next i hi := by
    by_cases hm : i ∈ l
    · rcases h.linked.segment.next_mem hm with hn | hn
      · exact Or.inr (h.inBounds _ hn)
      · exact Or.inl hn
    · rw [(h.free i hi hm).2]
      exact Or.inr hi
  prev i hi := by
    by_cases hm : i ∈ l
    · rcases h.linked.segment.prev_mem hm with hn | hn
      · exact Or.inr (h.inBounds _ hn)
      · exact Or.inl hn
    · rw [(h.free i hi hm).1]
      exact Or.inr hi
  head := or_iff_not_imp_left.mpr fun hh => h.inBounds_opened (h.head_mem hh)
  tail := or_iff_not_imp_left.mpr fun ht => h.inBounds_opened (h.tail_mem ht)

end Links

structure Invariant (s : Session) : Prop where
  sane : Sane s
  threads : ∃ l, Threads (links s.wm) s.opened l
  clicked : Clicked s.wm → s.wm.windowlisttail ≠ -1

theorem Invariant.wellFormed (h : Invariant s) : WellFormed s := by
  obtain ⟨l, hl⟩ := h.threads
  exact ⟨l, hl, traverse_linked h.sane.ranged hl.linked⟩

theorem start_invariant (scr : Screen) : Invariant (start scr) where
  sane := start_sane scr
  threads := ⟨[], ⟨⟨rfl, rfl⟩, List.nodup_nil, by simp⟩, by simp [start], by simp, fun i hi _ => by
    simp [start, links, initial, wmInit, hi]⟩
  clicked h := by simp [Clicked, start, initial, wmInit] at h

section Messages

variable {m : Message} {l : List ℤ}

/-- The search for the window under the cursor visits open windows only. -/
theorem search_opened (h : Threads (links s.wm) s.opened l) {visited : List ℤ} {q : ℤ}
    (hpath : Path (SearchEnds s.wm) s.wm.windowlist.prev s.wm.windowlisttail visited q) :
    (∀ i ∈ visited, (i = -1 ∨ i ∈ s.opened) ∧ ¬SearchEnds s.wm i) ∧ (q = -1 ∨ q ∈ s.opened) :=
  hpath.mem_closed (fun _ hi hn => h.prev_mem (hi.resolve_left (not_or.mp hn).1))
    (or_iff_not_imp_left.mpr h.tail_mem)

theorem target_opened (h : Threads (links s.wm) s.opened l)
    (hg : s.wm.desktopId ∈ s.opened ∨ ∃ w ∈ s.opened, OnWindow s.wm w) {x : ℤ}
    (hx : MouseTarget s.wm x) : x ∈ s.opened := by
  obtain ⟨visited, q, hpath, rfl⟩ := hx
  obtain ⟨hvisited, hq⟩ := search_opened h hpath
  by_cases hend : q = -1
  · rw [if_pos hend]
    rcases hg with hd | ⟨w, hw, hon⟩
    · exact hd
    · subst hend
      have hall : Path (· = -1) s.wm.windowlist.prev s.wm.windowlisttail visited (-1) :=
        hpath.stops_later (fun _ => Or.inl) rfl
      obtain ⟨rfl, -⟩ := hall.unique h.linked.backward
      exact absurd (Or.inr hon) (hvisited w (List.mem_reverse.mpr ((h.members w).mpr hw))).2
  · rw [if_neg hend]
    exact hq.resolve_left hend

/-- Under the guard a message focuses an open window, if any. -/
theorem request_opened (h : Threads (links s.wm) s.opened l)
    (hg : KeepsList s (.wmHandleMessage m)) {x : ℤ} (hx : FocusRequest scr s.wm m x) :
    x ∈ s.opened := by
  have hdock : ∀ {y}, DockFocus scr s.wm y x → x ∈ s.opened := by
    intro y hf
    obtain ⟨l', xs, ys, hl', hsplit, _⟩ := hf.1
    obtain ⟨rfl, -⟩ := hl'.unique h.linked.forward
    have hmem : x ∈ dockWindows s.wm l' := by simp [hsplit]
    exact (h.members x).mp (List.mem_filter.mp hmem).1
  simp only [FocusRequest] at hx
  cases hm : m.msgType with
  | mouseDown =>
    simp only [hm] at hx
    simp only [KeepsList, hm] at hg
    exact target_opened h (hg.resolve_left hx.1) hx.2
  | mouseLeftClick | mouseRightClick | mouseDblclick =>
    simp only [hm] at hx
    exact hdock hx.2.2.2
  | _ => simp [hm] at hx

theorem message_inBounds (h : Invariant s) (hg : KeepsList s (.wmHandleMessage m)) :
    MessageInBounds scr s.wm m := by
  obtain ⟨l, hl⟩ := h.threads
  have hreq := fun x => @request_opened scr s m l hl hg x
  have hclick : (∀ p, s.wm.clickedOnPopup = false → s.wm.clickedOnContent = true →
      InDock scr s.wm → DockFocus scr s.wm s.wm.wmMousePos.x p → p ∈ s.opened) →
      ClickInBounds scr s.wm m := fun hp hc => by
    have ht := h.clicked (Or.inr hc)
    refine ⟨fun hpd => ⟨fun p hf => hl.focusSafe (Or.inr (hp p hpd.1 hc hpd.2 hf)), ?_⟩,
      fun _ => ht⟩
    exact fun _ _ hd => ht (hpd.2.1.trans hd)
  simp only [MessageInBounds]
  cases hm : m.msgType with
  | keyUp | keyDown =>
    simp only [KeepsList, hm] at hg
    exact fun ht => hg.ne_empty (hl.tail_null.mp ht)
  | mouseMove => exact h.clicked
  | mouseUp => exact fun hc => h.clicked (Or.inr hc)
  | mouseDown =>
    simp only [FocusRequest, hm] at hreq
    apply or_iff_not_imp_left.mpr
    intro hp w hw
    have hopen := hreq w ⟨hp, hw⟩
    exact ⟨hl.focusSafe (Or.inr hopen), fun hn => absurd hn (hl.inBounds_opened hopen).ne_neg⟩
  | mouseLeftClick | mouseRightClick | mouseDblclick =>
    simp only [FocusRequest, hm] at hreq
    exact hclick fun p h1 h2 h3 h4 => hreq p ⟨h1, h2, h3, h4⟩
  | _ => trivial

theorem message_returns (h : Invariant s) (hg : KeepsList s (.wmHandleMessage m)) :
    ∃ wm, wmHandleMessage scr s.wm m = .ok wm := by
  obtain ⟨l, hl⟩ := h.threads
  rcases wmHandleMessage_cases h.sane.ranged h.sane.desktop (message_inBounds h hg)
    with ⟨x, hx⟩ | ⟨_, hround | ⟨x, hreq, hround⟩⟩
  · obtain ⟨wm, hwm, _⟩ := hx.delivers
    exact ⟨wm, hwm⟩
  · exact absurd (listEnds_of_linked hl.linked) hround
  · obtain ⟨l', hl'⟩ := hl.focus (Or.inr (request_opened hl hg hreq))
    exact absurd (listEnds_of_linked hl'.linked) hround

end Messages

theorem handOver_opened {l : List ℤ} (h : Threads (links s.wm) s.opened l) {x : ℤ}
    (hx : x ∈ s.opened) : handOver s.wm x = -1 ∨ handOver s.wm x ∈ s.opened := by
  simp only [handOver]
  split
  · exact h.prev_mem hx
  · exact Or.inl rfl

theorem step_returns (h : Invariant s) (ha : Admissible s c) (hg : KeepsList s c) :
    ∃ t, step scr s c = .ok t := by
  obtain ⟨l, hl⟩ := h.threads
  have hr := h.sane.ranged
  cases c with
  | createWindow p w title =>
    rcases findNextAvailableWindowId_cases s.wm with ⟨hx, _⟩ | ⟨hx, _⟩
    · exact bind_returns (createWindow_full hx) ⟨_, rfl⟩
    · exact bind_returns (createWindow_eq hr.tail hx) ⟨_, rfl⟩
  | closeWindow p w =>
    exact bind_returns (closeWindow_eq hr (hl.inBounds_opened ha)) ⟨_, rfl⟩
  | minimizeWindow p w =>
    have hs := hl.focusSafe (handOver_opened hl ha)
    exact bind_returns (minimizeWindow_safe hr (hl.inBounds_opened ha) hs) ⟨_, rfl⟩
  | maximizeWindow p w =>
    have hs := hl.focusSafe (Or.inr ha)
    exact bind_returns (maximizeWindow_safe hr (hl.inBounds_opened ha) hs) ⟨_, rfl⟩
  | getMessage p x =>
    have hx := hl.inBounds_opened ha
    by_cases hp : s.wm.windowlist.proc x = some p
    · exact bind_returns (sysGetMessage_owner hx hp) ⟨_, rfl⟩
    · exact bind_returns (sysGetMessage_other hx hp) ⟨_, rfl⟩
  | createPopupWindow p w caller => exact ⟨_, rfl⟩
  | closePopupWindow p w => exact ⟨_, rfl⟩
  | getPopupMessage p => exact ⟨_, rfl⟩
  | turnoffScreen p =>
    obtain ⟨wm, hwm, _⟩ : Delivers (turnoffScreen s.wm) s.wm :=
      traversal_delivers hr (traverse_linked hr hl.linked) fun t p hp => dispatchTo_delivers t hp _
    exact bind_returns (hwm) ⟨_, rfl⟩
  | wmHandleMessage m =>
    obtain ⟨wm, hwm⟩ := @message_returns scr s m h hg
    exact bind_returns (hwm) ⟨_, rfl⟩

theorem step_invariant (h : Invariant s) (ha : Admissible s c) (hg : KeepsList s c)
    (ht : step scr s c = .ok t) : Invariant t := by
  have hsane := step_sane h.sane ht
  obtain ⟨l, hl⟩ := h.threads
  have hclicked := h.clicked
  -- the focus moves among open windows, so the list stays empty or non-empty
  have htail : ∀ {k l'}, Threads k s.opened l' → (k.tail = -1 ↔ s.wm.windowlisttail = -1) :=
    fun hk => hk.tail_null.trans hl.tail_null.symm
  cases step_effect h.sane.ranged h.sane.desktop ht with
  | full => exact h
  | placed hx hfree =>
    exact ⟨hsane, ⟨_, hl.place hx hfree.2⟩, fun _ => hx.ne_neg⟩
  | @closed p w hx =>
    have hrel := hl.release ha hg
    refine ⟨hsane, ⟨_, hrel⟩, ?_⟩
    intro _ he
    have hhead : s.wm.windowlisthead ∈ s.opened.erase w.handler :=
      Finset.mem_erase.mpr ⟨Ne.symm hg, hl.head_mem fun hh =>
        Finset.ne_empty_of_mem ha (hl.tail_null.mp
          (hl.linked.tail_null.mpr (hl.linked.head_null.mp hh)))⟩
    exact Finset.ne_empty_of_mem hhead (hrel.tail_null.mp he)
  | minimized hx hs =>
    obtain ⟨l', hl'⟩ := hl.focus (handOver_opened hl ha)
    exact ⟨hsane, ⟨l', hl'⟩, fun hc => (htail hl').not.mpr (hclicked hc)⟩
  | maximized hx hs =>
    obtain ⟨l', hl'⟩ := hl.focus (Or.inr ha)
    exact ⟨hsane, ⟨l', hl'⟩, fun hc => (htail hl').not.mpr (hclicked hc)⟩
  | @message m x wm hreq hx hs hframe =>
    have hopen : x = -1 ∨ x ∈ s.opened := by
      rcases hreq with hreq | ⟨rfl, _⟩
      · exact Or.inr (request_opened hl hg hreq)
      · exact Or.inl rfl
    obtain ⟨l', hl'⟩ := hl.focus hopen
    refine ⟨hsane, ⟨l', hframe.links ▸ hl'⟩, ?_⟩
    intro hc
    have hne : (focused (links s.wm) x).tail ≠ -1 := by
      rcases hframe.clicked hc with hc | hn
      · exact (htail hl').not.mpr (hclicked hc)
      · exact hn
    exact hframe.tail ▸ hne
  | quiet hq hsame hopened =>
    refine ⟨hsane, ⟨l, by rw [hsame.links, hopened]; exact hl⟩, ?_⟩
    intro hc
    have htl : t.wm.windowlisttail = s.wm.windowlisttail := congrArg Links.tail hsame.links
    rw [htl]
    exact (hsame.clicked hc).elim hclicked id

theorem WellFormed.tail_opened (h : WellFormed t) (ht : t.wm.windowlisttail ≠ -1) :
    t.wm.windowlisttail ∈ t.opened := by
  obtain ⟨l, hl, _⟩ := h
  exact hl.tail_mem ht

theorem WellFormed.head_opened (h : WellFormed t) (hh : t.wm.windowlisthead ≠ -1) :
    t.wm.windowlisthead ∈ t.opened := by
  obtain ⟨l, hl, _⟩ := h
  exact hl.head_mem hh

/-- A press that hits no window goes to the desktop, listed or not. -/
theorem target_desktop {l : List ℤ} (h : Threads (links s.wm) s.opened l)
    (hno : ∀ w ∈ s.opened, ¬OnWindow s.wm w) {x : ℤ} (hx : MouseTarget s.wm x) :
    x = s.wm.desktopId := by
  obtain ⟨visited, q, hpath, rfl⟩ := hx
  apply if_pos
  by_contra hne
  exact hno q ((search_opened h hpath).2.resolve_left hne) (hpath.stopped.resolve_left hne)

theorem press_breaks (h : Invariant s) {m : Message} (hm : m.msgType = .mouseDown)
    (hp : ¬OnPopup s.wm) (hd : s.wm.desktopId ∉ s.opened)
    (hno : ∀ w ∈ s.opened, ¬OnWindow s.wm w) (ht : step scr s (.wmHandleMessage m) = .ok t) :
    ¬WellFormed t := by
  obtain ⟨l, hl⟩ := h.threads
  obtain ⟨w, hw⟩ := MouseTarget.of_listEnds (listEnds_of_linked hl.linked)
  obtain ⟨wm, hwm, hstep⟩ := bind_eq_ok.mp ht
  cases hstep
  have hin := messageInBounds_of_ok h.sane.ranged h.sane.desktop hwm
  simp only [MessageInBounds, hm] at hin
  obtain ⟨x, hreq, hx, hs, hframe⟩ := wmHandleMessage_ok h.sane.ranged h.sane.desktop hwm
  simp only [FocusRequest, hm] at hreq
  have hxt : MouseTarget s.wm x := by
    rcases hreq with hreq | ⟨_, hnone⟩
    · exact hreq.2
    · exact absurd ⟨hp, hw⟩ (hnone w)
  have hxd := target_desktop hl hno hxt
  intro hwf
  by_cases hn : s.wm.desktopId = -1
  · have htail := hl.tail_null.mpr (h.sane.fresh hn)
    exact (hin.resolve_left hp x hxt).2 (hxd.trans hn) htail
  · have htail : wm.windowlisttail = s.wm.desktopId :=
      hframe.tail.trans ((focused_tail (hxd ▸ hn)).trans hxd)
    have hopen := hwf.tail_opened (htail ▸ hn : wm.windowlisttail ≠ -1)
    rw [show wm.windowlisttail = s.wm.desktopId from htail] at hopen
    exact hd hopen

theorem key_breaks (h : Invariant s) {m : Message} (hm : m.msgType = .keyDown ∨ m.msgType = .keyUp)
    (hno : s.opened = ∅) : step scr s (.wmHandleMessage m) ≠ .ok t := by
  obtain ⟨l, hl⟩ := h.threads
  intro ht
  obtain ⟨wm, hwm, _⟩ := bind_eq_ok.mp ht
  have hin := messageInBounds_of_ok h.sane.ranged h.sane.desktop hwm
  have htail := hl.tail_null.mpr hno
  rcases hm with hm | hm
  · simp only [MessageInBounds, hm] at hin
    exact hin htail
  · simp only [MessageInBounds, hm] at hin
    exact hin htail

theorem step_breaks (h : Invariant s) (hg : ¬KeepsList s c) (ht : step scr s c = .ok t) :
    ¬WellFormed t := by
  obtain ⟨l, hl⟩ := h.threads
  cases c with
  | closeWindow p w =>
    have hhead : w.handler = s.wm.windowlisthead := not_not.mp hg
    cases step_effect h.sane.ranged h.sane.desktop ht with
    | closed hx =>
      intro hwf
      have hopen := hwf.head_opened (show s.wm.windowlisthead ≠ -1 from hhead ▸ hx.ne_neg)
      exact (Finset.mem_erase.mp hopen).1 hhead.symm
    | quiet hq => cases hq
  | wmHandleMessage m =>
    cases hm : m.msgType with
    | keyDown =>
      simp only [KeepsList, hm, Finset.not_nonempty_iff_eq_empty] at hg
      exact absurd ht (key_breaks h (Or.inl hm) hg)
    | keyUp =>
      simp only [KeepsList, hm, Finset.not_nonempty_iff_eq_empty] at hg
      exact absurd ht (key_breaks h (Or.inr hm) hg)
    | mouseDown =>
      simp only [KeepsList, hm, not_or, not_exists, not_and] at hg
      exact press_breaks h hm hg.1 hg.2.1 hg.2.2 ht
    | _ => simp [KeepsList, hm] at hg
  | _ => exact absurd trivial hg

/-- A run on handles of open windows keeps the list well formed exactly as long as it closes
no window at the head, presses no mouse button where only an unlisted desktop answers, and
hits no key while no window is open. -/
theorem window_list_stays_iff (scr : Screen) (calls : List Call)
    (ha : Along (step scr) Admissible (start scr) calls) :
    Stays (step scr) WellFormed (start scr) calls ↔
      Along (step scr) KeepsList (start scr) calls := by
  refine stays_iff (fun _ => Invariant.wellFormed) ?_
    (fun s c t hs hac hg ht => step_invariant hs hac hg ht) (start_invariant scr) ha
  intro s c hs hac
  constructor
  · rintro ⟨t, ht, hwf⟩
    by_contra hg
    exact step_breaks hs hg ht hwf
  · intro hg
    obtain ⟨t, ht⟩ := step_returns hs hac hg
    exact ⟨t, ht, (step_invariant hs hac hg ht).wellFormed⟩

/-- A press on no window brings the desktop to the front, and then the other window, now at
the head, is closed. -/
def pressThenClose : List Call :=
  twoWindows ++ [.wmHandleMessage (newmsg .mouseDown), .closeWindow 1 (appWindow 1)]

theorem pressThenClose_admissible :
    Along (step desktopScreen) Admissible (start desktopScreen) pressThenClose := by
  refine Along.append ⟨trivial, fun _ _ => ⟨trivial, fun _ _ => trivial⟩⟩ ?_
  intro t ht
  refine ⟨trivial, fun u hu => ⟨?_, fun _ _ => trivial⟩⟩
  obtain ⟨v, hv, hopen⟩ := execution_of_map (step desktopScreen) (start desktopScreen)
    (twoWindows ++ [.wmHandleMessage (newmsg .mouseDown)]) (fun s => decide (1 ∈ s.opened))
    (b := true) (by decide +kernel)
  cases (ht.append (.cons hu (.nil u))).unique hv
  have hmem : (1 : ℤ) ∈ u.opened := of_decide_eq_true hopen
  exact hmem

/-- The stale head makes every traversal of the list endless. -/
theorem close_head_breaks_list :
    ¬∀ (scr : Screen) (calls : List Call), Along (step scr) Admissible (start scr) calls →
      Stays (step scr) WellFormed (start scr) calls := by
  intro h
  obtain ⟨s, hs, hround⟩ := execution_of_map (step desktopScreen) (start desktopScreen)
    pressThenClose (fun s => decide (traverse s.wm = .error .diverges)) (b := true)
    (by decide +kernel)
  obtain ⟨l, _, hl⟩ := (h desktopScreen pressThenClose pressThenClose_admissible).visits.last hs
  cases hl.symm.trans (of_decide_eq_true hround)

theorem window_list_stays_two_windows :
    Stays (step desktopScreen) WellFormed (start desktopScreen)
      (twoWindows ++ [.closeWindow 1 (appWindow 1)]) := by
  have hfacts : ∀ t, Execution (step desktopScreen) (start desktopScreen) twoWindows t →
      1 ∈ t.opened ∧ t.wm.windowlisthead = 0 := fun t ht => by
    obtain ⟨u, hu, hf⟩ := execution_of_map (step desktopScreen) (start desktopScreen) twoWindows
      (fun s => (decide (1 ∈ s.opened), s.wm.windowlisthead)) (b := (true, 0)) (by decide +kernel)
    cases ht.unique hu
    obtain ⟨hopen, hhead⟩ := Prod.mk.inj hf
    exact ⟨of_decide_eq_true hopen, hhead⟩
  refine (window_list_stays_iff desktopScreen _ ?_).mpr ?_
  · refine Along.append ⟨trivial, fun _ _ => ⟨trivial, fun _ _ => trivial⟩⟩ ?_
    intro t ht
    exact ⟨(hfacts t ht).1, fun _ _ => trivial⟩
  · refine Along.append ⟨trivial, fun _ _ => ⟨trivial, fun _ _ => trivial⟩⟩ ?_
    intro t ht
    refine ⟨?_, fun _ _ => trivial⟩
    change (1 : ℤ) ≠ t.wm.windowlisthead
    rw [(hfacts t ht).2]
    decide

end WindowListInvariant
