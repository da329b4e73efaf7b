import Xv6Gui.WidgetDispatch

/-!
# The widget with the key focus

A program that adds and removes widgets and dispatches messages with updateWindow. A handler
runs between its dispatch and its return, and whatever it does to the widgets comes in
between. Which widget has been clicked is remembered over the run of its handler.
-/
namespace KeyFocus

open WindowManagerState UserWidgets WidgetList WidgetDispatch LinkedSlots GuardedRuns

/-- A handler that has been called and not returned. -/
structure Handling where
  widget : ℤ
  clicked : Bool
  deriving DecidableEq, Repr

structure Session where
  program : Program
  handling : List Handling
  exited : Bool

inductive Event where
  | call (c : WidgetCall)
  | updateWindow (msg : Option Message)
  | handlerReturns

def Session.setWindow (s : Session) (win : UserWindow) : Session :=
  { s with program := { s.program with window := win } }

/-- `updateWindow` up to the first instruction of the handler, when `GUI_getMessage` has
delivered the message. -/
def receive (s : Session) (msg : Message) : Except Fault Session :=
  updateWindow s.program.window msg >>= fun d =>
    match d with
    | .closeWindow => .ok { s with exited := true }
    | .handler p _ _ clicked => .ok { s with handling := ⟨p, clicked⟩ :: s.handling }
    | .nothing | .minimizeWindow | .maximizeWindow => .ok s

/-- `updateWindow` after the handler: an input field that was clicked gets the key focus. -/
def focusClicked (win : UserWindow) (h : Handling) : UserWindow :=
  if h.clicked = true ∧ (win.widgets h.widget).type = .inputfield then
    { win with keyfocus := h.widget }
  else win

def running (s : Session) : Event → Except Fault Session
  | .call c => WidgetList.step s.program c >>= fun t => .ok { s with program := t }
  | .updateWindow none => .ok (s.setWindow { s.program.window with needsRepaint := 0 })
  | .updateWindow (some msg) =>
    receive (s.setWindow { s.program.window with needsRepaint := 1 }) msg
  | .handlerReturns =>
    match s.handling with
    | [] => .ok s
    | h :: hs => .ok { s.setWindow (focusClicked s.program.window h) with handling := hs }

def step (s : Session) (e : Event) : Except Fault Session :=
  if s.exited then .ok s else running s e

/-- No widget has the key focus, or one that is on the list. -/
def Focused (win : UserWindow) : Prop := win.keyfocus = -1 ∨ OnList win win.keyfocus

/-- The key focus and the handlers that it leads to are of widgets on the list. -/
structure FocusLive (win : UserWindow) : Prop where
  focused : Focused win
  handlers : ∀ msg p code m, updateWindow win msg = .ok (.handler p code m false) → OnList win p

/-- A slot number outside the array is not a widget. -/
def Admissible (_ : Session) : Event → Prop
  | .call (.removeWidget i) => InWidgets i
  | _ => True

/-- The widget with the key focus is not removed, and an input field that is clicked is still
on the list when its handler returns. -/
def KeepsFocus (s : Session) : Event → Prop
  | .call (.removeWidget i) => s.exited = false → i ≠ s.program.window.keyfocus
  | .handlerReturns => s.exited = false → ∀ h hs, s.handling = h :: hs → h.clicked = true →
    (s.program.window.widgets h.widget).type = .inputfield → OnList s.program.window h.widget
  | _ => True

def start (sysCreateWindow : Window → Window) (win : UserWindow) (windowBuf : ℕ) : Session :=
  ⟨WidgetList.start sysCreateWindow win windowBuf, [], false⟩

/-- What the search from the tail sees, wherever the head points. -/
structure Listed (win : UserWindow) (order : List ℤ) : Prop where
  linked : ∃ first, Linked (-1) ⟨win.next, win.prev, first, win.widgetlisttail⟩ order
  inWidgets : ∀ i ∈ order, InWidgets i
  free : ∀ i, InWidgets i → i ∉ order → Free win i

variable {win win' : UserWindow} {order : List ℤ} {c : WidgetCall} {p r : ℤ}

section Lists

theorem path_to {succ : ℤ → ℤ} {t q : ℤ} {l : List ℤ} (h : Path (· = -1) succ t l q)
    (hp : p ∈ l) : ∃ l', Path (· = p) succ t l' p ∧ ∀ i ∈ l', i ∈ l := by
  induction h with
  | done => cases hp
  | @visit t l q _ _ ih =>
    by_cases ht : t = p
    · subst ht
      exact ⟨[], .done rfl, by simp⟩
    · obtain ⟨l', hpath, hl⟩ := ih ((List.mem_cons.mp hp).resolve_left (Ne.symm ht))
      refine ⟨t :: l', .visit ht hpath, ?_⟩
      intro i hi
      rcases List.mem_cons.mp hi with rfl | hi
      · exact List.mem_cons_self
      · exact List.mem_cons_of_mem t (hl i hi)

theorem Listed.tail_mem (h : Listed win order) :
    win.widgetlisttail = -1 ∨ win.widgetlisttail ∈ order := by
  obtain ⟨first, hl⟩ := h.linked
  by_cases hne : order = []
  · exact Or.inl (hl.tail_null.mpr hne)
  · exact Or.inr (hl.tail_mem hne)

theorem Listed.mem_of_path (h : Listed win order) {stop : ℤ → Prop} {t : ℤ} {l : List ℤ}
    (hpath : Path stop win.prev t l p) (hl : ∀ i ∈ l, InWidgets i) (hp : InWidgets p)
    (ht : t = -1 ∨ t ∈ order) : p ∈ order := by
  obtain ⟨first, hlinked⟩ := h.linked
  induction hpath with
  | done => exact ht.resolve_left hp.ne_neg
  | @visit t l p _ _ ih =>
    have hmem := ht.resolve_left (hl t List.mem_cons_self).ne_neg
    refine ih (fun i hi => hl i (List.mem_cons_of_mem t hi)) hp ?_
    exact (hlinked.segment.prev_mem hmem).symm

theorem Listed.onList_iff (h : Listed win order) : OnList win p ↔ p ∈ order := by
  constructor
  · rintro ⟨hp, l, hpath, hin⟩
    exact h.mem_of_path hpath hin hp h.tail_mem
  · intro hp
    obtain ⟨first, hl⟩ := h.linked
    obtain ⟨l, hpath, hmem⟩ := path_to hl.backward (List.mem_reverse.mpr hp)
    exact ⟨h.inWidgets p hp, l, hpath,
      fun i hi => h.inWidgets i (List.mem_reverse.mp (hmem i hi))⟩

theorem Listed.congr (h : Listed win order) (hl : links win' = links win) : Listed win' order := by
  have hn : win'.next = win.next := congrArg Links.next hl
  have hp : win'.prev = win.prev := congrArg Links.prev hl
  have ht : win'.widgetlisttail = win.widgetlisttail := congrArg Links.tail hl
  refine ⟨?_, h.inWidgets, ?_⟩
  · rw [hn, hp, ht]
    exact h.linked
  · intro i hi hm
    rw [Free, hn, hp]
    exact h.free i hi hm

theorem Listed.tail (h : Listed win order) :
    win.widgetlisttail = -1 ∨ InWidgets win.widgetlisttail :=
  h.tail_mem.imp_right (h.inWidgets _)

/-- What the search sees does not depend on the head. -/
theorem Listed.append (h : Listed win order) (hr : InWidgets r) (hfree : Free win r)
    (hl : links win' = (links win).append (-1) r) : r ∉ order ∧ Listed win' (order ++ [r]) := by
  obtain ⟨first, hlinked⟩ := h.linked
  have hnew : r ∉ order := fun hm => hlinked.next_ne hm hfree.2
  have hn : win'.next = ((links win).append (-1) r).next := congrArg Links.next hl
  have hp : win'.prev = ((links win).append (-1) r).prev := congrArg Links.prev hl
  have ht : win'.widgetlisttail = r := congrArg Links.tail hl
  refine ⟨hnew, ⟨?_, ?_, ?_⟩⟩
  · rw [hn, hp, ht]
    exact ⟨_, hlinked.append hnew hr.ne_neg⟩
  · intro i hi
    rcases List.mem_append.mp hi with hi | hi
    · exact h.inWidgets i hi
    · rw [List.mem_singleton.mp hi]
      exact hr
  · intro i hi hm
    obtain ⟨hl, hne⟩ := not_or.mp (List.mem_append.not.mp hm)
    have hframe := hlinked.append_frame (x := r) hl (List.mem_singleton.not.mp hne)
    obtain ⟨hprev, hnext⟩ := h.free i hi hl
    rw [Free, hn, hp]
    exact ⟨hframe.1.trans hprev, hframe.2.trans hnext⟩

theorem Listed.release (h : Listed win order) {x : ℤ} (hx : x ∈ order)
    (hl : links win' = releaseWidget (links win) x) : Listed win' (order.erase x) := by
  obtain ⟨first, hlinked⟩ := h.linked
  have hn : win'.next = (releaseWidget (links win) x).next := congrArg Links.next hl
  have hp : win'.prev = (releaseWidget (links win) x).prev := congrArg Links.prev hl
  have ht : win'.widgetlisttail = (releaseWidget (links win) x).tail := congrArg Links.tail hl
  have hfresh : ∀ y ∈ order.erase x, y ≠ x := fun y hy => (hlinked.nodup.mem_erase_iff.mp hy).1
  refine ⟨⟨_, (hlinked.remove hx).congr ?_ ?_ rfl ?_⟩, ?_, ?_⟩
  · intro y hy
    rw [hn]
    exact Function.update_of_ne (hfresh y hy) _ _
  · intro y hy
    rw [hp]
    exact Function.update_of_ne (hfresh y hy) _ _
  · exact ht
  · exact fun i hi => h.inWidgets i (List.mem_of_mem_erase hi)
  · intro i hi hm
    rw [Free, hn, hp]
    by_cases hix : i = x
    · subst hix
      exact ⟨Function.update_self _ _ _, Function.update_self _ _ _⟩
    · have hl : i ∉ order := fun hl => hm (hlinked.nodup.mem_erase_iff.mpr ⟨hix, hl⟩)
      have hframe := hlinked.remove_frame hx hl
      obtain ⟨hprev, hnext⟩ := h.free i hi hl
      exact ⟨(Function.update_of_ne hix _ _).trans (hframe.1.trans hprev),
        (Function.update_of_ne hix _ _).trans (hframe.2.trans hnext)⟩

end Lists

section Calls

theorem addWidget_keyfocus (ht : win.widgetlisttail = -1 ∨ InWidgets win.widgetlisttail)
    (h : addWidget win = .ok (r, win')) : win'.keyfocus = win.keyfocus := by
  rcases findNextAvailable_cases win with ⟨hx, _⟩ | ⟨hx, _⟩
  · rw [addWidget_full hx] at h
    cases h
    rfl
  · rw [addWidget_eq rfl hx ht] at h
    cases h
    rfl

theorem addTypedWidget_keyfocus (ht : win.widgetlisttail = -1 ∨ InWidgets win.widgetlisttail)
    {context : WidgetBase} {type : WidgetType} {x y w h sc : ℤ} {handler : Handler}
    (ha : addTypedWidget win context type x y w h sc handler = .ok (r, win')) :
    win'.keyfocus = win.keyfocus := by
  obtain ⟨⟨i, w₁⟩, hadd, ha⟩ := bind_eq_ok.mp ha
  have hk := addWidget_keyfocus ht hadd
  dsimp only at ha
  split at ha
  · cases ha
    exact hk
  · cases ha
    exact hk

/-- A call gives the key focus to nothing but the widget that it adds. -/
theorem call_keyfocus (ht : win.widgetlisttail = -1 ∨ InWidgets win.widgetlisttail)
    (hc : ∀ i, c ≠ .removeWidget i) (h : call win c = .ok (r, win')) :
    win'.keyfocus = win.keyfocus ∨ (win'.keyfocus = r ∧ r ≠ -1) := by
  cases c with
  | removeWidget i => exact absurd rfl (hc i)
  | addRectangleWidget | addColorFillWidget | addButtonWidget | addTextWidget =>
    exact Or.inl (addTypedWidget_keyfocus ht h)
  | addInputFieldWidget =>
    obtain ⟨⟨i, w₁⟩, hadd, h⟩ := bind_eq_ok.mp h
    have hk := addTypedWidget_keyfocus ht hadd
    dsimp only at h
    split at h
    · cases h
      exact Or.inl hk
    · next hne =>
      cases h
      exact Or.inr ⟨rfl, hne⟩

theorem freeWidget_kept (win : UserWindow) {x : ℤ} (hx : InWidgets x) :
    ∃ w, freeWidget win x = .ok w ∧ links w = links win ∧ w.keyfocus = win.keyfocus := by
  rw [freeWidget, widgetIndex_ok hx, ok_bind]
  split <;> exact ⟨_, rfl, rfl, rfl⟩

theorem Listed.removeWidget (h : Listed win order) {x : ℤ} (hx : x ∈ order) :
    ∃ win', removeWidget win x = .ok (0, win') ∧ Listed win' (order.erase x) ∧
      win'.keyfocus = win.keyfocus := by
  obtain ⟨first, hl⟩ := h.linked
  have hin := h.inWidgets x hx
  have hbusy : ¬(win.prev x = x ∧ win.next x = x) := fun hf => hl.next_ne hx hf.2
  obtain ⟨w, hfree, hlinks, hkey⟩ := freeWidget_kept win hin
  have hn : w.next = win.next := congrArg Links.next hlinks
  have hp : w.prev = win.prev := congrArg Links.prev hlinks
  have ht : w.widgetlisttail = win.widgetlisttail := congrArg Links.tail hlinks
  have hrange : ∀ {i}, i ∈ order ∨ i = -1 → i = -1 ∨ InWidgets i :=
    fun hi => hi.symm.imp_right (h.inWidgets _)
  have hne : order ≠ [] := List.ne_nil_of_mem hx
  refine ⟨setLinks w (releaseWidget (links w) x), ?_, ?_, hkey⟩
  · rw [UserWidgets.removeWidget, widgetIndex_ok hin, ok_bind, if_neg hbusy, hfree, ok_bind,
      removeFromWidgetList_eq hin (by rw [hn]; exact hrange (hl.segment.next_mem hx))
        (by rw [hp]; exact hrange (hl.segment.prev_mem hx)) (by rw [hp]; exact hl.prev_ne hx)
        (by rw [ht]; exact h.inWidgets _ (hl.tail_mem hne)), ok_bind, pure_eq_ok]
  · exact h.release hx (by rw [← hlinks]; rfl)

theorem Listed.removeWidget_free (h : Listed win order) {x : ℤ} (hx : InWidgets x)
    (hout : x ∉ order) : UserWidgets.removeWidget win x = .ok (-1, win) := by
  have hfree : win.prev x = x ∧ win.next x = x := h.free x hx hout
  rw [UserWidgets.removeWidget, widgetIndex_ok hx, ok_bind, if_pos hfree, pure_eq_ok]

end Calls

structure Invariant (s : Session) : Prop where
  listed : Listed s.program.window s.program.order
  focused : Focused s.program.window
  handling : ∀ h ∈ s.handling, InWidgets h.widget

section Steps

variable {s t : Session} {e : Event}

theorem Listed.focused_iff (h : Listed win order) :
    Focused win ↔ win.keyfocus = -1 ∨ win.keyfocus ∈ order := by
  rw [Focused, h.onList_iff]

theorem step_add (h : Invariant s) (hc : ∀ i, c ≠ .removeWidget i) :
    ∃ t, WidgetList.step s.program c = .ok t ∧ Listed t.window t.order ∧ Focused t.window := by
  have horder : ∀ ret, recordOrder s.program.order ret c =
      if ret = -1 then s.program.order else s.program.order ++ [ret] := by
    intro ret
    cases c with
    | removeWidget i => exact absurd rfl (hc i)
    | _ => rfl
  rcases call_adds h.listed.tail hc with heq | ⟨win', hx, hfree, heq, hlinks⟩
  · refine ⟨s.program, ?_, h.listed, h.focused⟩
    rw [WidgetList.step, heq, ok_bind]
    dsimp only
    rw [horder, if_pos rfl]
    rfl
  · obtain ⟨-, hlisted⟩ := h.listed.append hx hfree hlinks
    refine ⟨⟨win', s.program.order ++ [findNextAvailable s.program.window]⟩, ?_, hlisted, ?_⟩
    · rw [WidgetList.step, heq, ok_bind]
      dsimp only
      rw [horder, if_neg hx.ne_neg]
      rfl
    · refine hlisted.focused_iff.mpr ?_
      rcases call_keyfocus h.listed.tail hc heq with hk | ⟨hk, -⟩
      · rw [hk]
        exact (h.listed.focused_iff.mp h.focused).imp_right (List.mem_append_left _)
      · rw [hk]
        exact Or.inr (by simp)

theorem step_remove (h : Invariant s) {x : ℤ} (hx : InWidgets x) :
    ∃ t, WidgetList.step s.program (.removeWidget x) = .ok t ∧ Listed t.window t.order ∧
      (Focused t.window ↔ x ≠ s.program.window.keyfocus) := by
  obtain ⟨first, hl⟩ := h.listed.linked
  have hfocus := h.listed.focused_iff.mp h.focused
  by_cases hmem : x ∈ s.program.order
  · obtain ⟨win', hret, hlisted, hk⟩ := h.listed.removeWidget hmem
    refine ⟨⟨win', s.program.order.erase x⟩, by rw [WidgetList.step, call, hret]; rfl, hlisted, ?_⟩
    rw [hlisted.focused_iff, hk, hl.nodup.mem_erase_iff]
    constructor
    · rintro (hn | ⟨hne, -⟩)
      · rw [hn]
        exact hx.ne_neg
      · exact Ne.symm hne
    · exact fun hne => hfocus.imp_right fun hm => ⟨Ne.symm hne, hm⟩
  · have hret := h.listed.removeWidget_free hx hmem
    refine ⟨s.program, by rw [WidgetList.step, call, hret]; rfl, h.listed, ?_⟩
    refine iff_of_true h.focused ?_
    rintro rfl
    rcases hfocus with hn | hm
    · exact hx.ne_neg hn
    · exact hmem hm

theorem findWidget_listed (h : Listed win order) (x y : ℤ) :
    ∃ q, findWidget win x y maxWidgetSize win.widgetlisttail = .ok q ∧ (q = -1 ∨ InWidgets q) := by
  obtain ⟨first, hl⟩ := h.linked
  have hin : ∀ i ∈ order.reverse, InWidgets i :=
    fun i hi => h.inWidgets i (List.mem_reverse.mp hi)
  have hlen := length_le_widgets (List.nodup_reverse.mpr hl.nodup) hin
  have hf := findWidget_of_list (x := x) (y := y) hl.backward hin hlen
  exact ⟨_, hf, (path_of_findWidget hf).2⟩

/-- Every message is received, and a handler that is called is that of a widget. -/
theorem updateWindow_handles (hl : Listed win order) (hf : Focused win) (msg : Message) :
    ∃ d, updateWindow win msg = .ok d ∧
      ∀ p code m clicked, d = .handler p code m clicked → InWidgets p := by
  obtain ⟨q, hq, hin⟩ := findWidget_listed hl (msg.param 0) (msg.param 1)
  rw [updateWindow, hq]
  split
  · exact ⟨_, rfl, by rintro p code m clicked ⟨⟩⟩
  split
  · exact ⟨_, rfl, by rintro p code m clicked ⟨⟩⟩
  split
  · exact ⟨_, rfl, by rintro p code m clicked ⟨⟩⟩
  split
  · next hkey =>
    have hk := hl.inWidgets _ ((hl.focused_iff.mp hf).resolve_left hkey.1)
    rw [widgetIndex_ok hk]
    refine ⟨_, rfl, ?_⟩
    rintro p code m clicked ⟨⟩
    exact hk
  · rw [ok_bind]
    split
    · exact ⟨_, rfl, by rintro p code m clicked ⟨⟩⟩
    · next hne =>
      have hp := hin.resolve_left hne
      split
      · refine ⟨_, rfl, ?_⟩
        rintro p code m clicked ⟨⟩
        exact hp
      · refine ⟨_, rfl, ?_⟩
        rintro p code m clicked ⟨⟩
        exact hp

theorem receive_eq (h : Invariant s) (msg : Message) :
    ∃ t, receive s msg = .ok t ∧ t.program = s.program ∧ ∀ k ∈ t.handling, InWidgets k.widget := by
  obtain ⟨d, hd, hp⟩ := updateWindow_handles h.listed h.focused msg
  rw [receive, hd, ok_bind]
  cases d with
  | handler p code m clicked =>
    refine ⟨_, rfl, rfl, ?_⟩
    intro k hk
    rcases List.mem_cons.mp hk with rfl | hk
    · exact hp p code m clicked rfl
    · exact h.handling k hk
  | closeWindow => exact ⟨_, rfl, rfl, h.handling⟩
  | nothing | minimizeWindow | maximizeWindow => exact ⟨_, rfl, rfl, h.handling⟩

theorem focusClicked_links (win : UserWindow) (k : Handling) :
    links (focusClicked win k) = links win := by
  rw [focusClicked]
  split <;> rfl

theorem focusClicked_focused_iff (hl : Listed win order) (hf : Focused win) {k : Handling}
    (hk : InWidgets k.widget) : Focused (focusClicked win k) ↔
      (k.clicked = true → (win.widgets k.widget).type = .inputfield → OnList win k.widget) := by
  have hl' : Listed (focusClicked win k) order := hl.congr (focusClicked_links win k)
  rw [hl'.focused_iff, hl.onList_iff, focusClicked]
  split
  · next hc =>
    constructor
    · exact fun h _ _ => h.resolve_left hk.ne_neg
    · exact fun h => Or.inr (h hc.1 hc.2)
  · next hc =>
    exact iff_of_true (hl.focused_iff.mp hf) fun h₁ h₂ => absurd ⟨h₁, h₂⟩ hc

/-- A step is taken, and keeps the key focus right exactly under its condition. -/
theorem step_focused_iff (h : Invariant s) (ha : Admissible s e) :
    ∃ t, step s e = .ok t ∧ Listed t.program.window t.program.order ∧
      (∀ k ∈ t.handling, InWidgets k.widget) ∧ (Focused t.program.window ↔ KeepsFocus s e) := by
  rw [step]
  by_cases hx : s.exited = true
  · rw [if_pos hx]
    refine ⟨s, rfl, h.listed, h.handling, iff_of_true h.focused ?_⟩
    unfold KeepsFocus
    split
    · exact fun hr => absurd (hx.symm.trans hr) (by decide)
    · exact fun hr => absurd (hx.symm.trans hr) (by decide)
    · trivial
  rw [if_neg hx]
  have hrun : s.exited = false := Bool.eq_false_iff.mpr hx
  cases e with
  | call c =>
    have hadd : (∀ i, c ≠ .removeWidget i) → ∃ t, running s (.call c) = .ok t ∧
        Listed t.program.window t.program.order ∧ (∀ k ∈ t.handling, InWidgets k.widget) ∧
        Focused t.program.window := by
      intro hc
      obtain ⟨t, ht, hlisted, hfocused⟩ := step_add h hc
      exact ⟨{ s with program := t }, by rw [running, ht, ok_bind], hlisted, h.handling, hfocused⟩
    cases c with
    | removeWidget i =>
      obtain ⟨t, ht, hlisted, hiff⟩ := step_remove h ha
      refine ⟨{ s with program := t }, by rw [running, ht, ok_bind], hlisted, h.handling, ?_⟩
      rw [hiff]
      exact ⟨fun hne _ => hne, fun hk => hk hrun⟩
    | _ =>
      obtain ⟨t, ht, hlisted, hhandling, hfocused⟩ := hadd (by rintro i ⟨⟩)
      exact ⟨t, ht, hlisted, hhandling, iff_of_true hfocused trivial⟩
  | updateWindow msg =>
    have hrepaint : ∀ n, Invariant (s.setWindow { s.program.window with needsRepaint := n }) :=
      fun n => ⟨h.listed.congr rfl, h.focused, h.handling⟩
    cases msg with
    | none =>
      exact ⟨_, rfl, (hrepaint 0).listed, h.handling, iff_of_true (hrepaint 0).focused trivial⟩
    | some msg =>
      obtain ⟨t, ht, hp, hhandling⟩ := receive_eq (hrepaint 1) msg
      refine ⟨t, ht, ?_, hhandling, iff_of_true ?_ trivial⟩
      · rw [hp]
        exact (hrepaint 1).listed
      · rw [hp]
        exact (hrepaint 1).focused
  | handlerReturns =>
    simp only [running]
    cases hs : s.handling with
    | nil =>
      refine ⟨s, rfl, h.listed, h.handling, iff_of_true h.focused ?_⟩
      intro _ k ks hk
      rw [hs] at hk
      cases hk
    | cons k ks =>
      have hk := h.handling k (by rw [hs]; exact List.mem_cons_self)
      refine ⟨_, rfl, h.listed.congr (focusClicked_links _ _), ?_, ?_⟩
      · intro j hj
        exact h.handling j (by rw [hs]; exact List.mem_cons_of_mem k hj)
      · refine (focusClicked_focused_iff h.listed h.focused hk).trans ?_
        constructor
        · intro hf _ j js hj
          rw [hs] at hj
          cases hj
          exact hf
        · exact fun hf => hf hrun k ks hs

theorem start_invariant (sysCreateWindow : Window → Window) (win : UserWindow) {windowBuf : ℕ}
    (hbuf : windowBuf ≠ 0) : Invariant (start sysCreateWindow win windowBuf) where
  listed := by
    rw [start, WidgetList.start, createWindow, if_neg hbuf]
    refine ⟨⟨-1, ⟨rfl, rfl⟩, List.nodup_nil, by simp⟩, by simp, ?_⟩
    exact fun i hi _ => ⟨if_pos hi, if_pos hi⟩
  focused := by
    rw [start, WidgetList.start, createWindow, if_neg hbuf]
    exact Or.inl rfl
  handling := by simp [start]

end Steps

theorem Focused.live (h : Focused win) : FocusLive win := by
  refine ⟨h, ?_⟩
  intro msg p code m hu
  rw [updateWindow] at hu
  split at hu
  · cases hu
  split at hu
  · cases hu
  split at hu
  · cases hu
  split at hu
  · next hkey =>
    obtain ⟨q, hq, hu⟩ := bind_eq_ok.mp hu
    obtain ⟨-, rfl⟩ := widgetIndex_eq_ok.mp hq
    cases hu
    exact h.resolve_left hkey.1
  · obtain ⟨q, -, hu⟩ := bind_eq_ok.mp hu
    split at hu
    · cases hu
    · split at hu <;> cases hu

/-- The key focus is on a widget of the list exactly as long as that widget is not removed and
no clicked input field is removed by its own handler. -/
theorem key_focus_stays_iff (sysCreateWindow : Window → Window) (win : UserWindow)
    (windowBuf : ℕ) (hbuf : windowBuf ≠ 0) (events : List Event)
    (ha : Along step Admissible (start sysCreateWindow win windowBuf) events) :
    Stays step (fun s => FocusLive s.program.window) (start sysCreateWindow win windowBuf) events ↔
      Along step KeepsFocus (start sysCreateWindow win windowBuf) events := by
  refine stays_iff (fun _ h => h.focused.live) ?_ ?_ (start_invariant sysCreateWindow win hbuf) ha
  · intro s e h hadm
    obtain ⟨t, ht, -, -, hiff⟩ := step_focused_iff h hadm
    rw [← hiff]
    constructor
    · rintro ⟨u, hu, hf⟩
      rw [ht] at hu
      cases hu
      exact hf.focused
    · exact fun hf => ⟨t, ht, hf.live⟩
  · intro s e t h hadm hg ht
    obtain ⟨u, hu, hlisted, hhandling, hiff⟩ := step_focused_iff h hadm
    rw [ht] at hu
    cases hu
    exact ⟨hlisted, hiff.mpr hg, hhandling⟩

/-- An input field that fills the window, and a key for it. -/
def inputField : Event := .call (.addInputFieldWidget black [104, 105] 0 0 200 200 0 0)

theorem key_focus_stays_typing : Stays step (fun s => FocusLive s.program.window)
    (start (fun w => { w with handler := 1 }) emptyWindow 4096)
    [inputField, .updateWindow (some (keyMsg 97)), inputField] := by
  refine (key_focus_stays_iff _ _ _ (by decide) _ ?_).mpr ?_
  · exact ⟨trivial, fun _ _ => ⟨trivial, fun _ _ => ⟨trivial, fun _ _ => trivial⟩⟩⟩
  · exact ⟨trivial, fun _ _ => ⟨trivial, fun _ _ => ⟨trivial, fun _ _ => trivial⟩⟩⟩

/-- The field is removed, and the next key is for a slot that is not on the list. -/
theorem removed_widget_keeps_focus : ¬∀ (sysCreateWindow : Window → Window) (win : UserWindow)
    (windowBuf : ℕ), windowBuf ≠ 0 → ∀ events,
      Along step Admissible (start sysCreateWindow win windowBuf) events →
        Stays step (fun s => FocusLive s.program.window) (start sysCreateWindow win windowBuf)
          events := by
  intro h
  have hadm : Along step Admissible (start (fun w => { w with handler := 1 }) emptyWindow 4096)
      [inputField, .call (.removeWidget 0)] :=
    ⟨trivial, fun _ _ => ⟨by change InWidgets 0; decide, fun _ _ => trivial⟩⟩
  have hstays := h (fun w => { w with handler := 1 }) emptyWindow 4096 (by decide) _ hadm
  obtain ⟨s, hs, hf⟩ := execution_of_map step
    (start (fun w => { w with handler := 1 }) emptyWindow 4096)
    [inputField, .call (.removeWidget 0)]
    (fun s => (s.program.window.keyfocus, s.program.window.widgetlisttail)) (b := (0, -1))
    (by decide +kernel)
  obtain ⟨hkey, htail⟩ := Prod.mk.inj hf
  rcases (hstays.visits.last hs).focused with hn | ⟨-, l, hpath, hl⟩
  · rw [hkey] at hn
    exact absurd hn (by decide)
  · rw [hkey, htail] at hpath
    cases hpath with
    | visit _ _ => exact absurd (hl (-1) List.mem_cons_self) (by decide)

end KeyFocus
