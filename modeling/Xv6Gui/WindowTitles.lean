import Xv6Gui.WindowFrames
import Xv6Gui.WindowListInvariant
import Mathlib.Data.List.GetD

/-!
# Titles

createWindow copies the characters of a title into the slot and leaves the terminator to the
zeros that are there: those of the boot, or of the closeWindow that freed the slot. A ghost
record keeps the title that each open window was given.
-/
namespace WindowTitles

open WindowManagerState WindowManager WindowManagerSteps WindowSessions WindowFrames
open WindowListInvariant LinkedSlots GuardedRuns

/-- A title field. -/
abbrev Field := Fin maxTitleLen → UInt8

def zeros : Field := fun _ => 0

/-- The field holds a terminated string that is the title or, if the title is too long, a
beginning of it, and no other bytes. -/
def HoldsTitle (field : Field) (title : List UInt8) : Prop :=
  ∃ n, n < maxTitleLen ∧ n ≤ title.length ∧ (title.length < maxTitleLen → n = title.length) ∧
    ∀ k : Fin maxTitleLen, field k = if k.val < n then title.getD k 0 else 0

structure Titled where
  session : Session
  given : ℤ → List UInt8

variable (scr : Screen)

def start : Titled := ⟨WindowSessions.start scr, fun _ => []⟩

/-- A window that is placed is given the title of the call. -/
def record (s : Titled) : Call → ℤ → List UInt8
  | .createWindow _ _ title =>
    Function.update s.given (findNextAvailableWindowId s.session.wm) title
  | _ => s.given

def step (s : Titled) (c : Call) : Except Fault Titled := do
  let t ← WindowSessions.step scr s.session c
  return ⟨t, record s c⟩

def fieldOf (s : Wm) (i : ℤ) : Field := (s.windowlist.wnd i).title

/-- Every open window's field holds the title that the window was given. -/
def TitlesKept (s : Titled) : Prop :=
  ∀ i ∈ s.session.opened, HoldsTitle (fieldOf s.session.wm i) (s.given i)

/-- createWindow with a C string, closeWindow, and the calls that leave the list alone. -/
inductive TitleCall : Call → Prop where
  | createWindow (p w title) : 0 ∉ title → TitleCall (.createWindow p w title)
  | closeWindow (p w) : TitleCall (.closeWindow p w)
  | quiet {c} : Quiet c → TitleCall c

def WritesTitle : Call → Prop
  | .createWindow _ _ _ | .closeWindow _ _ => True
  | _ => False

/-- A title for which there is a slot leaves room for its terminator. -/
def TitleFits (s : Titled) : Call → Prop
  | .createWindow _ _ title =>
    findNextAvailableWindowId s.session.wm ≠ -1 → title.length < maxTitleLen
  | _ => True

instance (s : Titled) : (c : Call) → Decidable (TitleFits s c)
  | .createWindow _ _ _ => inferInstanceAs (Decidable (_ → _))
  | .closeWindow _ _ | .minimizeWindow _ _ | .maximizeWindow _ _ | .getMessage _ _
  | .createPopupWindow _ _ _ | .closePopupWindow _ _ | .getPopupMessage _ | .turnoffScreen _
  | .wmHandleMessage _ => inferInstanceAs (Decidable True)

section Fields

variable {title : List UInt8}

theorem copyTitle_zeros (k : Fin maxTitleLen) : copyTitle zeros title k = title.getD k 0 := by
  rw [copyTitle, List.getD_eq_getElem?_getD]
  rfl

/-- A title that fits is terminated by the zero behind it, any other has no terminator. -/
theorem copyTitle_holds_iff (h0 : 0 ∉ title) :
    HoldsTitle (copyTitle zeros title) title ↔ title.length < maxTitleLen := by
  constructor
  · rintro ⟨n, hn, hle, -, hfield⟩
    by_contra hlong
    have hlast := hfield ⟨49, by decide⟩
    have hlt : 49 < title.length := by
      change ¬title.length < 50 at hlong
      omega
    have hend : ¬49 < n := by
      change n < 50 at hn
      omega
    rw [copyTitle_zeros, if_neg hend, List.getD_eq_getElem _ _ hlt] at hlast
    exact h0 (hlast ▸ List.getElem_mem hlt)
  · intro hlt
    refine ⟨title.length, hlt, Nat.le_refl _, fun _ => rfl, ?_⟩
    intro k
    rw [copyTitle_zeros]
    split
    case isTrue => rfl
    case isFalse hk => exact List.getD_eq_default _ _ (not_lt.mp hk)

end Fields

section Lists

variable {k : Links ℤ} {opened : Finset ℤ} {x : ℤ}

/-- The open windows are those on the list, and the other slots are free. The head is that of
the list or a slot that was closed at the head. -/
def Listed (k : Links ℤ) (opened : Finset ℤ) : Prop :=
  ∃ head l, Threads { k with head := head } opened l

theorem Listed.place (h : Listed k opened) (hx : InBounds x) (hfree : k.next x = x) (head : ℤ) :
    Listed (linkLast { k with head := head } x) (insert x opened) := by
  obtain ⟨first, l, hl⟩ := h
  exact ⟨_, _, hl.place hx hfree⟩

/-- The links of a free slot do not change when it is closed again. -/
theorem release_free (hp : k.prev x = x) (hn : k.next x = x) (hx : x ≠ -1) (ht : x ≠ k.tail) :
    release k x = k := by
  have hnext : Function.update k.next x x = k.next := by
    nth_rewrite 2 [← hn]
    exact Function.update_eq_self x k.next
  have hprev : Function.update k.prev x x = k.prev := by
    nth_rewrite 2 [← hp]
    exact Function.update_eq_self x k.prev
  simp only [release, unlink, Links.remove, hp, hn, if_neg hx, if_neg ht, hnext, hprev]

theorem Listed.release (h : Listed k opened) (hx : InBounds x) :
    Listed (release k x) (opened.erase x) := by
  obtain ⟨head, l, hl⟩ := h
  by_cases hmem : x ∈ opened
  · exact ⟨_, _, hl.remove hmem⟩
  · have hfresh : x ∉ l := fun h => hmem ((hl.members x).mp h)
    obtain ⟨hp, hn⟩ := hl.free x hx hfresh
    have htail : x ≠ k.tail := by
      intro ht
      have hmem := hl.tail_mem (ht ▸ hx.ne_neg)
      exact hfresh ((hl.members x).mpr (ht ▸ hmem))
    have hsame : WindowManagerSteps.release k x = k := release_free hp hn hx.ne_neg htail
    rw [hsame, Finset.erase_eq_of_notMem hmem]
    exact ⟨head, l, hl⟩

theorem Listed.fresh (h : Listed k opened) (hfree : k.next x = x) : x ∉ opened := by
  obtain ⟨head, l, hl⟩ := h
  intro hx
  exact hl.fresh hfree ((hl.members x).mpr hx)

theorem Listed.inBounds (h : Listed k opened) (hx : x ∈ opened) : InBounds x := by
  obtain ⟨head, l, hl⟩ := h
  exact hl.inBounds_opened hx

end Lists

section Steps

variable {scr} {s t : Titled} {p : ProcId} {w : Window} {title : List UInt8} {c : Call}

theorem fieldOf_blind : BlindToFlags fieldOf where
  links _ _ := rfl
  wnd s i f hf := by
    funext j
    by_cases hj : j = i
    · subst hj
      simp [fieldOf, updateWnd, hf]
    · simp [fieldOf, updateWnd, hj]
  popup _ _ := rfl
  cursor _ _ _ _ := rfl
  flags _ _ _ _ := rfl

theorem fieldOf_placeWindow (s : Wm) (x : ℤ) :
    fieldOf (placeWindow scr s x p w title) =
      Function.update (fieldOf s) x (copyTitle (fieldOf s x) title) := by
  funext j
  by_cases hj : j = x
  · subst hj
    simp [fieldOf, placeWindow, updateWnd, setLinks]
  · simp [fieldOf, placeWindow, updateWnd, setLinks, hj]

theorem fieldOf_closed (s : Wm) (k : Links ℤ) (x : ℤ) :
    fieldOf (updateWnd (setLinks s k) x blankWindow) = Function.update (fieldOf s) x zeros := by
  funext j
  by_cases hj : j = x
  · subst hj
    rw [Function.update_self]
    simp only [fieldOf, updateWnd, setLinks, Function.update_self]
    rfl
  · simp [fieldOf, updateWnd, setLinks, hj]

theorem step_eq_ok : step scr s c = .ok t ↔
    WindowSessions.step scr s.session c = .ok t.session ∧ t.given = record s c := by
  constructor
  · intro h
    obtain ⟨u, hu, h⟩ := bind_eq_ok.mp h
    cases h
    exact ⟨hu, rfl⟩
  · rintro ⟨hu, hg⟩
    rw [step, hu, ok_bind, ← hg]
    rfl

/-- What is true of every run of these calls whose titles fit. -/
structure Invariant (s : Titled) : Prop where
  sane : Sane s.session
  listed : Listed (links s.session.wm) s.session.opened
  cleared : ∀ i, i ∉ s.session.opened → fieldOf s.session.wm i = zeros
  kept : TitlesKept s

theorem start_invariant : Invariant (start scr) where
  sane := start_sane scr
  listed := by
    obtain ⟨l, hl⟩ := (WindowListInvariant.start_invariant scr).threads
    exact ⟨_, l, hl⟩
  cleared _ _ := rfl
  kept i hi := absurd hi (Finset.notMem_empty i)

theorem createWindow_returns {s : Session} (hs : Sane s) (p : ProcId) (w : Window)
    (title : List UInt8) : ∃ t, WindowSessions.step scr s (.createWindow p w title) = .ok t := by
  rcases findNextAvailableWindowId_cases s.wm with ⟨hx, -⟩ | ⟨hx, -⟩
  · exact bind_returns (createWindow_full hx) ⟨_, rfl⟩
  · exact bind_returns (createWindow_eq hs.ranged.tail hx) ⟨_, rfl⟩

/-- createWindow finds no slot, or takes the first free one. -/
theorem createWindow_cases (hs : Sane s.session)
    (ht : step scr s (.createWindow p w title) = .ok t) :
    (findNextAvailableWindowId s.session.wm = -1 ∧ t.session = s.session) ∨
      InBounds (findNextAvailableWindowId s.session.wm) ∧
        Free s.session.wm (findNextAvailableWindowId s.session.wm) ∧
        t.session.wm = placeWindow scr s.session.wm (findNextAvailableWindowId s.session.wm) p w
          title ∧
        t.session.opened = insert (findNextAvailableWindowId s.session.wm) s.session.opened := by
  obtain ⟨hstep, -⟩ := step_eq_ok.mp ht
  rcases findNextAvailableWindowId_cases s.session.wm with ⟨hx, -⟩ | ⟨hx, hfree⟩
  · rw [WindowSessions.step, createWindow_full hx, ok_bind] at hstep
    exact .inl ⟨hx, (Except.ok.inj hstep).symm⟩
  · rw [WindowSessions.step, createWindow_eq hs.ranged.tail hx, ok_bind] at hstep
    have hsession := (Except.ok.inj hstep).symm
    exact .inr ⟨hx, hfree, congrArg Session.wm hsession, congrArg Session.opened hsession⟩

section Placed

variable {x : ℤ}

/-- The slot is clear when a window is placed in it, and no other title is written. -/
theorem placed_kept (h : Invariant s) (h0 : 0 ∉ title) (hx : x ∉ s.session.opened)
    (hwm : t.session.wm = placeWindow scr s.session.wm x p w title)
    (hopened : t.session.opened = insert x s.session.opened)
    (hgiven : t.given = Function.update s.given x title) :
    TitlesKept t ↔ title.length < maxTitleLen := by
  have hfield : fieldOf t.session.wm =
      Function.update (fieldOf s.session.wm) x (copyTitle zeros title) := by
    rw [hwm, fieldOf_placeWindow, h.cleared x hx]
  have hnew : HoldsTitle (fieldOf t.session.wm x) (t.given x) ↔ title.length < maxTitleLen := by
    rw [hfield, hgiven, Function.update_self, Function.update_self, copyTitle_holds_iff h0]
  constructor
  · intro hkept
    exact hnew.mp (hkept x (hopened ▸ Finset.mem_insert_self x _))
  · intro hlt i hi
    by_cases hix : i = x
    · subst hix
      exact hnew.mpr hlt
    · rw [hopened] at hi
      rw [hfield, hgiven, Function.update_of_ne hix, Function.update_of_ne hix]
      exact h.kept i (Finset.mem_of_mem_insert_of_ne hi hix)

theorem placed_cleared (h : Invariant s)
    (hwm : t.session.wm = placeWindow scr s.session.wm x p w title)
    (hopened : t.session.opened = insert x s.session.opened) (i : ℤ)
    (hi : i ∉ t.session.opened) : fieldOf t.session.wm i = zeros := by
  rw [hopened, Finset.mem_insert, not_or] at hi
  rw [hwm, fieldOf_placeWindow, Function.update_of_ne hi.1]
  exact h.cleared i hi.2

end Placed

/-- A closed window's field is cleared, listed or not. -/
theorem closeWindow_invariant (h : Invariant s) (ht : step scr s (.closeWindow p w) = .ok t) :
    Invariant t := by
  obtain ⟨hstep, hgiven⟩ := step_eq_ok.mp ht
  have hsane := step_sane h.sane hstep
  have hgiven : t.given = s.given := hgiven
  obtain ⟨u, given⟩ := t
  dsimp only at hstep hsane hgiven
  subst hgiven
  cases step_effect h.sane.ranged h.sane.desktop hstep with
  | quiet hq => cases hq
  | closed hx =>
    refine ⟨hsane, h.listed.release hx, ?_, ?_⟩
    · intro i hi
      change fieldOf (updateWnd _ _ _) i = zeros
      rw [fieldOf_closed]
      by_cases hix : i = w.handler
      · rw [hix, Function.update_self]
      · rw [Function.update_of_ne hix]
        exact h.cleared i fun hmem => hi (Finset.mem_erase.mpr ⟨hix, hmem⟩)
    · intro i hi
      obtain ⟨hix, hmem⟩ := Finset.mem_erase.mp hi
      change HoldsTitle (fieldOf (updateWnd _ _ _) i) _
      rw [fieldOf_closed, Function.update_of_ne hix]
      exact h.kept i hmem

/-- No other call writes a title, whatever it does to the list. -/
theorem step_keeps_titles {s t : Session} (hs : Sane s) (hc : ¬WritesTitle c)
    (ht : WindowSessions.step scr s c = .ok t) : fieldOf t.wm = fieldOf s.wm := by
  cases step_effect hs.ranged hs.desktop ht with
  | full => exact absurd trivial hc
  | placed => exact absurd trivial hc
  | closed => exact absurd trivial hc
  | minimized =>
    exact (fieldOf_blind.links _ _).trans (fieldOf_blind.wnd s.wm _ _ fun _ => rfl)
  | maximized =>
    exact (fieldOf_blind.links _ _).trans (fieldOf_blind.wnd s.wm _ _ fun _ => rfl)
  | @message m x wm _ _ _ _ =>
    obtain ⟨u, hu, ht⟩ := bind_eq_ok.mp ht
    have hkeeps := wmHandleMessage_keeps fieldOf_blind hs.ranged hs.desktop m u hu
    have hwm : u = wm := congrArg Session.wm (Except.ok.inj ht)
    exact hwm ▸ hkeeps
  | quiet hq => exact quiet_keeps fieldOf_blind.toBlind hq ht

theorem quiet_same {s t : Session} (hs : Sane s) (hq : Quiet c)
    (ht : WindowSessions.step scr s c = .ok t) : SameWindows s.wm t.wm ∧ t.opened = s.opened := by
  have heffect := step_effect hs.ranged hs.desktop ht
  cases hq <;> cases heffect with
  | quiet _ hsame hopened => exact ⟨hsame, hopened⟩

theorem quiet_invariant (h : Invariant s) (hq : Quiet c) (ht : step scr s c = .ok t) :
    Invariant t := by
  obtain ⟨hstep, hgiven⟩ := step_eq_ok.mp ht
  have hfield : fieldOf t.session.wm = fieldOf s.session.wm :=
    step_keeps_titles h.sane (by cases hq <;> exact id) hstep
  have hgiven : t.given = s.given := by
    rw [hgiven]
    cases hq <;> rfl
  obtain ⟨hsame, hopened⟩ := quiet_same h.sane hq hstep
  refine ⟨step_sane h.sane hstep, ?_, ?_, ?_⟩
  · rw [hsame.links, hopened]
    exact h.listed
  · rw [hopened, hfield]
    exact h.cleared
  · intro i hi
    rw [hopened] at hi
    rw [hfield, hgiven]
    exact h.kept i hi

/-- Without a slot nothing changes but the record. -/
theorem full_invariant (h : Invariant s) (hx : findNextAvailableWindowId s.session.wm = -1)
    (ht : t.session = s.session)
    (hgiven : t.given = record s (.createWindow p w title)) : Invariant t := by
  refine ⟨ht ▸ h.sane, ht ▸ h.listed, ht ▸ h.cleared, ?_⟩
  intro i hi
  rw [ht] at hi ⊢
  have hne : i ≠ -1 := (h.listed.inBounds hi).ne_neg
  have hsame : t.given i = s.given i := by
    rw [hgiven, record, hx]
    exact Function.update_of_ne hne title s.given
  rw [hsame]
  exact h.kept i hi

theorem step_kept_iff (h : Invariant s) (hc : TitleCall c) :
    (∀ t, step scr s c = .ok t → TitlesKept t) ↔ TitleFits s c := by
  cases hc with
  | closeWindow p w =>
    exact iff_of_true (fun t ht => (closeWindow_invariant h ht).kept) trivial
  | quiet hq =>
    refine iff_of_true (fun t ht => (quiet_invariant h hq ht).kept) ?_
    cases hq <;> trivial
  | createWindow p w title h0 =>
    constructor
    · intro hall hx
      obtain ⟨u, hu⟩ : ∃ u, WindowSessions.step scr s.session (.createWindow p w title) = .ok u :=
        createWindow_returns h.sane p w title
      have ht : step scr s (.createWindow p w title) =
          .ok ⟨u, record s (.createWindow p w title)⟩ := step_eq_ok.mpr ⟨hu, rfl⟩
      rcases createWindow_cases h.sane ht with ⟨hfull, -⟩ | ⟨hin, hfree, hwm, hopened⟩
      · exact absurd hfull hx
      · exact (placed_kept h h0 (h.listed.fresh hfree.2) hwm hopened rfl).mp (hall _ ht)
    · intro hfits t ht
      have hgiven := (step_eq_ok.mp ht).2
      rcases createWindow_cases h.sane ht with ⟨hfull, hsame⟩ | ⟨hin, hfree, hwm, hopened⟩
      · exact (full_invariant h hfull hsame hgiven).kept
      · exact (placed_kept h h0 (h.listed.fresh hfree.2) hwm hopened hgiven).mpr (hfits hin.ne_neg)

theorem step_invariant (h : Invariant s) (hc : TitleCall c) (hf : TitleFits s c)
    (ht : step scr s c = .ok t) : Invariant t := by
  cases hc with
  | closeWindow p w => exact closeWindow_invariant h ht
  | quiet hq => exact quiet_invariant h hq ht
  | createWindow p w title h0 =>
    have hkept := (step_kept_iff h (.createWindow p w title h0)).mpr hf t ht
    obtain ⟨hstep, hgiven⟩ := step_eq_ok.mp ht
    rcases createWindow_cases h.sane ht with ⟨hfull, hsame⟩ | ⟨hin, hfree, hwm, hopened⟩
    · exact full_invariant h hfull hsame hgiven
    · refine ⟨step_sane h.sane hstep, ?_, placed_cleared h hwm hopened, hkept⟩
      rw [hwm, hopened, links_placeWindow]
      exact h.listed.place hin hfree.2 _

/-- In a run of createWindow and closeWindow the title fields are kept exactly when every title
that is placed leaves room for its terminator. -/
theorem titles_kept_iff (scr : Screen) (calls : List Call) (h : ∀ c ∈ calls, TitleCall c) :
    Visits (step scr) TitlesKept (start scr) calls ↔
      Along (step scr) TitleFits (start scr) calls :=
  visits_iff (fun _ => Invariant.kept) (fun _ _ => step_kept_iff) (fun _ _ _ => step_invariant)
    start_invariant (along_of_mem _ h)

/-- A slot is used twice, first for the longer title. -/
def reusedSlot : List Call :=
  [.createWindow 0 desktopWindow [97, 98, 99], .closeWindow 0 { desktopWindow with handler := 0 },
    .createWindow 1 (appWindow (-1)) [100]]

theorem titles_kept_in_reused_slot :
    (∀ c ∈ reusedSlot, TitleCall c) ∧
      Visits (step desktopScreen) TitlesKept (start desktopScreen) reusedSlot := by
  have h : ∀ c ∈ reusedSlot, TitleCall c := by
    intro c hc
    simp only [reusedSlot, List.mem_cons, List.not_mem_nil, or_false] at hc
    rcases hc with rfl | rfl | rfl
    · exact .createWindow _ _ _ (by decide)
    · exact .closeWindow _ _
    · exact .createWindow _ _ _ (by decide)
  exact ⟨h, (titles_kept_iff desktopScreen reusedSlot h).mpr (by decide +kernel)⟩

/-- Fifty letters, which fill the field. -/
def longTitle : List UInt8 := List.replicate 50 97

theorem long_title_unterminated :
    ¬∀ (scr : Screen) (calls : List Call), (∀ c ∈ calls, TitleCall c) →
      Visits (step scr) TitlesKept (start scr) calls := by
  intro hall
  have hcall : TitleCall (.createWindow 0 desktopWindow longTitle) := by
    constructor
    intro h0
    exact absurd (List.eq_of_mem_replicate h0) (by decide)
  have hvisits := hall desktopScreen [.createWindow 0 desktopWindow longTitle]
    fun c hc => List.mem_singleton.mp hc ▸ hcall
  have hfits := (step_kept_iff start_invariant hcall).mp hvisits.2.1
  exact absurd (hfits (by decide +kernel)) (by decide)

end Steps

end WindowTitles
