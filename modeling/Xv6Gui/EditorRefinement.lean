import Xv6Gui.InputFields

/-!
# An input field as an editor

The keys of inputFieldKeyHandler against an editor that keeps the characters in front of the cursor
and behind it.
-/
namespace EditorRefinement

open WindowManagerState GuardedRuns TextLayouts InputFields

/-- The characters in front of the cursor and behind it. -/
structure Editor (α : Type) where
  before : List α
  after : List α
  deriving DecidableEq, Repr

namespace Editor

variable {α : Type}

def text (e : Editor α) : List α := e.before ++ e.after

def insert (e : Editor α) (c : α) : Editor α := ⟨e.before ++ [c], e.after⟩

/-- Nothing is removed at the start. -/
def delete (e : Editor α) : Editor α := ⟨e.before.dropLast, e.after⟩

def left (e : Editor α) : Editor α :=
  match e.before.getLast? with
  | none => e
  | some c => ⟨e.before.dropLast, c :: e.after⟩

def right (e : Editor α) : Editor α :=
  match e.after with
  | [] => e
  | c :: after => ⟨e.before ++ [c], after⟩

end Editor

/-- What a key does to the editor. The keys that change the row leave the text as it is. -/
def Edits (key : ℤ) (e e' : Editor UInt8) : Prop :=
  if Inserted key then e' = e.insert (UInt8.ofNat key.toNat)
  else if key = backspace then e' = e.delete
  else if key = keyLf then e' = e.left
  else if key = keyRt then e' = e.right
  else if key = keyUp ∨ key = keyDn then e'.text = e.text
  else e' = e

/-- The array holds the text of the editor, and the cursor is between its parts. -/
structure Represents (f : Field) (e : Editor UInt8) : Prop where
  text : Holds f.text e.text
  cursor : f.currentPos = e.before.length

section Keys

variable {f : Field} {e : Editor UInt8} {key width : ℤ}

theorem Represents.length_before_le (e : Editor UInt8) : e.before.length ≤ e.text.length := by
  rw [Editor.text, List.length_append]
  exact Nat.le_add_right _ _

theorem take_text (e : Editor UInt8) : e.text.take e.before.length = e.before := List.take_left

theorem drop_text (e : Editor UInt8) : e.text.drop e.before.length = e.after := List.drop_left

/-- Every cursor in the text splits it. -/
theorem represents_split {s : List UInt8} {k : ℕ} (h : Holds f.text s) (hk : k ≤ s.length)
    (hpos : f.currentPos = k) : Represents f ⟨s.take k, s.drop k⟩ := by
  refine ⟨?_, ?_⟩
  · rw [Editor.text, List.take_append_drop]
    exact h
  · rw [hpos, List.length_take, Nat.min_eq_left hk]

theorem insertChar_refines (h : Represents f e) (hc : Inserted key)
    (hroom : e.text.length + 1 < maxLongStrlen) :
    ∃ f', insertChar f key = .ok f' ∧ Represents f' (e.insert (UInt8.ofNat key.toNat)) := by
  obtain ⟨f', hf, hpos, hh⟩ :=
    insertChar_eq h.text (Represents.length_before_le e) h.cursor hc hroom
  rw [take_text, drop_text] at hh
  refine ⟨f', hf, ?_, ?_⟩
  · rw [Editor.text, Editor.insert, List.append_assoc]
    exact hh
  · rw [hpos, Editor.insert, List.length_append, List.length_singleton]

theorem deleteChar_refines (h : Represents f e) :
    ∃ f', (if f.currentPos > 0 then deleteChar f else .ok f) = .ok f' ∧
      Represents f' e.delete := by
  obtain ⟨before, after⟩ := e
  have hpos := h.cursor
  dsimp only at hpos
  rcases List.eq_nil_or_concat before with rfl | ⟨b, c, rfl⟩
  · rw [List.length_nil] at hpos
    rw [if_neg (by omega)]
    exact ⟨f, rfl, h⟩
  · rw [List.concat_eq_append] at h hpos ⊢
    rw [List.length_append, List.length_singleton] at hpos
    have hlen : b.length + 1 ≤ (Editor.text ⟨b ++ [c], after⟩).length := by
      simp only [Editor.text, List.length_append, List.length_singleton]
      omega
    obtain ⟨f', hf, hpos', hh⟩ := deleteChar_eq h.text hlen hpos
    rw [if_pos (by omega)]
    refine ⟨f', hf, ?_, ?_⟩
    · simpa [Editor.text, Editor.delete] using hh
    · rw [hpos', Editor.delete, List.dropLast_concat]

theorem left_refines (h : Represents f e) :
    Represents (if f.currentPos > 0 then { f with currentPos := f.currentPos - 1 } else f)
      e.left := by
  obtain ⟨before, after⟩ := e
  have hpos := h.cursor
  dsimp only at hpos
  rcases List.eq_nil_or_concat before with rfl | ⟨b, c, rfl⟩
  · rw [List.length_nil] at hpos
    rw [if_neg (by omega)]
    exact h
  · rw [List.concat_eq_append] at h hpos ⊢
    rw [List.length_append, List.length_singleton] at hpos
    rw [if_pos (by omega)]
    have hl : Editor.left ⟨b ++ [c], after⟩ = ⟨b, c :: after⟩ := by simp [Editor.left]
    rw [hl]
    refine ⟨?_, by dsimp only; omega⟩
    have ht : Editor.text ⟨b ++ [c], after⟩ = Editor.text ⟨b, c :: after⟩ := by simp [Editor.text]
    rw [← ht]
    exact h.text

theorem right_refines (h : Represents f e) :
    Represents
      (if f.currentPos < e.text.length then { f with currentPos := f.currentPos + 1 } else f)
      e.right := by
  obtain ⟨before, after⟩ := e
  have hpos := h.cursor
  cases after with
  | nil =>
    rw [if_neg (by rw [hpos, Editor.text, List.append_nil]; exact Int.lt_irrefl _)]
    exact h
  | cons c after =>
    have hlt : f.currentPos < (Editor.text ⟨before, c :: after⟩).length := by
      rw [hpos, Editor.text, List.length_append, List.length_cons]
      dsimp only
      omega
    rw [if_pos hlt]
    have ht : Editor.text ⟨before, c :: after⟩ = Editor.text ⟨before ++ [c], after⟩ := by
      simp [Editor.text]
    refine ⟨?_, ?_⟩
    · rw [Editor.right, ← ht]
      exact h.text
    · rw [Editor.right, List.length_append, List.length_singleton]
      dsimp only
      dsimp only at hpos
      omega

/-- The keys that move the cursor along the text, and those that do not move it. -/
theorem moveCursor_along (h : Represents f e) (charCount : ℤ)
    (hk : key ≠ keyUp ∧ key ≠ keyDn) :
    moveCursor f width charCount key =
      .ok (if key = keyLf then
          if f.currentPos > 0 then { f with currentPos := f.currentPos - 1 } else f
        else if key = keyRt then
          if f.currentPos < charCount then { f with currentPos := f.currentPos + 1 } else f
        else f) := by
  have hstr := h.text.string_zero
  obtain ⟨t, pos⟩ := f
  dsimp only at hstr
  by_cases hl : key = keyLf
  case pos =>
    subst hl
    have hr : ¬keyLf = keyRt := by decide
    simp only [moveCursor, hk.1, hk.2, hr, true_and, false_and, if_true, if_false]
    split
    · rw [hstr]
      rfl
    · rw [hstr]
      rfl
  case neg =>
    simp only [moveCursor, hk.1, hk.2, hl, false_and, if_false]
    by_cases hr : key = keyRt
    case pos =>
      simp only [hr, true_and, if_true]
      split
      · rw [hstr]
        rfl
      · rw [hstr]
        rfl
    case neg =>
      simp only [hr, false_and, if_false]
      rw [hstr]
      rfl

variable (key width) in
/-- The keys that change the row leave the text. -/
theorem moveCursor_rows (h : Represents f e) :
    ∃ f' e', moveCursor f width e.text.length key = .ok f' ∧ Represents f' e' ∧
      e'.text = e.text := by
  obtain ⟨f', hf, htext, h0, hle⟩ := moveCursor_eq h.text (Represents.length_before_le e) h.cursor
    width (Nat.le_refl _) key
  obtain ⟨k, hk⟩ := Int.eq_ofNat_of_zero_le h0
  refine ⟨f', ⟨e.text.take k, e.text.drop k⟩, hf, ?_, List.take_append_drop k e.text⟩
  exact represents_split (htext ▸ h.text) (by omega) hk

variable (key width) in
/-- The tests of the handler one after the other, with one key. -/
theorem tests_refine (h : Represents f e) (hroom : e.text.length + 1 < maxLongStrlen) :
    ∃ f' e', ((if Inserted key then insertChar f key else .ok f) >>= fun f =>
        moveCursor f width e.text.length key >>= fun f =>
          if key = backspace ∧ f.currentPos > 0 then deleteChar f else .ok f) = .ok f' ∧
      Represents f' e' ∧ Edits key e e' := by
  unfold Edits
  by_cases hc : Inserted key
  case pos =>
    have hk : key ≠ keyLf ∧ key ≠ keyRt ∧ (key ≠ keyUp ∧ key ≠ keyDn) ∧ key ≠ backspace := by
      simp only [Inserted] at hc
      simp only [keyLf, keyRt, keyUp, keyDn, backspace]
      omega
    obtain ⟨f', hf, hr⟩ := insertChar_refines h hc hroom
    refine ⟨f', _, ?_, hr, (if_pos hc).mpr rfl⟩
    rw [if_pos hc, hf, ok_bind, moveCursor_along hr _ hk.2.2.1, if_neg hk.1, if_neg hk.2.1,
      ok_bind, if_neg fun hb => hk.2.2.2 hb.1]
  rw [if_neg hc, ok_bind]
  by_cases hb : key = backspace
  case pos =>
    subst hb
    obtain ⟨f', hf, hr⟩ := deleteChar_refines h
    refine ⟨f', _, ?_, hr, (if_neg hc).mpr ((if_pos rfl).mpr rfl)⟩
    rw [moveCursor_along h _ (by decide), if_neg (by decide), if_neg (by decide), ok_bind, ← hf]
    exact if_congr (and_iff_right rfl) rfl rfl
  by_cases hrow : key = keyUp ∨ key = keyDn
  case pos =>
    obtain ⟨f', e', hf, hr, ht⟩ := moveCursor_rows key width h
    have hk : key ≠ keyLf ∧ key ≠ keyRt := by
      rcases hrow with rfl | rfl
      · decide
      · decide
    refine ⟨f', e', ?_, hr, ?_⟩
    · rw [hf, ok_bind, if_neg fun hd => hb hd.1]
    · simp only [if_neg hc, if_neg hb, if_neg hk.1, if_neg hk.2, if_pos hrow]
      exact ht
  rw [moveCursor_along h _ (not_or.mp hrow), ok_bind, if_neg fun hd => hb hd.1]
  simp only [if_neg hc, if_neg hb, if_neg hrow]
  by_cases hl : key = keyLf
  case pos =>
    simp only [if_pos hl]
    exact ⟨_, _, rfl, left_refines h, rfl⟩
  by_cases hr : key = keyRt
  case pos =>
    simp only [if_neg hl, if_pos hr]
    exact ⟨_, _, rfl, right_refines h, rfl⟩
  simp only [if_neg hl, if_neg hr]
  exact ⟨f, e, rfl, h, rfl⟩

end Keys

/-- Every key that goes down while the text leaves room for one more character does to the field
what it does to the editor with the same text and cursor. -/
theorem key_refines (position : WinRect) (f : Field) (s : List UInt8) (k : ℕ) (msg : Message)
    (h : Holds f.text s) (hroom : s.length ≤ maxLongStrlen - 2) (hk : k ≤ s.length)
    (hpos : f.currentPos = k) (hm : msg.msgType = .keyDown) :
    ∃ f' e', inputFieldKeyHandler position f msg = .ok f' ∧ Represents f' e' ∧
      Edits (msg.param 0) ⟨s.take k, s.drop k⟩ e' := by
  have hr := represents_split h hk hpos
  have htext : Editor.text ⟨s.take k, s.drop k⟩ = s := List.take_append_drop k s
  have hlen : (Editor.text ⟨s.take k, s.drop k⟩).length + 1 < maxLongStrlen := by
    rw [htext]
    exact Nat.lt_of_le_of_lt (Nat.succ_le_succ hroom) (by decide)
  unfold inputFieldKeyHandler
  rw [if_neg (not_not_intro hm)]
  dsimp only
  have ht := tests_refine (msg.param 0) (i32 (position.xmax - position.xmin)) hr hlen
  rw [htext] at ht
  rw [h.string_zero, ok_bind]
  exact ht

/-- An exclamation mark typed between the letters of `hi`. -/
theorem key_refines_typed : ∃ f : Field, Holds f.text [104, 105] ∧ f.currentPos = 1 ∧
    ∃ f' e', inputFieldKeyHandler ⟨0, 90, 0, 36⟩ f (keyDownMsg 33) = .ok f' ∧
      Represents f' e' ∧ Edits 33 ⟨[104], [105]⟩ e' := by
  obtain ⟨f, -, hh, -⟩ := addInputField_eq zeroedArray [104, 105] (by decide) (by decide)
  exact ⟨⟨f.text, 1⟩, hh, rfl, key_refines ⟨0, 90, 0, 36⟩ ⟨f.text, 1⟩ [104, 105] 1 (keyDownMsg 33)
    hh (by decide) (by decide) rfl rfl⟩

end EditorRefinement
