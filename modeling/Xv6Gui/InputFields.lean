import Xv6Gui.TextLayouts
import Mathlib.Data.List.TakeWhile

/-!
# Typing into an input field

inputFieldKeyHandler and inputMouseLeftClickHandler of user_handler.c over the array that
holds the text. A string ends at its first zero byte, and an access outside the array is a
fault. Nothing stops an insertion from filling the array up to its last byte.
-/
namespace InputFields

open WindowManagerState GuardedRuns TextLayouts

abbrev maxLongStrlen : ℕ := 1000

abbrev keyUp : ℤ := 0xE2
abbrev keyDn : ℤ := 0xE3
abbrev keyLf : ℤ := 0xE4
abbrev keyRt : ℤ := 0xE5

/-- `\b` -/
abbrev backspace : ℤ := 8

/-- `char text[MAX_LONG_STRLEN]` -/
structure TextArray where
  bytes : List UInt8
  length_bytes : bytes.length = maxLongStrlen

/-- The part of an `InputField` that the handlers use. -/
structure Field where
  text : TextArray
  currentPos : ℤ

/-- The string at `text + i`, as `strlen` and `strcpy` read it. -/
def TextArray.string (t : TextArray) (i : ℤ) : Except Fault (List UInt8) :=
  if i < 0 then .error (.outOfBounds i)
  else if 0 ∈ t.bytes.drop i.toNat then .ok ((t.bytes.drop i.toNat).takeWhile (· ≠ 0))
  else .error (.outOfBounds (max i maxLongStrlen))

/-- `strcpy(text + i, s)` -/
def TextArray.strcpy (t : TextArray) (i : ℤ) (s : List UInt8) : Except Fault TextArray :=
  if h : 0 ≤ i ∧ i + s.length < maxLongStrlen then
    .ok ⟨t.bytes.take i.toNat ++ (s ++ 0 :: t.bytes.drop (i.toNat + (s.length + 1))), by
      have := t.length_bytes
      simp only [List.length_append, List.length_take, List.length_cons, List.length_drop]
      omega⟩
  else .error (.outOfBounds (if i < 0 then i else max i maxLongStrlen))

/-- `text[i] = c` -/
def TextArray.store (t : TextArray) (i : ℤ) (c : ℤ) : Except Fault TextArray :=
  if 0 ≤ i ∧ i < maxLongStrlen then
    .ok ⟨t.bytes.set i.toNat (UInt8.ofNat c.toNat), by rw [List.length_set, t.length_bytes]⟩
  else .error (.outOfBounds i)

/-- The loop of `getInputOffsetFromMousePosition`. -/
def inputOffsetFrom (mouseX mouseY charPerLine : ℤ) (offsetX offsetY : ℤ)
    (currentPos firstYMatchPos : ℕ) : List UInt8 → ℕ
  | [] => if firstYMatchPos > 0 then firstYMatchPos else currentPos
  | c :: str =>
    if mouseY = offsetY ∧ mouseX = offsetX then currentPos
    else
      let first := if mouseY = offsetY then currentPos else firstYMatchPos
      if c ≠ newline then
        if offsetX + 1 > charPerLine then
          inputOffsetFrom mouseX mouseY charPerLine 0 (offsetY + 1) (currentPos + 1) first str
        else
          inputOffsetFrom mouseX mouseY charPerLine (offsetX + 1) offsetY (currentPos + 1) first str
      else inputOffsetFrom mouseX mouseY charPerLine 0 (offsetY + 1) (currentPos + 1) first str

def getInputOffsetFromMousePosition (str : List UInt8) (width mouseX mouseY : ℤ) : ℕ :=
  if mouseY < 0 then 0
  else inputOffsetFrom mouseX mouseY (width.tdiv characterWidth) 0 0 0 0 str

/-- The characters that are inserted: the printable ones and a line break. -/
def Inserted (newChar : ℤ) : Prop := (32 ≤ newChar ∧ newChar ≤ 126) ∨ newChar = 10

instance (newChar : ℤ) : Decidable (Inserted newChar) := inferInstanceAs (Decidable (_ ∨ _))

def insertChar (f : Field) (newChar : ℤ) : Except Fault Field :=
  f.text.string f.currentPos >>= fun temp =>
    f.text.store f.currentPos newChar >>= fun text =>
      text.strcpy (f.currentPos + 1) temp >>= fun text => .ok ⟨text, f.currentPos + 1⟩

def deleteChar (f : Field) : Except Fault Field :=
  f.text.string f.currentPos >>= fun temp =>
    f.text.strcpy (f.currentPos - 1) temp >>= fun text => .ok ⟨text, f.currentPos - 1⟩

/-- The keys that move the text cursor. -/
def moveCursor (f : Field) (width charCount newChar : ℤ) : Except Fault Field :=
  let f := if newChar = keyLf ∧ f.currentPos > 0 then { f with currentPos := f.currentPos - 1 }
    else f
  let f := if newChar = keyRt ∧ f.currentPos < charCount then
    { f with currentPos := f.currentPos + 1 } else f
  let x := getMouseXFromOffset f.text.bytes width f.currentPos
  let y := getMouseYFromOffset f.text.bytes width f.currentPos
  f.text.string 0 >>= fun str =>
    let f := if newChar = keyUp then
      { f with currentPos := getInputOffsetFromMousePosition str width x (y - 1) } else f
    .ok (if newChar = keyDn then
      { f with currentPos := getInputOffsetFromMousePosition str width x (y + 1) } else f)

def inputFieldKeyHandler (position : WinRect) (f : Field) (msg : Message) : Except Fault Field :=
  if msg.msgType ≠ .keyDown then .ok f
  else
    let width := i32 (position.xmax - position.xmin)
    let newChar := msg.param 0
    f.text.string 0 >>= fun str =>
      (if Inserted newChar then insertChar f newChar else .ok f) >>= fun f =>
        moveCursor f width str.length newChar >>= fun f =>
          if newChar = backspace ∧ f.currentPos > 0 then deleteChar f else .ok f

def inputMouseLeftClickHandler (position : WinRect) (f : Field) (msg : Message) :
    Except Fault Field :=
  if msg.msgType ≠ .mouseLeftClick then .ok f
  else
    let width := i32 (position.xmax - position.xmin)
    let mouseCharY := (i32 (msg.param 1 - position.ymin)).tdiv characterHeight
    let mouseCharX := (i32 (msg.param 0 - position.xmin)).tdiv characterWidth
    f.text.string 0 >>= fun str =>
      .ok { f with
        currentPos := getInputOffsetFromMousePosition str width mouseCharX mouseCharY }

inductive Event where
  | inputFieldKeyHandler (msg : Message)
  | inputMouseLeftClickHandler (msg : Message)

def step (position : WinRect) (f : Field) : Event → Except Fault Field
  | .inputFieldKeyHandler msg => inputFieldKeyHandler position f msg
  | .inputMouseLeftClickHandler msg => inputMouseLeftClickHandler position f msg

/-- The field that `addInputFieldWidget` makes in memory that holds any bytes. -/
def addInputField (memory : TextArray) (text : List UInt8) : Except Fault Field :=
  memory.strcpy 0 text >>= fun t => .ok ⟨t, text.length⟩

/-- `strlen(text)`, and the size of the array when no byte of it is zero. -/
def strlen (t : TextArray) : ℕ := (t.bytes.takeWhile (· ≠ 0)).length

/-- The text ends in the array and the cursor is in the text. -/
structure Good (f : Field) : Prop where
  terminated : strlen f.text < maxLongStrlen
  nonneg : 0 ≤ f.currentPos
  inside : f.currentPos ≤ strlen f.text

/-- No character is inserted into a text that fills the array but for its terminator. -/
def HasRoom (f : Field) : Event → Prop
  | .inputFieldKeyHandler msg => msg.msgType = .keyDown → Inserted (msg.param 0) →
    strlen f.text + 1 < maxLongStrlen
  | .inputMouseLeftClickHandler _ => True

/-- The array holds the string `s`. -/
structure Holds (t : TextArray) (s : List UInt8) : Prop where
  nonzero : 0 ∉ s
  ends : ∃ rest, t.bytes = s ++ 0 :: rest

section Strings

variable {t : TextArray} {s : List UInt8}

theorem takeWhile_string (h : 0 ∉ s) (rest : List UInt8) :
    (s ++ 0 :: rest).takeWhile (· ≠ 0) = s := by
  have hall : ∀ c ∈ s, decide (c ≠ 0) = true := by
    intro c hc
    exact decide_eq_true fun h0 => h (h0 ▸ hc)
  rw [List.takeWhile_append_of_pos hall]
  simp

theorem Holds.strlen_eq (h : Holds t s) : strlen t = s.length := by
  obtain ⟨rest, hb⟩ := h.ends
  rw [strlen, hb, takeWhile_string h.nonzero]

theorem Holds.lt (h : Holds t s) : s.length < maxLongStrlen := by
  obtain ⟨rest, hb⟩ := h.ends
  have hlen := t.length_bytes
  rw [hb, List.length_append, List.length_cons] at hlen
  omega

theorem holds_of_strlen (h : strlen t < maxLongStrlen) : ∃ s, Holds t s := by
  refine ⟨t.bytes.takeWhile (· ≠ 0), ?_, ?_⟩
  · intro h0
    simpa using List.mem_takeWhile_imp h0
  · have happ := List.takeWhile_append_dropWhile (p := fun c : UInt8 => decide (c ≠ 0))
      (l := t.bytes)
    cases hd : t.bytes.dropWhile (· ≠ 0) with
    | nil =>
      rw [hd, List.append_nil] at happ
      rw [strlen, happ, t.length_bytes] at h
      exact absurd h (Nat.lt_irrefl _)
    | cons c rest =>
      have hc : c = 0 := by
        have := List.head?_dropWhile_not (fun c : UInt8 => decide (c ≠ 0)) t.bytes
        rw [hd] at this
        simpa using this
      subst hc
      exact ⟨rest, by rw [← hd, happ]⟩

theorem Holds.string_eq (h : Holds t s) {k : ℕ} (hk : k ≤ s.length) :
    t.string k = .ok (s.drop k) := by
  obtain ⟨rest, hb⟩ := h.ends
  have hdrop : t.bytes.drop k = s.drop k ++ 0 :: rest := by
    rw [hb, List.drop_append_of_le_length hk]
  have hnz : 0 ∉ s.drop k := fun h0 => h.nonzero (List.mem_of_mem_drop h0)
  rw [TextArray.string, if_neg (by omega), Int.toNat_natCast, hdrop, if_pos (by simp),
    takeWhile_string hnz]

theorem Holds.string_zero (h : Holds t s) : t.string 0 = .ok s := h.string_eq (Nat.zero_le _)

theorem store_eq {k : ℕ} (hk : k < maxLongStrlen) (c : ℤ) :
    ∃ t', t.store k c = .ok t' ∧ t'.bytes = t.bytes.set k (UInt8.ofNat c.toNat) := by
  rw [TextArray.store, if_pos (by omega)]
  exact ⟨_, rfl, rfl⟩

/-- What lies in front of the copied string stays. -/
theorem strcpy_holds {k : ℕ} {p : List UInt8} (hp : t.bytes.take k = p) (hp0 : 0 ∉ p)
    (hs : 0 ∉ s) (hfit : k + s.length < maxLongStrlen) :
    ∃ t', t.strcpy k s = .ok t' ∧ Holds t' (p ++ s) := by
  have h : 0 ≤ (k : ℤ) ∧ (k : ℤ) + s.length < maxLongStrlen := by omega
  rw [TextArray.strcpy, dif_pos h]
  refine ⟨_, rfl, ?_, ?_⟩
  · simp [hp0, hs]
  · refine ⟨t.bytes.drop (k + (s.length + 1)), ?_⟩
    simp only [Int.toNat_natCast, hp, List.append_assoc]

theorem strcpy_full {k : ℕ} (hfull : maxLongStrlen ≤ k + s.length) :
    ∃ i, t.strcpy k s = .error (.outOfBounds i) := by
  rw [TextArray.strcpy, dif_neg (by omega)]
  exact ⟨_, rfl⟩

end Strings

section Handlers

variable {f : Field} {s : List UInt8} {k : ℕ} {newChar : ℤ}

theorem inserted_nonzero (h : Inserted newChar) : (0 : UInt8) ≠ UInt8.ofNat newChar.toNat := by
  intro h0
  have hz := congrArg UInt8.toNat h0
  simp only [UInt8.toNat_ofNat'] at hz
  simp only [Inserted] at h
  have : (0 : UInt8).toNat = 0 := rfl
  omega

theorem insertChar_eq (h : Holds f.text s) (hk : k ≤ s.length) (hpos : f.currentPos = k)
    (hc : Inserted newChar) (hroom : s.length + 1 < maxLongStrlen) :
    ∃ f', insertChar f newChar = .ok f' ∧ f'.currentPos = (k + 1 : ℕ) ∧
      Holds f'.text (s.take k ++ UInt8.ofNat newChar.toNat :: s.drop k) := by
  obtain ⟨rest, hb⟩ := h.ends
  have hlt := h.lt
  obtain ⟨t₁, hstore, hbytes⟩ := store_eq (t := f.text) (hk.trans_lt hlt) newChar
  rw [insertChar, hpos, h.string_eq hk, ok_bind, hstore, ok_bind]
  have htake : t₁.bytes.take (k + 1) = s.take k ++ [UInt8.ofNat newChar.toNat] := by
    rw [hbytes, List.take_set, hb]
    have hmem : k < (s ++ 0 :: rest).length := by
      rw [List.length_append, List.length_cons]
      omega
    rw [List.take_succ_eq_append_getElem hmem, List.set_append_right _ _ (by simp),
      List.take_append_of_le_length hk]
    simp [Nat.min_eq_left hk]
  have hnz : 0 ∉ s.take k ++ [UInt8.ofNat newChar.toNat] := by
    simp only [List.mem_append, List.mem_singleton, not_or]
    exact ⟨fun h0 => h.nonzero (List.mem_of_mem_take h0), inserted_nonzero hc⟩
  have hfit : k + 1 + (s.drop k).length < maxLongStrlen := by
    rw [List.length_drop]
    omega
  obtain ⟨t, ht, hh⟩ := strcpy_holds htake hnz (fun h0 => h.nonzero (List.mem_of_mem_drop h0)) hfit
  rw [Int.natCast_succ] at ht
  rw [ht, ok_bind]
  refine ⟨_, rfl, rfl, ?_⟩
  rw [List.append_assoc] at hh
  exact hh

theorem insertChar_full (h : Holds f.text s) (hk : k ≤ s.length) (hpos : f.currentPos = k)
    (hfull : maxLongStrlen ≤ s.length + 1) (newChar : ℤ) :
    ∃ i, insertChar f newChar = .error (.outOfBounds i) := by
  have hlt := h.lt
  obtain ⟨t₁, hstore, -⟩ := store_eq (t := f.text) (hk.trans_lt hlt) newChar
  rw [insertChar, hpos, h.string_eq hk, ok_bind, hstore, ok_bind, ← Int.natCast_succ]
  have hend : maxLongStrlen ≤ k + 1 + (s.drop k).length := by
    rw [List.length_drop]
    omega
  obtain ⟨i, hi⟩ := strcpy_full hend
  rw [hi]
  exact ⟨i, rfl⟩

theorem deleteChar_eq (h : Holds f.text s) (hk : k + 1 ≤ s.length)
    (hpos : f.currentPos = (k + 1 : ℕ)) :
    ∃ f', deleteChar f = .ok f' ∧ f'.currentPos = k ∧
      Holds f'.text (s.take k ++ s.drop (k + 1)) := by
  obtain ⟨rest, hb⟩ := h.ends
  have hlt := h.lt
  have hpred : ((k + 1 : ℕ) : ℤ) - 1 = k := by omega
  have htake : f.text.bytes.take k = s.take k := by
    rw [hb, List.take_append_of_le_length (by omega)]
  rw [deleteChar, hpos, h.string_eq hk, ok_bind, hpred]
  have hfit : k + (s.drop (k + 1)).length < maxLongStrlen := by
    rw [List.length_drop]
    omega
  obtain ⟨t, ht, hh⟩ := strcpy_holds htake (fun h0 => h.nonzero (List.mem_of_mem_take h0))
    (fun h0 => h.nonzero (List.mem_of_mem_drop h0)) hfit
  rw [ht, ok_bind]
  exact ⟨_, rfl, rfl, hh⟩

theorem inputOffsetFrom_le (x y per ox oy : ℤ) (pos first : ℕ) (str : List UInt8)
    (hfirst : first ≤ pos) : inputOffsetFrom x y per ox oy pos first str ≤ pos + str.length := by
  induction str generalizing ox oy pos first with
  | nil =>
    simp only [inputOffsetFrom]
    split <;> omega
  | cons c str ih =>
    simp only [inputOffsetFrom, List.length_cons]
    have hnext : (if y = oy then pos else first) ≤ pos + 1 := by
      split <;> omega
    have hrest := fun ox oy => ih ox oy (pos + 1) _ hnext
    rw [Nat.add_right_comm] at hrest
    split
    · omega
    · split
      · split
        · exact hrest _ _
        · exact hrest _ _
      · exact hrest _ _

/-- The offset found for a position of the mouse is one of the text. -/
theorem getInputOffset_le (str : List UInt8) (width x y : ℤ) :
    getInputOffsetFromMousePosition str width x y ≤ str.length := by
  rw [getInputOffsetFromMousePosition]
  split
  · exact Nat.zero_le _
  · exact (inputOffsetFrom_le x y _ 0 0 0 0 str (Nat.le_refl 0)).trans_eq (Nat.zero_add _)

theorem moveCursor_eq (h : Holds f.text s) (hk : k ≤ s.length) (hpos : f.currentPos = k)
    (width : ℤ) {charCount : ℕ} (hcount : charCount ≤ s.length) (newChar : ℤ) :
    ∃ f', moveCursor f width charCount newChar = .ok f' ∧ f'.text = f.text ∧
      0 ≤ f'.currentPos ∧ f'.currentPos ≤ s.length := by
  have hle := getInputOffset_le s width
  obtain ⟨t, pos⟩ := f
  subst hpos
  have hstr := h.string_zero
  simp only [moveCursor]
  generalize hleft : (if newChar = keyLf ∧ (k : ℤ) > 0 then (⟨t, k - 1⟩ : Field) else ⟨t, k⟩) = fl
  have hfl : fl.text = t ∧ 0 ≤ fl.currentPos ∧ fl.currentPos ≤ s.length := by
    rw [← hleft]
    split
    · exact ⟨rfl, by dsimp only; omega, by dsimp only; omega⟩
    · exact ⟨rfl, by dsimp only; omega, by dsimp only; omega⟩
  generalize hright : (if newChar = keyRt ∧ fl.currentPos < charCount then
    (⟨fl.text, fl.currentPos + 1⟩ : Field) else fl) = fr
  have hfr : fr.text = t ∧ 0 ≤ fr.currentPos ∧ fr.currentPos ≤ s.length := by
    rw [← hright]
    obtain ⟨htext, h0, h1⟩ := hfl
    split
    · exact ⟨htext, by dsimp only; omega, by dsimp only; omega⟩
    · exact ⟨htext, h0, h1⟩
  obtain ⟨htext, h0, h1⟩ := hfr
  rw [htext, show t.string 0 = .ok s from hstr, ok_bind]
  refine ⟨_, rfl, ?_⟩
  split
  · exact ⟨by split <;> simp [htext], Int.natCast_nonneg _, Int.ofNat_le.mpr (hle _ _)⟩
  · split
    · exact ⟨rfl, Int.natCast_nonneg _, Int.ofNat_le.mpr (hle _ _)⟩
    · exact ⟨htext, h0, h1⟩

theorem Good.of_holds (h : Holds f.text s) (h0 : 0 ≤ f.currentPos)
    (h1 : f.currentPos ≤ s.length) : Good f :=
  ⟨h.strlen_eq ▸ h.lt, h0, h.strlen_eq ▸ h1⟩

theorem Good.holds (h : Good f) :
    ∃ s k, Holds f.text s ∧ k ≤ s.length ∧ f.currentPos = (k : ℕ) := by
  obtain ⟨s, hs⟩ := holds_of_strlen h.terminated
  have hin := h.inside
  have h0 := h.nonneg
  rw [hs.strlen_eq] at hin
  exact ⟨s, f.currentPos.toNat, hs, by omega, by omega⟩

variable {position : WinRect} {msg : Message}

theorem click_good (h : Good f) :
    ∃ f', inputMouseLeftClickHandler position f msg = .ok f' ∧ Good f' := by
  rw [inputMouseLeftClickHandler]
  split
  · exact ⟨f, rfl, h⟩
  · obtain ⟨s, k, hs, hk, hpos⟩ := h.holds
    dsimp only
    rw [hs.string_zero, ok_bind]
    refine ⟨_, rfl, Good.of_holds hs (Int.natCast_nonneg _) ?_⟩
    exact Int.ofNat_le.mpr (getInputOffset_le s _ _ _)

/-- Behind an insertion, the keys that move the cursor and the one that deletes are safe. -/
theorem move_delete_good (h : Holds f.text s) (hk : k ≤ s.length) (hpos : f.currentPos = k)
    (width : ℤ) {charCount : ℕ} (hcount : charCount ≤ s.length) (newChar : ℤ) :
    ∃ f', (moveCursor f width charCount newChar >>= fun f =>
      if newChar = backspace ∧ f.currentPos > 0 then deleteChar f else .ok f) = .ok f' ∧
        Good f' := by
  obtain ⟨f₁, hm, htext, h0, h1⟩ := moveCursor_eq h hk hpos width hcount newChar
  rw [← htext] at h
  rw [hm, ok_bind]
  split
  · next hd =>
    obtain ⟨j, hj⟩ : ∃ j : ℕ, f₁.currentPos = (j + 1 : ℕ) := ⟨(f₁.currentPos - 1).toNat, by omega⟩
    obtain ⟨f₂, hdel, hpos₂, hh⟩ := deleteChar_eq h (by omega) hj
    refine ⟨f₂, hdel, Good.of_holds hh (by omega) ?_⟩
    rw [hpos₂, List.length_append, List.length_take, List.length_drop]
    omega
  · exact ⟨f₁, rfl, Good.of_holds h h0 h1⟩

/-- Without room the insertion writes behind the array. -/
theorem key_full (h : Good f) (hr : ¬HasRoom f (.inputFieldKeyHandler msg)) :
    ∃ i, inputFieldKeyHandler position f msg = .error (.outOfBounds i) := by
  obtain ⟨s, k, hs, hk, hpos⟩ := h.holds
  simp only [HasRoom, hs.strlen_eq, Classical.not_imp] at hr
  obtain ⟨hm, hc, hfull⟩ := hr
  obtain ⟨i, hi⟩ := insertChar_full hs hk hpos (Nat.not_lt.mp hfull) (msg.param 0)
  refine ⟨i, ?_⟩
  rw [inputFieldKeyHandler, if_neg (not_not_intro hm)]
  dsimp only
  rw [hs.string_zero, ok_bind, if_pos hc, hi, error_bind]

theorem key_good_iff (h : Good f) :
    (∃ f', inputFieldKeyHandler position f msg = .ok f' ∧ Good f') ↔
      HasRoom f (.inputFieldKeyHandler msg) := by
  by_cases hr : HasRoom f (.inputFieldKeyHandler msg)
  case neg =>
    obtain ⟨i, hi⟩ := key_full h hr
    refine iff_of_false ?_ hr
    rintro ⟨f', hf, -⟩
    cases hi.symm.trans hf
  case pos =>
    refine iff_of_true ?_ hr
    obtain ⟨s, k, hs, hk, hpos⟩ := h.holds
    simp only [HasRoom, hs.strlen_eq] at hr
    simp only [inputFieldKeyHandler]
    by_cases hm : msg.msgType = .keyDown
    · rw [if_neg (not_not_intro hm), hs.string_zero, ok_bind]
      by_cases hc : Inserted (msg.param 0)
      · obtain ⟨f₁, hins, hpos₁, hh⟩ := insertChar_eq hs hk hpos hc (hr hm hc)
        rw [if_pos hc, hins, ok_bind]
        refine move_delete_good hh ?_ hpos₁ _ ?_ _
        · rw [List.length_append, List.length_cons, List.length_take, List.length_drop]
          omega
        · rw [List.length_append, List.length_cons, List.length_take, List.length_drop]
          omega
      · rw [if_neg hc, ok_bind]
        exact move_delete_good hs hk hpos _ (Nat.le_refl _) _
    · rw [if_pos hm]
      exact ⟨f, rfl, h⟩

theorem step_good_iff (h : Good f) (e : Event) :
    (∃ f', step position f e = .ok f' ∧ Good f') ↔ HasRoom f e := by
  cases e with
  | inputFieldKeyHandler msg => exact key_good_iff h
  | inputMouseLeftClickHandler msg => exact iff_of_true (click_good h) trivial

theorem addInputField_eq (memory : TextArray) (text : List UInt8) (h0 : 0 ∉ text)
    (hlen : text.length < maxLongStrlen) :
    ∃ f, addInputField memory text = .ok f ∧ Holds f.text text ∧ f.currentPos = text.length := by
  have hfit : 0 + text.length < maxLongStrlen := (Nat.zero_add _).trans_lt hlen
  obtain ⟨t, ht, hh⟩ := strcpy_holds (t := memory) List.take_zero List.not_mem_nil h0 hfit
  rw [Int.natCast_zero] at ht
  rw [addInputField, ht, ok_bind]
  exact ⟨_, rfl, hh, rfl⟩

end Handlers

/-- The text stays in its array and the cursor in the text exactly as long as no character is
inserted into a text that leaves no room for it. -/
theorem field_stays_iff (position : WinRect) (memory : TextArray) (text : List UInt8)
    (h0 : 0 ∉ text)
    (hlen : text.length < maxLongStrlen) (f : Field) (hf : addInputField memory text = .ok f)
    (events : List Event) :
    Stays (step position) Good f events ↔ Along (step position) HasRoom f events := by
  obtain ⟨f', hf', hholds, hpos⟩ := addInputField_eq memory text h0 hlen
  obtain rfl : f' = f := Except.ok.inj (hf'.symm.trans hf)
  have hgood : Good f' :=
    Good.of_holds hholds (hpos ▸ Int.natCast_nonneg _) (hpos ▸ Int.le_refl _)
  have hfree : Along (step position) (fun _ _ => True) f' events :=
    along_of_forall (fun _ _ => trivial) _ _
  refine stays_iff (fun _ h => h) (fun s e h _ => step_good_iff h e) ?_ hgood hfree
  intro s e t h _ hroom ht
  obtain ⟨u, hu, hg⟩ := (step_good_iff h e).mpr hroom
  rw [ht] at hu
  cases hu
  exact hg

def zeroedArray : TextArray := ⟨List.replicate maxLongStrlen 0, List.length_replicate⟩

/-- A key that has gone down. -/
def keyDownMsg (key : ℤ) : Message := ⟨.keyDown, fun _ => some key⟩

theorem field_stays_hi : ∃ f, addInputField zeroedArray [104, 105] = .ok f ∧
    Stays (step ⟨0, 90, 0, 36⟩) Good f [.inputFieldKeyHandler (keyDownMsg 33)] := by
  obtain ⟨f, hf, hh, -⟩ := addInputField_eq zeroedArray [104, 105] (by decide) (by decide)
  refine ⟨f, hf, (field_stays_iff _ zeroedArray _ (by decide) (by decide) f hf _).mpr ?_⟩
  refine ⟨fun _ _ => ?_, fun _ _ => trivial⟩
  rw [hh.strlen_eq]
  decide

/-- With 999 characters in the field, one more writes its terminator behind the array. -/
theorem insertion_overflows : ¬∀ (position : WinRect) (memory : TextArray) (text : List UInt8),
    0 ∉ text → text.length < maxLongStrlen → ∀ f, addInputField memory text = .ok f →
      ∀ events, Stays (step position) Good f events := by
  intro h
  have h0 : (0 : UInt8) ∉ List.replicate 999 97 := fun hm =>
    absurd (List.eq_of_mem_replicate hm) (by decide)
  have hlen : (List.replicate 999 (97 : UInt8)).length < maxLongStrlen := by
    rw [List.length_replicate]
    decide
  obtain ⟨f, hf, hh, -⟩ := addInputField_eq zeroedArray _ h0 hlen
  have hs := h ⟨0, 90, 0, 36⟩ zeroedArray _ h0 hlen f hf [.inputFieldKeyHandler (keyDownMsg 97)]
  have hroom := (step_good_iff hs.1 _).mp hs.2.1 rfl (by decide)
  rw [hh.strlen_eq, List.length_replicate] at hroom
  exact absurd hroom (by decide)

end InputFields
