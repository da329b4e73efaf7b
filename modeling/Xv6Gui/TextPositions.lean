import Xv6Gui.InputFields
import Mathlib.Data.Nat.Find

/-!
# From the mouse to the text

getInputOffsetFromMousePosition of user_handler.c against the offset functions. Its loop keeps the
last match on the row and takes zero for no match, and it never looks at the end of the text.
-/
namespace TextPositions

open WindowManagerState TextLayouts WrappedText InputFields

/-- The column is the largest one that an offset on the row has. -/
def LargestColumn (str : List UInt8) (width y m : ℤ) : Prop :=
  (∃ o : ℕ, o ≤ str.length ∧ getMouseYFromOffset str width o = y ∧
    getMouseXFromOffset str width o = m) ∧
  ∀ o : ℕ, o ≤ str.length → getMouseYFromOffset str width o = y →
    getMouseXFromOffset str width o ≤ m

/-- The offset found is on the row, in the column asked for or the largest one, and the end of the
text when the row is below it. -/
structure Finds (str : List UInt8) (width x y : ℤ) (r : ℕ) : Prop where
  on_row : (∃ o : ℕ, o ≤ str.length ∧ getMouseYFromOffset str width o = y) →
    r ≤ str.length ∧ getMouseYFromOffset str width r = y ∧
      ∃ m, LargestColumn str width y m ∧ getMouseXFromOffset str width r = min x m
  below : (∀ o : ℕ, o ≤ str.length → getMouseYFromOffset str width o < y) → r = str.length

/-- The first row holds nothing but offset 0, and a column to its right is asked for. -/
def EmptyFirstRow (str : List UInt8) (width x y : ℤ) : Prop :=
  y = 0 ∧ 0 < x ∧ 0 < str.length ∧ getMouseYFromOffset str width 1 ≠ 0

/-- The last character is on the last row, and the end of the text or more is asked for. -/
def EndOfLastRow (str : List UInt8) (width x y : ℤ) : Prop :=
  2 ≤ str.length ∧ getMouseYFromOffset str width (str.length - 1 : ℕ) = y ∧
    getMouseYFromOffset str width str.length = y ∧ getMouseXFromOffset str width str.length ≤ x

/-- The column and the row of an offset. -/
def cell (str : List UInt8) (width : ℤ) (k : ℕ) : ℕ × ℕ := layout width (str.take k)

/-- What the loop returns when it starts at offset `k` with the match `first`. -/
inductive Found (str : List UInt8) (width : ℤ) (x y k first : ℕ) : ℕ → Prop where
  | exact (o : ℕ) : k ≤ o → o < str.length → cell str width o = (x, y) →
      Found str width x y k first o
  | last (o : ℕ) : (∀ i, k ≤ i → i < str.length → cell str width i ≠ (x, y)) →
      k ≤ o → o < str.length → (cell str width o).2 = y →
      (∀ i, o < i → i < str.length → (cell str width i).2 ≠ y) →
      Found str width x y k first (if o > 0 then o else str.length)
  | none : (∀ i, k ≤ i → i < str.length → (cell str width i).2 ≠ y) →
      Found str width x y k first (if first > 0 then first else str.length)

section Loop

variable {str : List UInt8} {width : ℤ} {x y k first : ℕ}

theorem drop_cons {c : UInt8} {rest : List UInt8} (h : str.drop k = c :: rest) :
    k < str.length ∧ charAt str k = c ∧ str.drop (k + 1) = rest := by
  have hget : str[k]? = some c := by
    rw [← List.head?_drop, h]
    rfl
  have hlt : k < str.length := (List.getElem?_eq_some_iff.mp hget).1
  refine ⟨hlt, ?_, by rw [← List.tail_drop, h, List.tail_cons]⟩
  rw [charAt_of_lt hlt] at hget
  exact Option.some.inj hget

/-- A round that finds no exact match goes on at the place of the next offset. -/
theorem inputOffsetFrom_cons (hw : 0 ≤ width) {c : UInt8} {rest : List UInt8}
    (hrest : str.drop k = c :: rest) (hne : cell str width k ≠ (x, y)) :
    inputOffsetFrom x y (width.tdiv characterWidth) (cell str width k).1
        (cell str width k).2 k first (c :: rest) =
      inputOffsetFrom x y (width.tdiv characterWidth) (cell str width (k + 1)).1
        (cell str width (k + 1)).2 (k + 1)
        (if (cell str width k).2 = y then k else first) rest := by
  obtain ⟨hlt, hc, -⟩ := drop_cons hrest
  have hno : ¬((y : ℤ) = (cell str width k).2 ∧ (x : ℤ) = (cell str width k).1) := by
    rintro ⟨hy, hx⟩
    exact hne (Prod.ext (by omega) (by omega))
  have hfirst : (if (y : ℤ) = (cell str width k).2 then k else first) =
      if (cell str width k).2 = y then k else first :=
    if_congr (by omega) rfl rfl
  rw [inputOffsetFrom, if_neg hno]
  dsimp only
  rw [hfirst]
  split
  · next hn =>
    rw [← hc] at hn
    split
    · next ho =>
      rw [show cell str width (k + 1) = _ from layout_wrap hlt hn ((over_cells hw _).mp ho)]
      rfl
    · next ho =>
      rw [show cell str width (k + 1) = _ from layout_fit hlt hn (mt (over_cells hw _).mpr ho)]
      rfl
  · next hn =>
    rw [show cell str width (k + 1) = _ from layout_break hlt (hc.trans (not_not.mp hn))]
    rfl

theorem inputOffsetFrom_found (hw : 0 ≤ width) {rest : List UInt8} (hrest : str.drop k = rest)
    (hk : k ≤ str.length) :
    Found str width x y k first
      (inputOffsetFrom x y (width.tdiv characterWidth) (cell str width k).1
        (cell str width k).2 k first rest) := by
  induction rest generalizing k first with
  | nil =>
    obtain rfl : k = str.length := by
      have := List.drop_eq_nil_iff.mp hrest
      omega
    exact .none fun i h1 h2 => absurd h2 (by omega)
  | cons c rest ih =>
    obtain ⟨hlt, -, htail⟩ := drop_cons hrest
    by_cases hat : cell str width k = (x, y)
    case pos =>
      rw [inputOffsetFrom, hat, if_pos ⟨rfl, rfl⟩]
      exact .exact k (Nat.le_refl k) hlt hat
    case neg =>
      rw [inputOffsetFrom_cons hw hrest hat]
      have hsplit : ∀ i, k ≤ i → i = k ∨ k + 1 ≤ i := fun i hi => by omega
      have hf : Found str width x y (k + 1) (if (cell str width k).2 = y then k else first)
        _ := ih htail hlt
      revert hf
      generalize inputOffsetFrom x y _ _ _ _ _ _ = r
      intro hf
      cases hf with
      | exact _ ho hlo he => exact .exact r (by omega) hlo he
      | last o hno ho hlo hrow hlast =>
        refine .last o ?_ (by omega) hlo hrow hlast
        intro i hi hil
        rcases hsplit i hi with rfl | hi
        · exact hat
        · exact hno i hi hil
      | none hno =>
        by_cases hrow : (cell str width k).2 = y
        case pos =>
          rw [if_pos hrow]
          refine .last k ?_ (Nat.le_refl k) hlt hrow fun i hi => hno i hi
          intro i hi hil
          rcases hsplit i hi with rfl | hi
          · exact hat
          · exact fun he => hno i hi hil (congrArg Prod.snd he)
        case neg =>
          rw [if_neg hrow]
          refine .none fun i hi hil => ?_
          rcases hsplit i hi with rfl | hi
          · exact hrow
          · exact hno i hi hil

end Loop

section Cells

variable {str : List UInt8} {width : ℤ} {x y j k r : ℕ}

@[simp]
theorem cell_zero : cell str width 0 = (0, 0) := rfl

theorem getMouseX_eq (hw : 0 ≤ width) (hk : k ≤ str.length) :
    getMouseXFromOffset str width k = (cell str width k).1 :=
  (getMouse_eq hw hk).1

theorem getMouseY_eq (hw : 0 ≤ width) (hk : k ≤ str.length) :
    getMouseYFromOffset str width k = (cell str width k).2 :=
  (getMouse_eq hw hk).2

theorem cell_row_le (hjk : j ≤ k) (hk : k ≤ str.length) :
    (cell str width j).2 ≤ (cell str width k).2 :=
  row_le _ _ hjk hk

theorem cell_col (hjk : j ≤ k) (hk : k ≤ str.length)
    (h : (cell str width j).2 = (cell str width k).2) :
    (cell str width k).1 = (cell str width j).1 + (k - j) :=
  col_of_same_row hjk hk h

/-- On the row of an offset, every column up to its own is that of an offset. -/
theorem exists_column (hk : k ≤ str.length) (hx : x ≤ (cell str width k).1) :
    ∃ i ≤ k, i + ((cell str width k).1 - x) = k ∧
      cell str width i = (x, (cell str width k).2) := by
  obtain ⟨hle, hback⟩ := place_back hk (Nat.sub_le (cell str width k).1 x)
  refine ⟨k - ((cell str width k).1 - x), by omega, by omega, hback.trans ?_⟩
  exact Prod.ext (Nat.sub_sub_self hx) rfl

/-- The last offset on a row has its largest column. -/
theorem col_le_last (hk : k ≤ str.length)
    (hlast : ∀ i, k < i → i ≤ str.length → (cell str width i).2 ≠ (cell str width k).2)
    (hj : j ≤ str.length) (hrow : (cell str width j).2 = (cell str width k).2) :
    (cell str width j).1 ≤ (cell str width k).1 := by
  have hjk : j ≤ k := Nat.not_lt.mp fun h => hlast j h hj hrow
  rw [cell_col hjk hk hrow]
  exact Nat.le_add_right _ _

variable (width) in
theorem exists_last (hj : j ≤ str.length) :
    ∃ k, j ≤ k ∧ k ≤ str.length ∧ (cell str width k).2 = (cell str width j).2 ∧
      ∀ i, k < i → i ≤ str.length → (cell str width i).2 ≠ (cell str width k).2 := by
  let OnRow := fun i => (cell str width i).2 = (cell str width j).2
  have hspec : OnRow (Nat.findGreatest OnRow str.length) := Nat.findGreatest_spec hj rfl
  refine ⟨Nat.findGreatest OnRow str.length, Nat.le_findGreatest hj rfl, Nat.findGreatest_le _,
    hspec, ?_⟩
  intro i hi hn he
  exact Nat.findGreatest_is_greatest hi hn (he.trans hspec)

theorem largestColumn_of_last (hw : 0 ≤ width) (hk : k ≤ str.length)
    (hlast : ∀ i, k < i → i ≤ str.length → (cell str width i).2 ≠ (cell str width k).2) :
    LargestColumn str width (cell str width k).2 (cell str width k).1 := by
  refine ⟨⟨k, hk, getMouseY_eq hw hk, getMouseX_eq hw hk⟩, ?_⟩
  intro o ho hrow
  rw [getMouseY_eq hw ho] at hrow
  rw [getMouseX_eq hw ho]
  exact Int.ofNat_le.mpr (col_le_last hk hlast ho (Int.ofNat_inj.mp hrow))

/-- The offset of a cell, or the last one on a row for a column behind it. -/
theorem finds_of_last (hw : 0 ≤ width) (hk : k ≤ str.length)
    (hlast : ∀ i, k < i → i ≤ str.length → (cell str width i).2 ≠ (cell str width k).2)
    (hr : r ≤ str.length) (hrow : (cell str width r).2 = (cell str width k).2)
    (hcol : (cell str width r).1 = min x (cell str width k).1) :
    Finds str width x (cell str width k).2 r where
  on_row := by
    intro _
    refine ⟨hr, ?_, _, largestColumn_of_last hw hk hlast, ?_⟩
    · rw [getMouseY_eq hw hr, hrow]
    · rw [getMouseX_eq hw hr, hcol]
      omega
  below := by
    intro hb
    have := hb k hk
    rw [getMouseY_eq hw hk] at this
    exact absurd this (Int.lt_irrefl _)

/-- What is found on the row of the last offset `k`. -/
theorem Finds.on_last (hw : 0 ≤ width) (hk : k ≤ str.length)
    (hlast : ∀ i, k < i → i ≤ str.length → (cell str width i).2 ≠ (cell str width k).2)
    (h : Finds str width x (cell str width k).2 r) :
    r ≤ str.length ∧ (cell str width r).2 = (cell str width k).2 ∧
      (cell str width r).1 = min x (cell str width k).1 := by
  obtain ⟨hr, hrow, m, ⟨⟨o, ho, horow, hom⟩, hmax⟩, hcol⟩ :=
    h.on_row ⟨k, hk, getMouseY_eq hw hk⟩
  rw [getMouseY_eq hw hr] at hrow
  rw [getMouseX_eq hw hr] at hcol
  rw [getMouseY_eq hw ho] at horow
  rw [getMouseX_eq hw ho] at hom
  have hle := hmax k hk (getMouseY_eq hw hk)
  rw [getMouseX_eq hw hk] at hle
  have hge := col_le_last hk hlast ho (Int.ofNat_inj.mp horow)
  exact ⟨hr, Int.ofNat_inj.mp hrow, by omega⟩

theorem emptyFirstRow_iff (hw : 0 ≤ width) : EmptyFirstRow str width x y ↔
    y = 0 ∧ 0 < x ∧ 0 < str.length ∧ (cell str width 1).2 ≠ 0 := by
  have hY : 0 < str.length → getMouseYFromOffset str width 1 = (cell str width 1).2 := fun hn =>
    getMouseY_eq hw hn
  unfold EmptyFirstRow
  constructor
  · rintro ⟨hy, hx, hn, h1⟩
    rw [hY hn] at h1
    exact ⟨by omega, by omega, hn, by omega⟩
  · rintro ⟨hy, hx, hn, h1⟩
    rw [hY hn]
    exact ⟨by omega, by omega, hn, by omega⟩

theorem endOfLastRow_iff (hw : 0 ≤ width) : EndOfLastRow str width x y ↔
    2 ≤ str.length ∧ (cell str width (str.length - 1)).2 = y ∧
      (cell str width str.length).2 = y ∧ (cell str width str.length).1 ≤ x := by
  unfold EndOfLastRow
  rw [getMouseY_eq hw (Nat.sub_le _ _), getMouseY_eq hw (Nat.le_refl _),
    getMouseX_eq hw (Nat.le_refl _)]
  omega

/-- The exact match of a cell is the offset that is asked for. -/
theorem finds_iff_of_exact (hw : 0 ≤ width) (hr : r < str.length) (hc : cell str width r = (x, y)) :
    Finds str width x y r ↔ ¬EmptyFirstRow str width x y ∧ ¬EndOfLastRow str width x y := by
  have hrow : (cell str width r).2 = y := congrArg Prod.snd hc
  have hcol : (cell str width r).1 = x := congrArg Prod.fst hc
  obtain ⟨k, hrk, hk, hkrow, hlast⟩ := exists_last width hr.le
  have hkcol := cell_col hrk hk hkrow.symm
  refine iff_of_true ?_ ⟨?_, ?_⟩
  · rw [← hrow, ← hkrow]
    exact finds_of_last hw hk hlast hr.le hkrow.symm (by omega)
  · rw [emptyFirstRow_iff hw]
    rintro ⟨hy, hx, -, h1⟩
    have hpos : 0 < r := by
      rw [Nat.pos_iff_ne_zero]
      rintro rfl
      rw [cell_zero] at hcol
      omega
    have : (cell str width 1).2 ≤ (cell str width r).2 := cell_row_le hpos hr.le
    omega
  · rw [endOfLastRow_iff hw]
    rintro ⟨-, -, hn, hx⟩
    have := cell_col hr.le (Nat.le_refl _) (hrow.trans hn.symm)
    omega

/-- With no exact match on the last row, the last character is found instead of the end. -/
theorem finds_iff_of_last_row (hw : 0 ≤ width)
    (hno : ∀ i, i < str.length → cell str width i ≠ (x, y)) (hr : r < str.length)
    (hrow : (cell str width r).2 = y)
    (hlast : ∀ i, r < i → i < str.length → (cell str width i).2 ≠ y)
    (hn : (cell str width str.length).2 = y) :
    Finds str width x y (if r > 0 then r else str.length) ↔
      ¬EmptyFirstRow str width x y ∧ ¬EndOfLastRow str width x y := by
  have hpred : (cell str width (str.length - 1)).2 ≤ (cell str width str.length).2 :=
    cell_row_le (Nat.sub_le _ _) (Nat.le_refl _)
  have hrn : r = str.length - 1 := by
    by_contra hne
    have hle : (cell str width r).2 ≤ (cell str width (str.length - 1)).2 :=
      cell_row_le (by omega) (by omega)
    exact hlast (str.length - 1) (by omega) (by omega) (by omega)
  have hx : (cell str width str.length).1 ≤ x := by
    by_contra hx
    obtain ⟨i, -, hi, hc⟩ := exists_column (Nat.le_refl str.length) (Nat.not_le.mp hx).le
    exact hno i (by omega) (hn ▸ hc)
  have hcol := cell_col hr.le (Nat.le_refl _) (hrow.trans hn.symm)
  have hend : ∀ i, str.length < i → i ≤ str.length →
      (cell str width i).2 ≠ (cell str width str.length).2 := fun i h1 h2 => absurd h2 (by omega)
  by_cases h2 : 2 ≤ str.length
  case pos =>
    rw [if_pos (by omega)]
    refine iff_of_false ?_ fun h => h.2 ((endOfLastRow_iff hw).mpr ⟨h2, hrn ▸ hrow, hn, hx⟩)
    intro hf
    rw [← hn] at hf
    have := (hf.on_last hw (Nat.le_refl _) hend).2.2
    omega
  case neg =>
    rw [if_neg (by omega)]
    refine iff_of_true ?_ ⟨?_, fun h => h2 ((endOfLastRow_iff hw).mp h).1⟩
    · rw [← hn]
      exact finds_of_last hw (Nat.le_refl _) hend (Nat.le_refl _) rfl (by omega)
    · rw [emptyFirstRow_iff hw]
      rintro ⟨hy, -, h0, h1⟩
      rw [show str.length = 1 by omega] at hn
      exact h1 (hn.trans hy)

/-- With no exact match on a row above the last one, its last offset is found, if it is not 0. -/
theorem finds_iff_of_row (hw : 0 ≤ width) (hno : ∀ i, i < str.length → cell str width i ≠ (x, y))
    (hr : r < str.length) (hrow : (cell str width r).2 = y)
    (hlast : ∀ i, r < i → i < str.length → (cell str width i).2 ≠ y)
    (hn : (cell str width str.length).2 ≠ y) :
    Finds str width x y (if r > 0 then r else str.length) ↔
      ¬EmptyFirstRow str width x y ∧ ¬EndOfLastRow str width x y := by
  have hend : ∀ i, r < i → i ≤ str.length → (cell str width i).2 ≠ (cell str width r).2 := by
    intro i hi hil
    rw [hrow]
    rcases Nat.lt_or_eq_of_le hil with hil | rfl
    · exact hlast i hi hil
    · exact hn
  have hx : (cell str width r).1 < x := by
    by_contra hx
    obtain ⟨i, hi, -, hc⟩ := exists_column hr.le (Nat.not_lt.mp hx)
    exact hno i (by omega) (hrow ▸ hc)
  have hnend : ¬EndOfLastRow str width x y := fun h => hn ((endOfLastRow_iff hw).mp h).2.2.1
  by_cases h0 : r = 0
  case pos =>
    subst h0
    rw [if_neg (by omega)]
    rw [cell_zero] at hrow hx
    refine iff_of_false ?_ fun h => h.1 ((emptyFirstRow_iff hw).mpr ⟨hrow.symm, hx, hr, ?_⟩)
    · intro hf
      have hf0 : Finds str width x (cell str width 0).2 str.length := by
        rw [cell_zero, hrow]
        exact hf
      exact hend str.length hr (Nat.le_refl _) (hf0.on_last hw hr.le hend).2.1
    · exact hend 1 Nat.one_pos hr
  case neg =>
    rw [if_pos (by omega)]
    refine iff_of_true ?_ ⟨?_, hnend⟩
    · rw [← hrow]
      exact finds_of_last hw hr.le hend hr.le rfl (by omega)
    · rw [emptyFirstRow_iff hw]
      rintro ⟨hy, -, -, h1⟩
      have : (cell str width 1).2 ≤ (cell str width r).2 := cell_row_le (by omega) hr.le
      omega

/-- With no character on the row, the end of the text is found. -/
theorem finds_iff_of_none (hw : 0 ≤ width) (hno : ∀ i, i < str.length → (cell str width i).2 ≠ y) :
    Finds str width x y str.length ↔
      ¬EmptyFirstRow str width x y ∧ ¬EndOfLastRow str width x y := by
  refine iff_of_true ?_ ⟨?_, ?_⟩
  · by_cases hn : (cell str width str.length).2 = y
    case pos =>
      have hcol : (cell str width str.length).1 ≤ x := by
        by_contra hx
        obtain ⟨i, -, hi, hc⟩ := exists_column (Nat.le_refl str.length) (Nat.not_le.mp hx).le
        exact hno i (by omega) ((congrArg Prod.snd hc).trans hn)
      rw [← hn]
      exact finds_of_last hw (Nat.le_refl _) (fun i h1 h2 => absurd h2 (by omega)) (Nat.le_refl _)
        rfl (by omega)
    case neg =>
      refine ⟨?_, fun _ => rfl⟩
      rintro ⟨o, ho, hrow⟩
      rw [getMouseY_eq hw ho] at hrow
      rcases Nat.lt_or_eq_of_le ho with ho | rfl
      · exact absurd (Int.ofNat_inj.mp hrow) (hno o ho)
      · exact absurd (Int.ofNat_inj.mp hrow) hn
  · rw [emptyFirstRow_iff hw]
    rintro ⟨hy, -, hn, -⟩
    exact hno 0 hn hy.symm
  · rw [endOfLastRow_iff hw]
    rintro ⟨h2, hrow, -⟩
    exact hno _ (by omega) hrow

end Cells

/-- A position is found, unless the first row is empty and the position to its right, or the last
row has a character and the position is not in front of one. -/
theorem finds_iff (str : List UInt8) (width x y : ℤ) (hw : 0 ≤ width) (hx : 0 ≤ x) (hy : 0 ≤ y) :
    Finds str width x y (getInputOffsetFromMousePosition str width x y) ↔
      ¬EmptyFirstRow str width x y ∧ ¬EndOfLastRow str width x y := by
  obtain ⟨x, rfl⟩ := Int.eq_ofNat_of_zero_le hx
  obtain ⟨y, rfl⟩ := Int.eq_ofNat_of_zero_le hy
  have hf : Found str width x y 0 0
      (inputOffsetFrom x y (width.tdiv characterWidth) 0 0 0 0 str) :=
    inputOffsetFrom_found hw rfl (Nat.zero_le _)
  rw [getInputOffsetFromMousePosition, if_neg (by omega)]
  revert hf
  generalize inputOffsetFrom x y _ 0 0 0 0 str = r
  intro hf
  cases hf with
  | exact _ _ hlo hc => exact finds_iff_of_exact hw hlo hc
  | last o hno _ hlo hrow hlast =>
    by_cases hn : (cell str width str.length).2 = y
    · exact finds_iff_of_last_row hw (fun i => hno i (Nat.zero_le i)) hlo hrow hlast hn
    · exact finds_iff_of_row hw (fun i => hno i (Nat.zero_le i)) hlo hrow hlast hn
  | none hno => exact finds_iff_of_none hw fun i => hno i (Nat.zero_le i)

section Inverse

variable {str : List UInt8} {width : ℤ} {o r : ℕ}

/-- At the place of an offset, to find the position is to find the offset. -/
theorem finds_place_iff (hw : 0 ≤ width) (ho : o ≤ str.length) :
    Finds str width (cell str width o).1 (cell str width o).2 r ↔ r = o := by
  obtain ⟨k, hok, hk, hrow, hlast⟩ := exists_last width ho
  have hcol := cell_col hok hk hrow.symm
  constructor
  · intro hf
    rw [← hrow] at hf
    obtain ⟨hr, hrrow, hrcol⟩ := hf.on_last hw hk hlast
    have hc : cell str width r = cell str width o := Prod.ext (by omega) (hrrow.trans hrow)
    exact place_inj hr ho hc
  · rintro rfl
    rw [← hrow]
    exact finds_of_last hw hk hlast ho hrow.symm (by omega)

theorem not_emptyFirstRow_place (hw : 0 ≤ width) (ho : o ≤ str.length) :
    ¬EmptyFirstRow str width (cell str width o).1 (cell str width o).2 := by
  rw [emptyFirstRow_iff hw]
  rintro ⟨hy, hx, -, h1⟩
  have hpos : 0 < o := by
    rw [Nat.pos_iff_ne_zero]
    rintro rfl
    exact absurd hx (Nat.lt_irrefl 0)
  have : (cell str width 1).2 ≤ (cell str width o).2 := cell_row_le hpos ho
  omega

theorem endOfLastRow_place_iff (hw : 0 ≤ width) (ho : o ≤ str.length) :
    EndOfLastRow str width (cell str width o).1 (cell str width o).2 ↔
      o = str.length ∧ 2 ≤ str.length ∧
        (cell str width (str.length - 1)).2 = (cell str width str.length).2 := by
  rw [endOfLastRow_iff hw]
  constructor
  · rintro ⟨h2, hpred, hn, hx⟩
    have := cell_col ho (Nat.le_refl _) hn.symm
    exact ⟨by omega, h2, hpred.trans hn.symm⟩
  · rintro ⟨rfl, h2, hpred⟩
    exact ⟨h2, hpred, rfl, Nat.le_refl _⟩

end Inverse

/-- The position of a cell, and the offset functions inverted, in the cases that are right. -/
theorem offset_of_position_iff (str : List UInt8) (width : ℤ) (hw : 0 ≤ width) :
    (∀ x y : ℤ, 0 ≤ x → 0 ≤ y →
      (Finds str width x y (getInputOffsetFromMousePosition str width x y) ↔
        ¬EmptyFirstRow str width x y ∧ ¬EndOfLastRow str width x y)) ∧
    ∀ o : ℕ, o ≤ str.length →
      (getInputOffsetFromMousePosition str width (getMouseXFromOffset str width o)
          (getMouseYFromOffset str width o) = o ↔
        ¬(o = str.length ∧ 2 ≤ str.length ∧
          getMouseYFromOffset str width (str.length - 1 : ℕ) =
            getMouseYFromOffset str width str.length)) := by
  refine ⟨fun x y hx hy => finds_iff str width x y hw hx hy, ?_⟩
  intro o ho
  rw [getMouseX_eq hw ho, getMouseY_eq hw ho, getMouseY_eq hw (Nat.sub_le _ _),
    getMouseY_eq hw (Nat.le_refl _), Int.ofNat_inj, ← endOfLastRow_place_iff hw ho,
    ← finds_place_iff hw ho, finds_iff str width _ _ hw (Int.natCast_nonneg _)
      (Int.natCast_nonneg _)]
  exact and_iff_right (not_emptyFirstRow_place hw ho)

/-- Behind the end of the only row, the last character of `ab` is found. -/
theorem offset_before_end :
    ¬ ∀ (str : List UInt8) (width x y : ℤ), 0 ∉ str → 0 ≤ width → 0 ≤ x → 0 ≤ y →
      Finds str width x y (getInputOffsetFromMousePosition str width x y) := by
  intro hall
  have hf := hall [97, 98] 90 2 0 (by decide) (by decide) (by decide) (by decide)
  obtain ⟨-, -, m, ⟨-, hmax⟩, hcol⟩ := hf.on_row ⟨0, by decide, by decide⟩
  have h2 := hmax 2 (by decide) (by decide)
  change (2 : ℤ) ≤ m at h2
  change (1 : ℤ) = min 2 m at hcol
  omega

/-- In a field that is ten characters wide, the second row of `ab`, a line break and `cd`. -/
theorem offset_of_position_second_row :
    0 ≤ (90 : ℤ) ∧ Finds [97, 98, 10, 99, 100] 90 1 1
      (getInputOffsetFromMousePosition [97, 98, 10, 99, 100] 90 1 1) := by
  refine ⟨by decide, ((offset_of_position_iff [97, 98, 10, 99, 100] 90 (by decide)).1 1 1
    (by decide) (by decide)).mpr ⟨?_, ?_⟩⟩
  · rintro ⟨h, -⟩
    exact absurd h (by decide)
  · rintro ⟨-, -, -, h⟩
    exact absurd h (by decide)

end TextPositions
