import Xv6Gui.ExecImages
import Xv6Gui.ProcessGrowth
import Mathlib.Algebra.Order.BigOperators.Group.List

/-!
# The stack of a new program

The second half of exec. Each copy goes below the last one, and the only bound on it is the guard
page: a copy that would leave the stack page downwards covers a byte of the guard page, and one
that wraps around begins in the pages of the devices.
-/
namespace ExecStacks

open WordMemory PageEntries PageTables PageViews PageOwnership PageMappings UserMemory
open AddressSpaces SpaceCopies CopyOut ExecImages ProcessGrowth GuardedRuns

/-- An image with a stack: one page below `top`, and the guard page below it. -/
structure StackImage (L : Layout) (s₀ : Kernel) (d top : ℕ) (s : Kernel) : Prop where
  image : Image L s₀ d top s
  aligned : top % 4096 = 0
  room : 8192 ≤ top
  guard : ∃ e, pageOf s.mem d (top / 4096 - 2) = some e ∧ ¬User e

/-- The bytes from `a` on. -/
def BytesAt (mem : Pages) (d a : ℕ) (bytes : List Byte) : Prop :=
  ∀ k < bytes.length, byteAt mem d (a + k) = bytes[k]?

/-- What a copy below `sp` has done. -/
structure Pushed (L : Layout) (s₀ : Kernel) (d top sp : ℕ) (src : List Byte) (s : Kernel)
    (va : ℕ) (s' : Kernel) : Prop where
  place : va = pushed sp src.length
  image : StackImage L s₀ d top s'
  above : top - 4096 ≤ va
  fits : va + src.length ≤ sp
  aligned : va % 4 = 0
  bytes : BytesAt s'.mem d va src
  user : Accessible s'.mem d va
  kept : ∀ a, sp ≤ a → a < top → byteAt s'.mem d a = byteAt s.mem d a

variable {L : Layout} {a d n p sp sz top va : ℕ} {e : Word} {s s₀ s' : Kernel} {src : List Byte}

theorem makeStack_spec (h : Image L s₀ d sz s) (hsz : sz % 4096 = 0) :
    Ends (Unfinished L s₀ d) (StackImage L s₀ d) (makeStack L d sz s) := by
  have hle : sz ≤ 2147483648 := h.le
  obtain ⟨r, s₁, hrun, hres⟩ := h.allocuvm ((sz + 2 * pgsize) % 4294967296)
  rw [makeStack, hrun, ok_bind]
  rcases hres with ⟨rfl, hfresh⟩ | ⟨hpos, hr, h₁⟩
  · rw [if_pos rfl]
    exact .bad hfresh
  · have htop : r = 4096 * (sz / 4096) + 8192 := by
      dsimp only [pgsize] at hr
      omega
    have hsub : r - 2 * pgsize = 4096 * (sz / 4096) := by
      dsimp only [pgsize]
      omega
    have hguard : r / 4096 - 2 = sz / 4096 := by omega
    have huser : sz / 4096 < userPages := by
      have := h₁.le
      dsimp only [kernbase, userPages] at this ⊢
      omega
    obtain ⟨e, he⟩ := h₁.present (sz / 4096) (by omega)
    obtain ⟨s₂, hclear, hgrown, hpages⟩ := clearpteu_spec h₁.fresh.space huser he
    have hsome : ∀ p, (∃ e, pageOf s₁.mem d p = some e) → ∃ e, pageOf s₂.mem d p = some e := by
      rintro p ⟨e', he'⟩
      rw [hpages]
      by_cases hp : p = sz / 4096
      · exact ⟨_, if_pos hp⟩
      · exact ⟨e', (if_neg hp).trans he'⟩
    have h₂ : Image L s₀ d r s₂ := by
      refine ⟨h₁.fresh.grown hgrown, h₁.le, fun p hp => hsome p (h₁.present p hp), ?_,
        fun p hp hp' => hsome p (h₁.devices p hp hp')⟩
      intro p hp hr'
      rw [hpages, if_neg (by omega)]
      exact h₁.absent p hp hr'
    rw [if_neg (Nat.ne_of_gt hpos), hsub, hclear, ok_bind]
    refine .good ⟨h₂, by omega, by omega, e &&& ~~~pteU, ?_, not_user_clear e⟩
    rw [hpages, if_pos hguard]

namespace StackImage

theorem touched (h : StackImage L s₀ d top s) (hfree : s'.freelist = s.freelist)
    (ht : Touched s.mem s'.mem d) : StackImage L s₀ d top s' := by
  refine ⟨h.image.touched hfree ht, h.aligned, h.room, ?_⟩
  rw [ht.pageOf_eq h.image.fresh.space]
  exact h.guard

theorem not_accessible_guard (h : StackImage L s₀ d top s) (hlo : top - 8192 ≤ a)
    (hhi : a < top - 4096) : ¬Accessible s.mem d a := by
  rintro ⟨e, he, hu⟩
  obtain ⟨e', he', hno⟩ := h.guard
  have haligned := h.aligned
  have hroom := h.room
  have hpage : a / 4096 = top / 4096 - 2 := by omega
  rw [hpage, he'] at he
  exact hno (Option.some.inj he ▸ hu)

theorem not_accessible_device (h : StackImage L s₀ d top s) (ha : 4227858432 ≤ a) :
    ¬Accessible s.mem d a := by
  intro hacc
  have := accessible_user h.image.fresh.space hacc
  dsimp only [userPages] at this
  omega

theorem table_isSome (h : StackImage L s₀ d top s) (ha : a < top ∨ 4227858432 ≤ a)
    (hlt : a < 4294967296) : (tableOf s.mem d (a / 4096 / 1024)).isSome := by
  have hpage : ∃ e, pageOf s.mem d (a / 4096) = some e := by
    rcases ha with ha | ha
    · exact h.image.present _ (by omega)
    · exact h.image.devices _ (by omega) (by omega)
  obtain ⟨e, he⟩ := hpage
  obtain ⟨t, ht, -⟩ := table_of_page he
  exact Option.isSome_of_eq_some ht

end StackImage

section Pushing

/-- Where a copy below `sp` begins. -/
theorem pushed_cases (hlt : sp ≤ 2147483648) (hlen : n ≤ 67108864) :
    pushed sp n % 4 = 0 ∧ (pushed sp n + n ≤ sp ∧ sp < pushed sp n + n + 4 ∨
        4227858432 ≤ pushed sp n ∧ pushed sp n < 4294967296) := by
  simp only [pushed]
  omega

variable (h : StackImage L s₀ d top s) (hle : sp ≤ top) (hlen : n ≤ 67108864)

include h hle hlen

theorem pushed_noHole : NoHole s.mem d (pushed sp n) n := by
  obtain ⟨-, ⟨hfits, -⟩ | ⟨hdev, hlt⟩⟩ := pushed_cases (hle.trans h.image.le) hlen
  · have htop : top ≤ 2147483648 := h.image.le
    intro k hk _
    have haddr : addr (pushed sp n) k = pushed sp n + k := by
      simp only [addr]
      omega
    exact h.table_isSome (.inl (by omega)) (by omega)
  · intro k hk hall
    have hzero := addr_zero hlt
    cases k with
    | zero =>
      rw [hzero]
      exact h.table_isSome (.inr hdev) hlt
    | succ k => exact absurd (hzero ▸ hall 0 (Nat.succ_pos k)) (h.not_accessible_device hdev)

/-- A copy that goes through stays in the stack page. -/
theorem pushed_above (hsp : top - 4096 ≤ sp) (hpos : 0 < n)
    (hall : ∀ k < n, Accessible s.mem d (addr (pushed sp n) k)) :
    top - 4096 ≤ pushed sp n ∧ pushed sp n + n ≤ sp := by
  have hroom := h.room
  have htop : top ≤ 2147483648 := h.image.le
  obtain ⟨-, ⟨hfits, hclose⟩ | ⟨hdev, hlt⟩⟩ := pushed_cases (hle.trans h.image.le) hlen
  · refine ⟨?_, hfits⟩
    by_contra hlow
    by_cases hguard : top - 8192 ≤ pushed sp n
    · have hacc := hall 0 hpos
      rw [addr_zero (by omega)] at hacc
      exact h.not_accessible_guard hguard (Nat.lt_of_not_le hlow) hacc
    · -- the copy comes to the first byte of the guard page
      have hacc := hall (top - 8192 - pushed sp n) (by omega)
      have haddr : addr (pushed sp n) (top - 8192 - pushed sp n) = top - 8192 := by
        simp only [addr]
        omega
      rw [haddr] at hacc
      exact h.not_accessible_guard (Nat.le_refl _) (by omega) hacc
  · have hacc := hall 0 hpos
    rw [addr_zero hlt] at hacc
    exact absurd hacc (h.not_accessible_device hdev)

end Pushing

theorem push_spec (h : StackImage L s₀ d top s) (hsp : top - 4096 ≤ sp) (hle : sp ≤ top)
    (hpos : 0 < src.length) (hlen : src.length ≤ 67108864) :
    Ends (Unfinished L s₀ d) (Pushed L s₀ d top sp src s)
      (push d (pushed sp src.length) src s) := by
  have htop : top ≤ 2147483648 := h.image.le
  have hroom := h.room
  obtain ⟨haligned, hcases⟩ := pushed_cases (hle.trans h.image.le) hlen
  have hva : pushed sp src.length < 4294967296 := by omega
  have hsrc : src.length < 4294967296 := by omega
  obtain ⟨r, s', hrun, hended⟩ :=
    (copyout_spec h.image.fresh.space hva hsrc).1 (pushed_noHole h hle hlen)
  have h' := h.touched hended.free hended.touched
  rw [push, hrun, ok_bind]
  obtain ⟨rfl, hall, hw⟩ | ⟨rfl, -⟩ := hended.result
  case inl =>
    obtain ⟨habove, hfits⟩ := pushed_above h hle hlen hsp hpos hall
    have haddr : ∀ k < src.length, addr (pushed sp src.length) k = pushed sp src.length + k := by
      intro k hk
      simp only [addr]
      omega
    rw [if_neg (Int.lt_irrefl 0)]
    refine .good ⟨rfl, h', habove, hfits, haligned, ?_, ?_, ?_⟩
    · intro k hk
      rw [← haddr k hk]
      exact hw.bytes k hk
    · rw [accessible_congr (hended.touched.pageOf_eq h.image.fresh.space)]
      have hacc := hall 0 hpos
      rwa [addr_zero hva] at hacc
    · intro a ha hat
      refine hw.outside h.image.fresh.space hended.touched hall ?_ ?_
      · dsimp only [userPages]
        omega
      · intro k hk
        rw [haddr k hk]
        omega
  case inr =>
    rw [if_pos failed]
    exact .bad h'.image.fresh

section Arguments

/-- The copies of the arguments, one below the other from `sp` down to the last one at `sp'`. -/
inductive Strings (mem : Pages) (d : ℕ) : ℕ → List (List Byte) → List ℕ → ℕ → Prop
  | nil (sp : ℕ) : Strings mem d sp [] [] sp
  | cons {sp va sp' : ℕ} {arg : List Byte} {argv : List (List Byte)} {ptrs : List ℕ}
      (fits : va + (arg.length + 1) ≤ sp) (aligned : va % 4 = 0)
      (bytes : BytesAt mem d va (arg ++ [0])) (rest : Strings mem d va argv ptrs sp') :
      Strings mem d sp (arg :: argv) (va :: ptrs) sp'

/-- What the loop over the arguments has done. -/
structure ArgsPushed (L : Layout) (s₀ : Kernel) (d top sp argc : ℕ) (argv : List (List Byte))
    (s : Kernel) (r : ℕ × List ℕ) (s' : Kernel) : Prop where
  image : StackImage L s₀ d top s'
  above : top - 4096 ≤ r.1
  aligned : r.1 % 4 = 0
  strings : Strings s'.mem d sp argv r.2 r.1
  count : argc + r.2.length ≤ maxarg
  kept : ∀ a, sp ≤ a → a < top → byteAt s'.mem d a = byteAt s.mem d a

variable {mem mem' : Pages} {argv : List (List Byte)} {ptrs : List ℕ} {i j argc sp' : ℕ}
  {arg : List Byte} {ptr : ℕ}

theorem BytesAt.congr (h : BytesAt mem d a src)
    (hsame : ∀ b, a ≤ b → b < a + src.length → byteAt mem' d b = byteAt mem d b) :
    BytesAt mem' d a src := by
  intro k hk
  rw [hsame (a + k) (by omega) (by omega)]
  exact h k hk

theorem Strings.le (h : Strings mem d sp argv ptrs sp') : sp' ≤ sp := by
  induction h with
  | nil => exact Nat.le_refl _
  | cons fits _ _ _ ih => omega

theorem Strings.congr (h : Strings mem d sp argv ptrs sp')
    (hsame : ∀ b, sp' ≤ b → b < sp → byteAt mem' d b = byteAt mem d b) :
    Strings mem' d sp argv ptrs sp' := by
  induction h with
  | nil => exact .nil _
  | cons fits aligned bytes rest ih =>
    have hle := rest.le
    refine .cons fits aligned (bytes.congr ?_) (ih fun b hb hb' => hsame b hb (by omega))
    intro b hb hb'
    rw [List.length_append, List.length_singleton] at hb'
    exact hsame b (by omega) (by omega)

theorem Strings.length_eq (h : Strings mem d sp argv ptrs sp') : ptrs.length = argv.length := by
  induction h with
  | nil => rfl
  | cons _ _ _ _ ih => rw [List.length_cons, List.length_cons, ih]

/-- Each copy lies between the last stack pointer and the first one. -/
theorem Strings.get (h : Strings mem d sp argv ptrs sp') (ha : argv[i]? = some arg)
    (hp : ptrs[i]? = some ptr) : BytesAt mem d ptr (arg ++ [0]) ∧ ptr % 4 = 0 ∧ sp' ≤ ptr ∧
      ptr + (arg.length + 1) ≤ sp := by
  induction h generalizing i with
  | nil => cases ha
  | cons fits aligned bytes rest ih =>
    cases i with
    | zero =>
      cases ha
      cases hp
      exact ⟨bytes, aligned, rest.le, fits⟩
    | succ i =>
      obtain ⟨hbytes, h4, hle, hfit⟩ := ih ha hp
      exact ⟨hbytes, h4, hle, by omega⟩

/-- A later copy lies below an earlier one. -/
theorem Strings.apart (h : Strings mem d sp argv ptrs sp') (hij : i < j) {ptr' : ℕ}
    (hi : ptrs[i]? = some ptr') (ha : argv[j]? = some arg) (hp : ptrs[j]? = some ptr) :
    ptr + (arg.length + 1) ≤ ptr' := by
  induction h generalizing i j with
  | nil => cases ha
  | cons fits aligned bytes rest ih =>
    cases j with
    | zero => exact absurd hij (Nat.not_lt_zero _)
    | succ j =>
      cases i with
      | zero =>
        cases hi
        exact (rest.get ha hp).2.2.2
      | succ i => exact ih (Nat.lt_of_succ_lt_succ hij) hi ha hp

theorem pushArgs_spec (h : StackImage L s₀ d top s) (hsp : top - 4096 ≤ sp) (hle : sp ≤ top)
    (h4 : sp % 4 = 0) (hargc : argc ≤ maxarg) (hargs : ∀ arg ∈ argv, arg.length < 67108864) :
    Ends (Unfinished L s₀ d) (ArgsPushed L s₀ d top sp argc argv s)
      (pushArgs d argc sp argv s) := by
  induction argv generalizing argc sp s with
  | nil => exact .good ⟨h, hsp, h4, .nil sp, hargc, fun _ _ _ => rfl⟩
  | cons arg argv ih =>
    rw [pushArgs]
    by_cases hmany : argc ≥ maxarg
    case pos =>
      rw [if_pos hmany]
      exact .bad h.image.fresh
    case neg =>
      have hlen : (arg ++ [0]).length = arg.length + 1 := List.length_append
      have harg := hargs arg List.mem_cons_self
      rw [if_neg hmany, ← hlen]
      refine (push_spec h hsp hle (by omega) (by omega)).orBad ?_
      intro va s₁ hva
      have hfits := hva.fits
      have hrest := ih hva.image hva.above (by omega) hva.aligned (Nat.lt_of_not_le hmany)
        fun arg' h' => hargs arg' (List.mem_cons_of_mem arg h')
      refine hrest.orBad ?_
      rintro ⟨sp', ptrs⟩ s₂ hr
      have hcount := hr.count
      refine .good ⟨hr.image, hr.above, hr.aligned, ?_, ?_, ?_⟩
      · refine .cons (hlen ▸ hfits) hva.aligned (hva.bytes.congr ?_) hr.strings
        exact fun b hb hb' => hr.kept b hb (by omega)
      · dsimp only [List.length_cons] at hcount ⊢
        omega
      · intro b hb hbt
        rw [hr.kept b (by omega) hbt, hva.kept b hb hbt]

end Arguments

section Layout

/-- A word in user memory. -/
def WordAt (mem : Pages) (d a : ℕ) (v : Word) : Prop :=
  ∀ k < 4, byteAt mem d (a + k) = some (byteOf v k)

/-- The stack that a program starts with: the words at the stack pointer, the pointers behind
them and the strings above. -/
structure ArgStack (mem : Pages) (d sz sp : ℕ) (argv : List (List Byte)) (ptrs : List ℕ) :
    Prop where
  guard : ∃ e, pageOf mem d (sz / 4096 - 2) = some e ∧ ¬User e
  user : ∃ e, pageOf mem d (sz / 4096 - 1) = some e ∧ User e
  above : sz - 4096 ≤ sp
  fits : sp + 12 + 4 * argv.length + 4 ≤ sz
  aligned : sp % 4 = 0
  ret : WordAt mem d sp 0xffffffff
  argc : WordAt mem d (sp + 4) (BitVec.ofNat 32 argv.length)
  array : WordAt mem d (sp + 8) (BitVec.ofNat 32 (sp + 12))
  count : ptrs.length = argv.length
  pointers : ∀ (i ptr : ℕ), ptrs[i]? = some ptr →
    WordAt mem d (sp + 12 + 4 * i) (BitVec.ofNat 32 ptr)
  zero : WordAt mem d (sp + 12 + 4 * argv.length) 0
  strings : ∀ (i : ℕ) (arg : List Byte) (ptr : ℕ), argv[i]? = some arg → ptrs[i]? = some ptr →
    BytesAt mem d ptr (arg ++ [0]) ∧ ptr % 4 = 0 ∧
      sp + 12 + 4 * argv.length + 4 ≤ ptr ∧ ptr + (arg.length + 1) ≤ sz
  apart : ∀ (i j : ℕ) (arg : List Byte) (ptr ptr' : ℕ), i < j → ptrs[i]? = some ptr' →
    argv[j]? = some arg → ptrs[j]? = some ptr → ptr + (arg.length + 1) ≤ ptr'

variable {mem : Pages} {argv : List (List Byte)} {ptrs : List ℕ} {i : ℕ} {v : Word}
  {ws : List Word}

theorem getElem?_wordBytes (ws : List Word) (i : ℕ) {k : ℕ} (hk : k < 4) :
    (ws.flatMap wordBytes)[4 * i + k]? = ws[i]?.map (byteOf · k) := by
  induction ws generalizing i with
  | nil => rfl
  | cons w ws ih =>
    rw [List.flatMap_cons]
    cases i with
    | zero =>
      have hlen : 4 * 0 + k < (wordBytes w).length := by
        rw [wordBytes]
        exact Nat.lt_of_lt_of_le (by omega : 4 * 0 + k < 4) (Nat.le_refl _)
      rw [List.getElem?_append_left hlen]
      interval_cases k <;> rfl
    | succ i =>
      have hlen : (wordBytes w).length ≤ 4 * (i + 1) + k := by
        change 4 ≤ _
        omega
      have hrest : 4 * (i + 1) + k - (wordBytes w).length = 4 * i + k := by
        change 4 * (i + 1) + k - 4 = _
        omega
      rw [List.getElem?_append_right hlen, hrest, ih, List.getElem?_cons_succ]

theorem length_wordBytes (ws : List Word) : (ws.flatMap wordBytes).length = 4 * ws.length := by
  induction ws with
  | nil => rfl
  | cons w ws ih =>
    rw [List.flatMap_cons, List.length_append, ih, List.length_cons]
    change 4 + _ = _
    omega

theorem BytesAt.word (h : BytesAt mem d a (ws.flatMap wordBytes)) (hv : ws[i]? = some v) :
    WordAt mem d (a + 4 * i) v := by
  intro k hk
  have hi : i < ws.length := (List.getElem?_eq_some_iff.mp hv).1
  have hbyte := h (4 * i + k) (by rw [length_wordBytes]; omega)
  rw [getElem?_wordBytes ws i hk, hv, Option.map_some] at hbyte
  rw [Nat.add_assoc]
  exact hbyte

theorem length_ustack (sp : ℕ) (ptrs : List ℕ) : (ustack sp ptrs).length = 4 + ptrs.length := by
  rw [ustack, List.length_append, List.length_append, List.length_map]
  simp only [List.length_cons, List.length_nil]
  omega

theorem ustack_pointer (sp : ℕ) (hi : ptrs[i]? = some n) :
    (ustack sp ptrs)[3 + i]? = some (BitVec.ofNat 32 n) := by
  have hlt : i < ptrs.length := (List.getElem?_eq_some_iff.mp hi).1
  have hfirst : 3 + i = (i + 2) + 1 := by omega
  rw [ustack, List.append_assoc, hfirst]
  simp only [List.cons_append, List.getElem?_cons_succ, List.nil_append]
  rw [List.getElem?_append_left (by rwa [List.length_map]), List.getElem?_map, hi, Option.map_some]

theorem ustack_zero (sp : ℕ) (ptrs : List ℕ) : (ustack sp ptrs)[3 + ptrs.length]? = some 0 := by
  have hfirst : 3 + ptrs.length = (ptrs.length + 2) + 1 := by omega
  rw [ustack, List.append_assoc, hfirst]
  simp only [List.cons_append, List.getElem?_cons_succ, List.nil_append]
  rw [List.getElem?_append_right (by rw [List.length_map]), List.length_map, Nat.sub_self]
  rfl

theorem pushed_words (h4 : sp % 4 = 0) (hsp : n ≤ 32) (hlt : sp ≤ 2147483648) :
    (sp + 4294967296 - (3 + n + 1) * 4) % 4294967296 = pushed sp (4 * (4 + n)) := by
  simp only [pushed]
  omega

theorem pushed_eq (h4 : sp % 4 = 0) (hle : 4 * n ≤ sp) (hlt : sp ≤ 2147483648) :
    pushed sp (4 * n) = sp - 4 * n := by
  simp only [pushed]
  omega

/-- The words below the strings complete the stack. -/
theorem argStack_of {r : ℕ × List ℕ} (hr : ArgsPushed L s₀ d top top 0 argv s r s')
    {s'' : Kernel} (hp : Pushed L s₀ d top r.1 ((ustack r.1 r.2).flatMap wordBytes) s' va s'') :
    ArgStack s''.mem d top va argv r.2 := by
  obtain ⟨sp, ptrs⟩ := r
  have htop := hr.image.aligned
  have hroom := hr.image.room
  have hmax : top ≤ 2147483648 := hr.image.image.le
  have hle : sp ≤ top := hr.strings.le
  have h4 : sp % 4 = 0 := hr.aligned
  have hcount : ptrs.length = argv.length := hr.strings.length_eq
  have habove := hp.above
  have hfits := hp.fits
  have hplace := hp.place
  dsimp only at hfits hplace
  rw [length_wordBytes, length_ustack] at hfits hplace
  rw [pushed_eq h4 (by omega) (by omega)] at hplace
  have hwords : ∀ i v, (ustack sp ptrs)[i]? = some v → WordAt s''.mem d (va + 4 * i) v :=
    fun i v hv => hp.bytes.word hv
  have hstrings : Strings s''.mem d top argv ptrs sp :=
    hr.strings.congr fun b hb hb' => hp.kept b hb hb'
  constructor
  case guard => exact hp.image.guard
  case user =>
    have hpage : va / 4096 = top / 4096 - 1 := by omega
    rw [← hpage]
    exact hp.user
  case above => exact habove
  case fits => omega
  case aligned => exact hp.aligned
  case ret => exact hwords 0 _ rfl
  case argc => exact hcount ▸ hwords 1 _ rfl
  case array =>
    have hsp : sp = va + 12 + (ptrs.length + 1) * 4 := by omega
    have hval : BitVec.ofNat 32 sp - BitVec.ofNat 32 ((ptrs.length + 1) * 4) =
        BitVec.ofNat 32 (va + 12) := by
      rw [hsp, BitVec.ofNat_add, BitVec.add_sub_cancel]
    exact hval ▸ hwords 2 _ rfl
  case count => exact hcount
  case pointers =>
    intro i ptr hi
    have hword := hwords (3 + i) _ (ustack_pointer sp hi)
    rwa [Nat.mul_add, ← Nat.add_assoc] at hword
  case zero =>
    have hword := hwords (3 + ptrs.length) _ (ustack_zero sp ptrs)
    rwa [Nat.mul_add, ← Nat.add_assoc, hcount] at hword
  case strings =>
    intro i arg ptr ha hi
    obtain ⟨hbytes, h4', hlow, hfit⟩ := hstrings.get ha hi
    exact ⟨hbytes, h4', by omega, hfit⟩
  case apart =>
    intro i j arg ptr ptr' hij hi ha hj
    exact hstrings.apart hij hi ha hj

theorem pushStack_spec (h : StackImage L s₀ d top s)
    (hargs : ∀ arg ∈ argv, arg.length < 67108864) :
    Ends (Unfinished L s₀ d)
      (fun sp s' => StackImage L s₀ d top s' ∧ ∃ ptrs, ArgStack s'.mem d top sp argv ptrs)
      (pushStack d top argv s) := by
  have haligned := h.aligned
  have hargs' := pushArgs_spec h (Nat.sub_le _ _) (Nat.le_refl _) (by omega) (Nat.zero_le _) hargs
  refine hargs'.orBad ?_
  rintro ⟨sp, ptrs⟩ s₁ hr
  have hcount := hr.count
  have hle : sp ≤ top := hr.strings.le
  have hlt : sp ≤ 2147483648 := hle.trans h.image.le
  have hlen : ((ustack sp ptrs).flatMap wordBytes).length = 4 * (4 + ptrs.length) := by
    rw [length_wordBytes, length_ustack]
  dsimp only [maxarg] at hcount ⊢
  rw [pushed_words hr.aligned (by omega) hlt, ← hlen]
  refine Ends.mono (push_spec hr.image hr.above hle (by omega) (by omega)) ?_
  intro va s₂ hp
  exact ⟨hp.image, ptrs, argStack_of hr hp⟩

end Layout

theorem WordAt.congr {mem mem' : Pages} {v : Word} (h : WordAt mem d a v)
    (hsame : ∀ b, a ≤ b → b < a + 4 → byteAt mem' d b = byteAt mem d b) : WordAt mem' d a v := by
  intro k hk
  rw [hsame (a + k) (by omega) (by omega)]
  exact h k hk

/-- The stack is seen in every memory that has its pages and bytes. -/
theorem ArgStack.congr {mem mem' : Pages} {argv : List (List Byte)} {ptrs : List ℕ}
    (h : ArgStack mem d sz sp argv ptrs) (hpages : pageOf mem' d = pageOf mem d)
    (hsame : ∀ b < sz, byteAt mem' d b = byteAt mem d b) : ArgStack mem' d sz sp argv ptrs := by
  have hfits := h.fits
  have hcount := h.count
  constructor
  case guard => exact hpages ▸ h.guard
  case user => exact hpages ▸ h.user
  case above => exact h.above
  case fits => exact h.fits
  case aligned => exact h.aligned
  case ret => exact h.ret.congr fun b _ hb => hsame b (by omega)
  case argc => exact h.argc.congr fun b _ hb => hsame b (by omega)
  case array => exact h.array.congr fun b _ hb => hsame b (by omega)
  case count => exact h.count
  case pointers =>
    intro i ptr hi
    have hlt : i < ptrs.length := (List.getElem?_eq_some_iff.mp hi).1
    exact (h.pointers i ptr hi).congr fun b _ hb => hsame b (by omega)
  case zero => exact h.zero.congr fun b _ hb => hsame b (by omega)
  case strings =>
    intro i arg ptr ha hi
    obtain ⟨hbytes, h4, hlow, hfit⟩ := h.strings i arg ptr ha hi
    refine ⟨hbytes.congr fun b _ hb => hsame b ?_, h4, hlow, hfit⟩
    rw [List.length_append, List.length_singleton] at hb
    omega
  case apart => exact h.apart

section Exec

variable {argv : List (List Byte)} {old : ℕ}

/-- The old address space is freed and the new one is not touched by that. -/
theorem freevm_old (hold : Space L s₀.freelist s₀.mem old)
    (h : Fresh L s₀.freelist s₀.mem s.freelist s.mem d) :
    ∃ s', freevm L old s = .ok s' ∧ pageOf s'.mem d = pageOf s.mem d ∧
      ∀ b, b / 4096 < userPages → byteAt s'.mem d b = byteAt s.mem d b := by
  have hshared : Space L s.freelist s.mem old :=
    hold.shared (fun f hf => h.free_mono hf) h.space.nodup h.kept
  have hheld : heldBy s.mem old = heldBy s₀.mem old :=
    heldBy_congr (h.kept old hold.dir_not_free) fun i t ht => h.kept t (hold.table_not_free ht)
  obtain ⟨s', hrun, hfreed⟩ := freevm_spec hshared
  have hkept : ∀ k f, heldBy s.mem d k = some f → s'.mem f = s.mem f := by
    intro k f hk
    refine hfreed.kept f ?_
    rw [hfreed.free]
    rintro (hf | ⟨k', hk'⟩)
    · exact h.space.not_free hk hf
    · rw [hheld] at hk'
      exact hold.not_free hk' (h.held_free hk)
  have hpages : pageOf s'.mem d = pageOf s.mem d :=
    pages_congr (hkept .dir d rfl) fun i t ht => hkept (.table i) t ht
  refine ⟨s', hrun, hpages, ?_⟩
  intro b hb
  rw [byteAt, byteAt, hpages]
  cases he : pageOf s.mem d (b / 4096) with
  | none => rfl
  | some e => rw [Option.map_some, Option.map_some, hkept _ _ (heldBy_page hb he)]

theorem buildImage_spec (h : NewSpace L s₀ s d) (file : List Byte) (elf : ElfHdr)
    (hargs : ∀ arg ∈ argv, arg.length < 67108864) :
    Ends (Unfinished L s₀ d)
      (fun r s' => StackImage L s₀ d r.1 s' ∧ ∃ ptrs, ArgStack s'.mem d r.1 r.2 argv ptrs)
      (buildImage L d file elf argv s) := by
  rw [buildImage]
  refine (loadSegments_spec (NewSpace.image h) file elf.phnum elf.phoff).orBad ?_
  intro sz s₁ h₁
  have haligned : pgroundup sz % 4096 = 0 := Nat.mul_mod_left _ _
  refine (makeStack_spec h₁.rounded haligned).orBad ?_
  intro top s₂ h₂
  refine (pushStack_spec h₂ hargs).orBad ?_
  intro sp s₃ h₃
  exact .good h₃

/-- What a call of `exec` has done. -/
theorem exec_spec (path : List Byte) (p : Proc) (file : Option (List Byte))
    (h : Space L s.freelist s.mem p.pgdir) (hargs : ∀ arg ∈ argv, arg.length < 67108864) :
    ∃ r p' s', exec L path file argv p s = .ok (r, p', s') ∧
      (r = -1 ∧ p' = p ∧ Restored s s' ∨
        r = 0 ∧ ∃ ptrs, ArgStack s'.mem p'.pgdir p'.sz p'.esp argv ptrs) := by
  have hsame : Restored s s := ⟨List.Perm.refl _, fun _ _ => rfl⟩
  unfold exec
  cases file with
  | none => exact ⟨-1, p, s, rfl, .inl ⟨rfl, rfl, hsame⟩⟩
  | some file =>
    dsimp only
    cases readFull file 0 52 with
    | none => exact ⟨-1, p, s, rfl, .inl ⟨rfl, rfl, hsame⟩⟩
    | some buf =>
      dsimp only
      by_cases hmagic : (elfhdr buf).magic ≠ elfMagic
      case pos =>
        rw [if_pos hmagic]
        exact ⟨-1, p, s, rfl, .inl ⟨rfl, rfl, hsame⟩⟩
      case neg =>
        rw [if_neg hmagic]
        rcases setupkvm_spec (space_freeList h) with ⟨s₁, hset, hrestored⟩ | ⟨d, s₁, hset, hnew⟩
        case inl =>
          rw [hset, ok_bind]
          exact ⟨-1, p, s₁, rfl, .inl ⟨rfl, rfl, hrestored⟩⟩
        case inr =>
          rw [hset, ok_bind]
          dsimp only
          rcases (buildImage_spec hnew file (elfhdr buf) hargs).outcome with
            ⟨s₂, hbuild, hfresh⟩ | ⟨r, s₂, hbuild, himage, ptrs, hstack⟩
          case inl =>
            obtain ⟨s₃, hfree, hfreed⟩ := freevm_spec hfresh.space
            simp only [hbuild, hfree, ok_bind]
            exact ⟨-1, p, s₃, rfl, .inl ⟨rfl, rfl, hfresh.freed (space_freeList h) hfreed⟩⟩
          case inr =>
            obtain ⟨s₃, hfree, hpages, hbytes⟩ := freevm_old h himage.image.fresh
            have htop : r.1 ≤ 2147483648 := himage.image.le
            simp only [hbuild, hfree, ok_bind]
            refine ⟨0, _, s₃, rfl, .inr ⟨rfl, ptrs, hstack.congr hpages fun b hb => hbytes b ?_⟩⟩
            dsimp only [userPages]
            omega

theorem exec_returns (L : Layout) (path : List Byte) (file : Option (List Byte))
    (argv : List (List Byte)) (p : Proc) (s : Kernel) (h : Space L s.freelist s.mem p.pgdir)
    (hargs : ∀ arg ∈ argv, arg.length + 1 ≤ pgsize) :
    ∃ r p' s', exec L path file argv p s = .ok (r, p', s') ∧ (r = 0 ∨ r = -1) ∧
      (r = -1 → p' = p ∧ Restored s s') := by
  have hlen : ∀ arg ∈ argv, arg.length < 67108864 := by
    intro arg harg
    have hpage := hargs arg harg
    dsimp only [pgsize] at hpage
    omega
  obtain ⟨r, p', s', hrun, ⟨rfl, hkept⟩ | ⟨rfl, -⟩⟩ := exec_spec path p file h hlen
  · exact ⟨-1, p', s', hrun, .inr rfl, fun _ => hkept⟩
  · exact ⟨0, p', s', hrun, .inl rfl, fun hr => absurd hr (by decide)⟩

/-- An ELF header with two loadable segments. The first one is four bytes at address 0; the second
one has fewer bytes in memory than in the file. -/
def badSegment : List Byte :=
  [0x7F, 0x45, 0x4C, 0x46] ++ List.replicate 24 0 ++ [52] ++ List.replicate 15 0 ++ [2] ++
    List.replicate 7 0 ++
  [1, 0, 0, 0, 116, 0, 0, 0] ++ List.replicate 8 0 ++ [4, 0, 0, 0, 4, 0, 0, 0] ++
    List.replicate 8 0 ++
  [1, 0, 0, 0, 116, 0, 0, 0, 0, 16] ++ List.replicate 6 0 ++ [4] ++ List.replicate 15 0 ++
  [1, 2, 3, 4]

theorem orBad_ne {α β : Type} {x : Except Fault (Option α × Kernel)}
    {f : α → Kernel → Except Fault (Option β × Kernel)} {b : β} {s' : Kernel}
    (hf : ∀ a s, f a s ≠ .ok (some b, s')) : orBad x f ≠ .ok (some b, s') := by
  intro hrun
  obtain ⟨⟨r, s⟩, -, hrun⟩ := bind_eq_ok.mp hrun
  cases r with
  | none => cases hrun
  | some a => exact hf a s hrun

theorem badSegment_image {d : ℕ} {r : ℕ × ℕ} {s' : Kernel} :
    buildImage L d badSegment (elfhdr (badSegment.take 52)) argv s ≠ .ok (some r, s') := by
  have hload : ∀ sz s', loadSegments L d badSegment 2 52 0 s ≠ .ok (some sz, s') := by
    intro sz s'
    have hfirst : readFull badSegment 52 32 = some (badSegment.extract 52 84) := by decide +kernel
    have hsecond : readFull badSegment 84 32 = some (badSegment.extract 84 116) := by decide +kernel
    rw [loadSegments, hfirst]
    dsimp only
    rw [if_neg (by decide +kernel)]
    refine orBad_ne fun sz s => ?_
    have h84 : (52 : Word) + 32 = 84 := by decide
    rw [loadSegments, h84, hsecond]
    dsimp only
    rw [if_neg (by decide +kernel), loadSegment, if_pos (by decide +kernel)]
    intro hrun
    cases hrun
  intro hrun
  have hphnum : (elfhdr (badSegment.take 52)).phnum = 2 := by decide +kernel
  have hphoff : (elfhdr (badSegment.take 52)).phoff = 52 := by decide +kernel
  rw [buildImage, hphnum, hphoff] at hrun
  obtain ⟨⟨sz, s₁⟩, h₁, hrun⟩ := bind_eq_ok.mp hrun
  cases sz with
  | none => cases hrun
  | some sz => exact hload sz s₁ h₁

/-- A page directory, the kernel's mappings and the page of the first segment have been taken when
the second segment is refused; all of them are free again. -/
theorem exec_returns_bad_segment :
    ∃ s', exec sampleLayout [97] (some badSegment) [[97, 98]] emptyProc sampleKernel =
        .ok (-1, emptyProc, s') ∧ Restored sampleKernel s' := by
  obtain ⟨r, p', s', hrun, -, hkept⟩ := exec_returns sampleLayout [97] (some badSegment)
    [[97, 98]] emptyProc sampleKernel sample_space (by decide)
  have hread : readFull badSegment 0 52 = some (badSegment.take 52) := by decide +kernel
  have hr : r = -1 := by
    have hexec := hrun
    simp only [exec, hread] at hexec
    rw [if_neg (by decide +kernel)] at hexec
    obtain ⟨⟨_ | d, s₁⟩, -, hexec⟩ := bind_eq_ok.mp hexec
    case none => exact (congrArg Prod.fst (Except.ok.inj hexec)).symm
    case some =>
      obtain ⟨⟨_ | q, s₂⟩, hbuild, hexec⟩ := bind_eq_ok.mp hexec
      case none =>
        obtain ⟨s₃, -, hexec⟩ := bind_eq_ok.mp hexec
        exact (congrArg Prod.fst (Except.ok.inj hexec)).symm
      case some => exact absurd hbuild badSegment_image
  obtain ⟨rfl, hrestored⟩ := hkept hr
  rw [hr] at hrun
  exact ⟨s', hrun, hrestored⟩

theorem exec_stack (L : Layout) (path : List Byte) (file : Option (List Byte))
    (argv : List (List Byte)) (p : Proc) (s : Kernel) (h : Space L s.freelist s.mem p.pgdir)
    (hlen : (argv.map List.length).sum < 67108864) :
    ∃ r p' s', exec L path file argv p s = .ok (r, p', s') ∧
      (r = -1 ∨ r = 0 ∧ ∃ ptrs, ArgStack s'.mem p'.pgdir p'.sz p'.esp argv ptrs) := by
  have hargs : ∀ arg ∈ argv, arg.length < 67108864 := by
    intro arg harg
    exact Nat.lt_of_le_of_lt (List.le_sum_of_mem (List.mem_map_of_mem harg)) hlen
  obtain ⟨r, p', s', hrun, ⟨hr, -⟩ | hr⟩ := exec_spec path p file h hargs
  · exact ⟨r, p', s', hrun, .inl hr⟩
  · exact ⟨r, p', s', hrun, .inr hr⟩

/-- An ELF header without program headers. -/
def emptyProgram : List Byte := [0x7F, 0x45, 0x4C, 0x46] ++ List.replicate 48 0

theorem exec_stack_empty_program : ∃ r p' s',
    exec sampleLayout [97] (some emptyProgram) [[97, 98]] emptyProc sampleKernel =
      .ok (r, p', s') ∧
      (r = -1 ∨ r = 0 ∧ ∃ ptrs, ArgStack s'.mem p'.pgdir p'.sz p'.esp [[97, 98]] ptrs) :=
  exec_stack sampleLayout [97] (some emptyProgram) [[97, 98]] emptyProc sampleKernel
    sample_space (by decide)

end Exec

end ExecStacks
