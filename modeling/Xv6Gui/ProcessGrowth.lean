import Xv6Gui.UserMemory

/-!
# Growing and shrinking a process

growproc of proc.c, as sbrk calls it. The size is unsigned, the change is signed, and the value 0
of allocuvm and deallocuvm stands for a failure: a process that shrinks to size 0 is said to have
failed after its pages are gone, and one that shrinks by more than its size is left alone and
said to have succeeded.
-/
namespace ProcessGrowth

open WordMemory PageEntries PageTables PageViews PageOwnership UserMemory GuardedRuns

/-- The present pages of the user part are those below PGROUNDUP(sz). -/
def Exactly (mem : Pages) (d sz : ℕ) : Prop :=
  ∀ q < userPages, (pageOf mem d q).isSome ↔ 4096 * q < pgroundup sz

/-- Success with the new size and its pages, or failure with the old ones. -/
def GrowLaw (L : Layout) (n : ℤ) (p : Proc) (s : Kernel) : Prop :=
  ∃ r p' s', growproc L n p s = .ok (r, p', s') ∧ p'.pgdir = p.pgdir ∧
    (r = 0 ∧ (p'.sz : ℤ) = p.sz + n ∧ Exactly s'.mem p.pgdir p'.sz ∨
      r = -1 ∧ p'.sz = p.sz ∧ pageOf s'.mem p.pgdir = pageOf s.mem p.pgdir)

variable {L : Layout} {n : ℤ} {p : Proc} {s s' : Kernel} {d sz sz' : ℕ}

theorem exactly_iff (hsz : sz < kernbase) : Exactly s.mem d sz ↔
    ∀ q < userPages, (pageOf s.mem d q).isSome ↔ 4096 * q < sz := by
  have hsmall : sz < 2147483648 := hsz
  have hround : ∀ q, 4096 * q < pgroundup sz ↔ 4096 * q < sz := by
    intro q
    rw [pgroundup_eq (by omega)]
    omega
  simp only [Exactly, hround]

theorem exactly_mapped (h : Exactly s.mem d sz) (hsz : sz < kernbase) (hsz' : sz' < kernbase)
    (hle : sz ≤ sz') (hm : Mapped (pagesOf sz sz') s.mem s'.mem d) : Exactly s'.mem d sz' := by
  rw [exactly_iff hsz] at h
  rw [exactly_iff hsz']
  intro q hq
  by_cases hin : q ∈ pagesOf sz sz'
  case pos =>
    obtain ⟨e, he⟩ := hm.present q hin
    rw [he]
    exact ⟨fun _ => hin.2, fun _ => rfl⟩
  case neg =>
    rw [hm.others q hin, h q hq]
    constructor
    · exact fun hlt => hlt.trans_le hle
    · intro hlt
      by_contra hge
      exact hin ⟨Nat.le_of_not_lt hge, hlt⟩

theorem exactly_shrunk {pool pool' : List ℕ} (h : Exactly s.mem d sz) (hsz : sz < kernbase)
    (hle : sz' ≤ sz) (hs : Shrunk L (pagesOf sz' sz) pool s.mem pool' s'.mem d) :
    Exactly s'.mem d sz' := by
  rw [exactly_iff hsz] at h
  rw [exactly_iff (hle.trans_lt hsz)]
  intro q hq
  by_cases hin : q ∈ pagesOf sz' sz
  case pos =>
    rw [hs.removed q hin]
    exact ⟨fun hsome => absurd hsome Bool.false_ne_true,
      fun hlt => absurd hin.1 (Nat.not_le.mpr hlt)⟩
  case neg =>
    rw [hs.others q hin, h q hq]
    constructor
    · intro hlt
      by_contra hge
      exact hin ⟨Nat.le_of_not_lt hge, hlt⟩
    · exact fun hlt => hlt.trans_le hle

theorem grow_law (h : Space L s.freelist s.mem p.pgdir) (hsz : p.sz < kernbase)
    (hex : Exactly s.mem p.pgdir p.sz) (hn : 0 < n) (hmax : n < 2147483648) : GrowLaw L n p s := by
  have hsmall : p.sz < 2147483648 := hsz
  have hnew : (((p.sz : ℤ) + n) % 4294967296).toNat = p.sz + n.toNat := by omega
  have hnone : p.sz + n.toNat < kernbase →
      ∀ q ∈ pagesOf p.sz (p.sz + n.toNat), pageOf s.mem p.pgdir q = none := by
    rintro hlt q ⟨hq, hq'⟩
    have hqu : q < userPages := by
      dsimp only [kernbase, userPages] at hlt ⊢
      omega
    by_contra hsome
    have hiff := (exactly_iff hsz).mp hex q hqu
    exact absurd (hiff.mp (Option.isSome_iff_ne_none.mpr hsome)) (Nat.not_lt.mpr hq)
  obtain ⟨r, s', hrun, ⟨hgrown, hres⟩, hbig⟩ := allocuvm_spec h (Nat.le_add_right _ _) hnone
  rw [GrowLaw, growproc, hnew, if_pos hn, hrun, ok_bind]
  rcases hres with ⟨rfl, hmapped⟩ | ⟨rfl, hpages⟩
  case inl =>
    have hpos : p.sz + n.toNat ≠ 0 := by omega
    have hlt : p.sz + n.toNat < kernbase := by
      by_contra hge
      exact hpos (hbig (Nat.le_of_not_lt hge))
    rw [if_neg hpos]
    refine ⟨0, _, s', rfl, rfl, .inl ⟨rfl, ?_, ?_⟩⟩
    · dsimp only
      omega
    · exact exactly_mapped hex hsz hlt (Nat.le_add_right _ _) hmapped
  case inr =>
    rw [if_pos rfl]
    exact ⟨-1, p, s', rfl, rfl, .inr ⟨rfl, rfl, hpages⟩⟩

section Shrinking

variable (hsz : p.sz < kernbase) (hn : n < 0) (hmin : -2147483648 ≤ n)
  (hrun : deallocuvm L p.pgdir p.sz (((p.sz : ℤ) + n) % 4294967296).toNat s =
    .ok (min p.sz (((p.sz : ℤ) + n) % 4294967296).toNat, s'))
  (hshrunk : Shrunk L (pagesOf (((p.sz : ℤ) + n) % 4294967296).toNat p.sz) s.freelist s.mem
    s'.freelist s'.mem p.pgdir)

include hsz hn hrun hshrunk

include hmin in
/-- Below zero the new size wraps around to one above the old size, which is kept. -/
theorem shrink_wraps (hneg : (p.sz : ℤ) + n < 0) : GrowLaw L n p s ↔ p.sz = 0 := by
  have hsmall : p.sz < 2147483648 := hsz
  have hnew : p.sz ≤ (((p.sz : ℤ) + n) % 4294967296).toNat := by omega
  rw [GrowLaw, growproc, if_neg (Int.not_lt.mpr (Int.le_of_lt hn)), if_pos hn, hrun, ok_bind,
    Nat.min_eq_left hnew]
  by_cases hz : p.sz = 0
  case pos =>
    have hnothing : pageOf s'.mem p.pgdir = pageOf s.mem p.pgdir := by
      funext q
      refine hshrunk.others q ?_
      rintro ⟨-, hq⟩
      omega
    rw [if_pos hz]
    exact ⟨fun _ => hz, fun _ => ⟨-1, p, s', rfl, rfl, .inr ⟨rfl, rfl, hnothing⟩⟩⟩
  case neg =>
    rw [if_neg hz]
    refine ⟨?_, fun hz' => absurd hz' hz⟩
    rintro ⟨r, p', s₂, hok, -, ⟨-, hsize, -⟩ | ⟨hr, -⟩⟩
    · cases hok
      dsimp only at hsize
      omega
    · cases hok
      cases hr

/-- A process that shrinks to nothing has lost its pages when the call fails. -/
theorem shrink_empties (hex : Exactly s.mem p.pgdir p.sz) (hzero : (p.sz : ℤ) + n = 0) :
    ¬GrowLaw L n p s := by
  have hnew : (((p.sz : ℤ) + n) % 4294967296).toNat = 0 := by omega
  rw [hnew] at hrun hshrunk
  rw [GrowLaw, growproc, if_neg (Int.not_lt.mpr (Int.le_of_lt hn)), if_pos hn, hnew, hrun,
    ok_bind, Nat.min_eq_right (Nat.zero_le _), if_pos rfl]
  rintro ⟨r, p', s₂, hok, -, ⟨hr, -⟩ | ⟨-, -, hpages⟩⟩
  · cases hok
    cases hr
  · -- page 0 was there and is gone
    cases hok
    have hz : 0 < p.sz := by omega
    have hin : 0 ∈ pagesOf 0 p.sz := ⟨Nat.zero_le _, hz⟩
    have hgone := hshrunk.removed 0 hin
    rw [hpages] at hgone
    have hthere := ((exactly_iff hsz).mp hex 0 (by decide)).mpr hz
    rw [hgone] at hthere
    cases hthere

theorem shrink_keeps (hex : Exactly s.mem p.pgdir p.sz) (hpos : 0 < (p.sz : ℤ) + n) :
    GrowLaw L n p s := by
  have hsmall : p.sz < 2147483648 := hsz
  have hnew : (((p.sz : ℤ) + n) % 4294967296).toNat = ((p.sz : ℤ) + n).toNat := by omega
  have hle : ((p.sz : ℤ) + n).toNat ≤ p.sz := by omega
  rw [hnew] at hrun hshrunk
  rw [GrowLaw, growproc, if_neg (Int.not_lt.mpr (Int.le_of_lt hn)), if_pos hn, hnew, hrun,
    ok_bind, Nat.min_eq_right hle, if_neg (by omega)]
  refine ⟨0, _, s', rfl, rfl, .inl ⟨rfl, ?_, ?_⟩⟩
  · dsimp only
    omega
  · exact exactly_shrunk hex hsz hle hshrunk

end Shrinking

theorem shrink_law (h : Space L s.freelist s.mem p.pgdir) (hsz : p.sz < kernbase)
    (hex : Exactly s.mem p.pgdir p.sz) (hn : n < 0) (hmin : -2147483648 ≤ n) :
    GrowLaw L n p s ↔ p.sz = 0 ∨ 0 < (p.sz : ℤ) + n := by
  obtain ⟨s', hrun, hshrunk⟩ := deallocuvm_spec [] (((p.sz : ℤ) + n) % 4294967296).toNat h
    (Nat.le_of_lt hsz)
  rw [List.nil_append, List.nil_append] at hshrunk
  rcases lt_trichotomy ((p.sz : ℤ) + n) 0 with hneg | hzero | hpos
  case inl =>
    rw [shrink_wraps hsz hn hmin hrun hshrunk hneg]
    omega
  case inr.inl =>
    have hno := shrink_empties hsz hn hrun hshrunk hex hzero
    constructor
    · exact fun hlaw => absurd hlaw hno
    · omega
  case inr.inr =>
    exact ⟨fun _ => .inr hpos, fun _ => shrink_keeps hsz hn hrun hshrunk hex hpos⟩

theorem growproc_iff (L : Layout) (n : ℤ) (p : Proc) (s : Kernel)
    (h : Space L s.freelist s.mem p.pgdir) (hsz : p.sz < kernbase)
    (hex : Exactly s.mem p.pgdir p.sz) (hmin : -2147483648 ≤ n) (hmax : n < 2147483648) :
    GrowLaw L n p s ↔ 0 ≤ n ∨ p.sz = 0 ∨ 0 < (p.sz : ℤ) + n := by
  rcases lt_trichotomy n 0 with hn | hn | hn
  case inl =>
    rw [shrink_law h hsz hex hn hmin]
    exact ⟨.inr, fun hor => hor.resolve_left (Int.not_le.mpr hn)⟩
  case inr.inl =>
    refine ⟨fun _ => .inl (Int.le_of_eq hn.symm), fun _ => ?_⟩
    refine ⟨0, p, s, ?_, rfl, .inl ⟨rfl, ?_, hex⟩⟩
    · rw [growproc, if_neg (by omega), if_neg (by omega)]
    · omega
  case inr.inr => exact ⟨fun _ => .inl (Int.le_of_lt hn), fun _ => grow_law h hsz hex hn hmax⟩

/-- A process without memory. -/
def emptyProc : Proc := ⟨0, 300, 0, 0, []⟩

theorem emptyProc_exactly : Exactly (fun _ _ => 0) 300 0 := by
  intro q _
  rw [pageOf_none (tableOf_zero rfl _)]
  exact ⟨fun hsome => absurd hsome Bool.false_ne_true, fun hlt => absurd hlt (Nat.not_lt_zero _)⟩

theorem growproc_one_page : GrowLaw sampleLayout 4096 emptyProc sampleKernel :=
  (growproc_iff sampleLayout 4096 emptyProc sampleKernel sample_space (by decide)
    emptyProc_exactly (by decide) (by decide)).mpr (.inl (by decide))

def onePageProc : Proc := ⟨4096, 300, 0, 0, []⟩

theorem onePageProc_sz : onePageProc.sz < kernbase := by decide

theorem onePageProc_exactly : Exactly onePage 300 onePageProc.sz := by
  refine (exactly_iff (s := ⟨onePage, samplePool⟩) onePageProc_sz).mpr ?_
  intro q _
  rw [onePage_pages]
  by_cases hq : q = 0
  · rw [if_pos hq, hq]
    exact ⟨fun _ => by decide, fun _ => rfl⟩
  · rw [if_neg hq]
    refine ⟨fun hsome => absurd hsome Bool.false_ne_true, fun hlt => ?_⟩
    dsimp only [onePageProc] at hlt
    omega

/-- A process with one page gives it back and is told that it has failed. -/
theorem shrink_to_zero_fails : ¬∀ (L : Layout) (n : ℤ) (p : Proc) (s : Kernel),
    Space L s.freelist s.mem p.pgdir → p.sz < kernbase → Exactly s.mem p.pgdir p.sz →
    -2147483648 ≤ n → n < 2147483648 → GrowLaw L n p s := by
  intro hall
  have hlaw := hall sampleLayout (-4096) onePageProc ⟨onePage, samplePool⟩ onePage_space
    onePageProc_sz onePageProc_exactly (by decide) (by decide)
  have hiff := shrink_law (L := sampleLayout) (n := -4096) (p := onePageProc)
    (s := ⟨onePage, samplePool⟩) onePage_space onePageProc_sz onePageProc_exactly (by decide)
    (by decide)
  rcases hiff.mp hlaw with hz | hpos
  · cases hz
  · exact absurd hpos (by decide)

end ProcessGrowth
